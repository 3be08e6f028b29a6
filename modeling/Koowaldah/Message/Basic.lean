import Koowaldah.GetPages
import Koowaldah.MemArea.Basic
import Koowaldah.Sched.Queues

/-!
# Messages

A model of `msg_send` and `msg_retrieve` of `kernel/fs/message.c`, on top of
the models of the thread queues, of the memory areas and of the page
allocator.

A thread is named by its pid, and has a mapping of its own; the pids below
`threads` exist.  The queue `sleepers`, the queue on the stack of `msg_send`
and the `m_tq` of every message are thread queues of the scheduler.  A message
is named by the slice that holds it, and a mailbox is the list of its messages.

The mailbox area `m_mma[4]` of a mapping is kept under the number of the
thread.  A page table serves the user part of the address space only; below
`USERMEM_START` every mapping is the identity on physical memory.

Context switches happen in `scheduler_yield` only, so a call runs from the
system call to the next yield in one step.  A thread that has called
`msg_retrieve` and sleeps keeps its arguments and its local variable `msg` in
`MsgPc.retrieve`, and goes on from there when it is switched to.  Between
calls, threads store to their memory.

`none` is a kernel that stops: a `bug ()`, a page fault in the kernel, or an
access through a pointer that is not valid.

Two fields of a message are there for the statements only and are read by no
function: `serial`, which tells messages apart, and `held`, the bytes that the
buffer of the sender held at the call.  `log` records what was sent and what
was retrieved.
-/

namespace Koowaldah

open SysLib SysLib.Dyadic

/-! ## Constants -/

def MF_REMAP : Nat := 0x02

def MF_BLOCK : Nat := 0x04

def MF_NOTIFY : Nat := 0x08

def MF_GRANU : Nat := 0x10

def USERMEM_MBOX : Nat := 0xa0000000

/-- The queue of the threads that sleep in `msg_retrieve`. -/
def sleepers : Queue := .wait 0

/-- The local variable `tq` of `msg_send`. -/
def wakeTq : Queue := .wait 1

/-- The `m_tq` of a message. -/
def mTq (msg : Nat) : Queue := .wait (msg + 2)

/-! ## State -/

/-- `struct message`, and the slice it is in. -/
structure Message where
  addr : Nat
  mSender : Nat
  mFlags : Nat
  mBuf : Nat
  mLen : Nat
  serial : Nat
  held : Option (List UInt8)
deriving DecidableEq, Repr

/-- The sender sleeps until the message is retrieved. -/
def Message.blocks (m : Message) : Bool := hasFlag m.mFlags MF_BLOCK

/-- Where a thread stands. -/
inductive MsgPc where
  /-- Outside the two functions, or in the last yield of `msg_send`. -/
  | user
  /-- In the yield of `msg_retrieve`. -/
  | retrieve (sender buf len flags : Nat) (msg : Option Message)
deriving DecidableEq, Repr

/-- A message was put into a mailbox, or taken out of it by `msg_retrieve`. -/
inductive MsgEvent where
  | sent (recp : Nat) (m : Message)
  | got (recp : Nat) (m : Message) (stored : Option (List UInt8))
deriving DecidableEq, Repr

/-- The state of the messages and of what they rest on.  `live` are the piles
of the user zone that are handed out, to anyone. -/
structure MsgState where
  sched : SchedState
  vm : VmState
  live : List Block
  nmma : Nat → Nat
  mem : ByteMem
  mbox : Nat → List Message
  msgPool : List Nat
  pc : Nat → MsgPc
  threads : Nat
  log : List MsgEvent

namespace MsgState

/-- The physical address of a byte in the mapping of a thread. -/
def translate (s : MsgState) (t virt : Nat) : Option Nat :=
  if virt < USERMEM_START then some virt
  else (s.vm.pgtable t (virt / PAGE_SIZE)).map (fun e => e.phys + virt % PAGE_SIZE)

/-- `__virt2physpg`.  An entry that is not present reads as zero. -/
def virt2physpg (s : MsgState) (t virt : Nat) : Nat :=
  if virt < USERMEM_START then virt - virt % PAGE_SIZE
  else ((s.vm.pgtable t (virt / PAGE_SIZE)).map Pte.phys).getD 0

def virt2phys (s : MsgState) (t virt : Nat) : Nat :=
  s.virt2physpg t virt + virt % PAGE_SIZE

/-! ## `msg_send` -/

/-- The word at an address, as the current thread reads it. -/
def word (s : MsgState) (x : Nat) : Option Nat :=
  (readVia (s.translate s.sched.current) s.mem x 4).map
    (fun bytes => bytes.foldr (fun b n => b.toNat + 256 * n) 0)

/-- `get_page (ZONE_USER)` returns `NULL`: there is no page, and what `page_to_addr` reads
through `NULL` comes to zero. -/
def noPage (s : MsgState) : Bool :=
  (rawAllocPages s.vm.zone 0).2.isNone && nullAddr s.word == some 0

/-- `get_page (ZONE_USER)`: the address of a page.  When there is none and the answer is not
`NULL` either, the call goes on with an address that is no page's. -/
def getPage (s : MsgState) : Option (MsgState × Nat) :=
  let z := (rawAllocPages s.vm.zone 0).1
  (rawAllocPages s.vm.zone 0).2.map (fun pg =>
    ({ s with vm := { s.vm with zone := z }, live := ⟨0, pg⟩ :: s.live }, pageToAddr z pg))

/-- The mailbox area of the recipient, made when the mapping has four areas.
`areaOk` is whether `mem_area_alloc_new` has a slice; the answer is whether
there is an area to go on with. -/
def mboxArea (recp : Nat) (areaOk : Bool) (s : MsgState) : MsgState × Bool :=
  if s.nmma recp = 4 then
    let s := { s with nmma := Function.update s.nmma recp 5 }
    if areaOk then
      ({ s with vm := s.vm.memAreaAlloc recp recp USERMEM_MBOX MMA_GROWS }, true)
    else
      ({ s with vm := { s.vm with areas := Function.update s.vm.areas recp none } }, false)
  else (s, true)

/-- Map a page into the mailbox area.  The answer is `m_buf`, or the error that
is returned. -/
def mapMessage (recp ppg : Nat) (areaOk : Bool) (s : MsgState) :
    Option (MsgState × Except Int Nat) :=
  (addrToPage s.vm.zone ppg).bind (fun pg =>
    match s.mboxArea recp areaOk with
    | (s, false) => some (s, .error (-ENOMEM))
    | (s, true) =>
      (s.vm.areas recp).bind (fun r =>
        ((s.vm.mapPage recp r.mEnd ppg r.mProt).memAreaAddPage recp pg).toOption.map (fun vm =>
          ({ s with vm := vm }, .ok (vm.zone.virt pg)))))

/-- The branch of `msg_send` without `MF_BLOCK`: copy the message to a page and
map the page into the mailbox area. -/
def msgStore (recp buf len : Nat) (areaOk : Bool) (s : MsgState) :
    Option (MsgState × Except Int Nat) :=
  s.getPage.bind (fun (s, ppg) =>
    (memoryCopyVia (s.translate s.sched.current) s.mem ppg buf len).bind (fun mem =>
      ({ s with mem := mem } : MsgState).mapMessage recp ppg areaOk))

/-- The loop of `msg_send` over `sleepers`: when the recipient is there, move it
to the run queue. -/
def wake (threads recp : Nat) (s : SchedState) : Option SchedState := do
  let asleep ← klist0Find (.queue sleepers) (.thread recp) s.links (threads + 1)
    (s.links.next (.queue sleepers))
  if asleep then
    let s ← (s.tqInit wakeTq).spinLock sleepers
    let s ← s.rawTqRemoveThread recp
    let s ← s.spinUnlock sleepers
    let s ← s.tqInsertHead recp wakeTq
    let (s, _) ← s.sched0Enqueue wakeTq
    return s
  else return s

def blockSender (m : Message) (s : SchedState) : Option SchedState :=
  if m.blocks then s.sched0Dequeue (mTq m.addr) else some s

/-- The end of `msg_send`, from the initialisation of the message on. -/
def msgPost (recp : Nat) (m : Message) (s : MsgState) : Option MsgState := do
  let s := { s with
    mbox := Function.update s.mbox recp (s.mbox recp ++ [m])
    log := s.log ++ [MsgEvent.sent recp m] }
  let sched ← wake s.threads recp (s.sched.tqInit (mTq m.addr))
  let sched ← blockSender m sched
  let sched ← sched.sched0Yield
  return { s with sched := sched }

def takeSlice (addr : Nat) (s : MsgState) : MsgState := { s with msgPool := addr :: s.msgPool }

def freeSlice (addr : Nat) (s : MsgState) : MsgState := { s with msgPool := s.msgPool.erase addr }

def newMessage (s : MsgState) (addr buf len flags mBuf : Nat) : Message where
  addr := addr
  mSender := s.sched.current
  mFlags := flags
  mBuf := mBuf
  mLen := len
  serial := s.log.length
  held := readVia (s.translate s.sched.current) s.mem buf len

/-- `msg_send`, with the value it returns.  `slice` is the answer of
`slice_alloc`, which is no slice that is in use. -/
def msgSend (recp buf len flags : Nat) (slice : Option Nat) (areaOk : Bool) (s : MsgState) :
    Option (MsgState × Int) :=
  if hasFlag flags (MF_REMAP ||| MF_NOTIFY ||| MF_GRANU) then some (s, -ENOSYS)
  else if len > PAGE_SIZE then some (s, -ENOSYS)
  else if s.threads ≤ recp then some (s, -EINVAL)
  else
    match slice with
    | none => some (s, -ENOMEM)
    | some addr =>
      if addr ∈ s.msgPool then none
      else
        let m := s.newMessage addr buf len flags
        let s := s.takeSlice addr
        if hasFlag flags MF_BLOCK then
          (s.msgPost recp (m (s.virt2phys s.sched.current buf))).map (fun s => (s, (len : Int)))
        else if s.noPage then some (s.freeSlice addr, -ENOMEM)
        else
          (s.msgStore recp buf len areaOk).bind (fun (s, r) =>
            match r with
            | .error e => some (s, e)
            | .ok mBuf => (s.msgPost recp (m mBuf)).map (fun s => (s, (len : Int))))

/-! ## `msg_retrieve` -/

/-- What is done at the label `sleep`.  `none` for the value is a thread that
sleeps. -/
def retrieveSleep (sender buf len flags : Nat) (msg : Option Message) (s : MsgState) :
    Option (MsgState × Option Int) := do
  let me := s.sched.current
  if hasFlag flags MF_BLOCK then
    let sched ← s.sched.sched0Dequeue sleepers
    let sched ← sched.sched0Yield
    return ({ s with
      sched := sched, pc := Function.update s.pc me (.retrieve sender buf len flags msg) }, none)
  else return ({ s with pc := Function.update s.pc me .user }, some (-EAGAIN))

/-- Take the page of a message out of the mailbox area and free it. -/
def releasePage (mBuf : Nat) (s : MsgState) : Option MsgState := do
  let me := s.sched.current
  let phys := s.virt2physpg me mBuf
  let pg ← addrToPage s.vm.zone phys
  let vm ← ((s.vm.unmapPage me mBuf).memAreaRemovePage me pg).toOption
  let zone ← putPages vm.zone phys
  return { s with vm := { vm with zone := zone }, live := s.live.erase ⟨0, pg⟩ }

/-- The page of a message that has one is released. -/
def releaseBuf (m : Message) (s : MsgState) : Option MsgState :=
  if m.blocks then some s else s.releasePage m.mBuf

/-- The sender that waits for its message is put back on the run queue. -/
def releaseSender (m : Message) (s : SchedState) : Option SchedState :=
  if m.blocks ∧ klist0Empty (.queue (mTq m.addr)) s.links = false then
    (s.sched0Enqueue (mTq m.addr)).map Prod.fst
  else some s

/-- The end of `msg_retrieve`, with the message that was found. -/
def retrieveTake (buf : Nat) (m : Message) (s : MsgState) : Option (MsgState × Int) := do
  let me := s.sched.current
  let mem ← memoryCopyVia (s.translate me) s.mem buf m.mBuf m.mLen
  let stored := readVia (s.translate me) mem buf m.mLen
  let s ← ({ s with mem := mem } : MsgState).releaseBuf m
  let sched ← releaseSender m s.sched
  return ({ s with
    sched := sched
    mbox := Function.update s.mbox me ((s.mbox me).erase m)
    msgPool := s.msgPool.erase m.addr
    pc := Function.update s.pc me .user
    log := s.log ++ [MsgEvent.got me m stored] }, (m.mLen : Int))

/-- The loop over the mailbox: the first message of the sender, or else the last
message, or else what `msg` was before. -/
def scan (sender : Nat) : Option Message → List Message → Option Message
  | msg, [] => msg
  | _, m :: l => if m.mSender = sender then some m else scan sender (some m) l

/-- `msg_retrieve` from the loop over the mailbox on. -/
def retrieveScan (sender buf len flags : Nat) (msg : Option Message) (s : MsgState) :
    Option (MsgState × Option Int) := do
  let msg := scan sender msg (s.mbox s.sched.current)
  let m ← msg
  if m.mSender ≠ sender then s.retrieveSleep sender buf len flags msg
  else (s.retrieveTake buf m).map (fun (s, n) => (s, some n))

/-- `msg_retrieve`, up to its end or to its yield.  `buf` is the value of the
variable that the argument points to. -/
def msgRetrieve (sender buf len flags : Nat) (s : MsgState) : Option (MsgState × Option Int) :=
  if sender = 0 ∨ len = 0 ∨ buf = 0 then some (s, some (-ENOSYS))
  else if (s.mbox s.sched.current).isEmpty then s.retrieveSleep sender buf len flags none
  else s.retrieveScan sender buf len flags none

end MsgState

/-! ## Runs -/

inductive MsgCall where
  | send (recp buf len flags : Nat) (slice : Option Nat) (areaOk : Bool)
  | retrieve (sender buf len flags : Nat)
  | resume
  | store (virt : Nat) (byte : UInt8)
  | yield
  | tick
deriving DecidableEq, Repr

/-- One step.  A thread that was switched to in the yield of `msg_retrieve` can
only go on there. -/
def MsgState.call (s : MsgState) (c : MsgCall) : Option MsgState :=
  match s.pc s.sched.current, c with
  | .user, .send recp buf len flags slice areaOk =>
    (s.msgSend recp buf len flags slice areaOk).map Prod.fst
  | .user, .retrieve sender buf len flags => (s.msgRetrieve sender buf len flags).map Prod.fst
  | .retrieve sender buf len flags msg, .resume =>
    (s.retrieveScan sender buf len flags msg).map Prod.fst
  | .user, .store virt byte =>
    (s.translate s.sched.current virt).map (fun x =>
      { s with mem := Function.update s.mem x byte })
  | .user, .yield => s.sched.sched0Yield.map (fun sched => { s with sched := sched })
  | _, .tick => s.sched.sched0Tick.map (fun sched => { s with sched := sched })
  | _, _ => none

end Koowaldah
