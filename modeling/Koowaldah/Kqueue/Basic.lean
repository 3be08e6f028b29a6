import Koowaldah.Klib
import Koowaldah.PageAlloc.Runs

/-!
# The byte queue

A model of `kernel/lib/kqueue.c`.  A queue is a ring of pages.  Every page
starts with a `struct kqueue_page`, whose `base` and `count` delimit the bytes
of the page that are in the queue; the rest of the page is payload.
`kqueue_push` fills the newest page and adds pages, `kqueue_pull_tail` drains
the oldest ones.

The ring is the list of its pages, the oldest first, so that `q->pages.prev`
is the first of the list and `q->pages.next` the last.  The headers of the
pages are records; the bytes are in a flat memory, where a copy that runs over
the end of a page hits the page after it.
-/

namespace Koowaldah

open SysLib SysLib.Dyadic

/-- `sizeof (struct kqueue_page)` on i386. -/
def SIZEOF_KQUEUE_PAGE : Nat := 16

/-- `MAX_COUNT`: the payload of a page. -/
def MAX_COUNT : Nat := PAGE_SIZE - SIZEOF_KQUEUE_PAGE

/-- `struct kqueue_page`, with the index of the page it is in. -/
structure KqueuePage where
  page : Nat
  base : Nat
  count : Nat

/-- A `struct kqueue_t` with the zone its pages come from and the memory. -/
structure KqueueHeap where
  zone : Zone
  mem : ByteMem
  pages : List KqueuePage
  count : Nat

/-- How `kqueue_push` ends: it returns 0 or `-ENOMEM`, or reaches the `bug ()`
of `queue_shrink`, or reads through the `NULL` that `get_page` passes to
`page_to_addr`. -/
inductive PushOutcome where
  | ok
  | enomem
  | bug
  | fault
deriving DecidableEq, Repr

/-- The `do` loop of `kqueue_push`.  Every round but the last pushes a full
page, so `len / MAX_COUNT + 1` rounds are enough. -/
def pushLoop : Nat → KqueueHeap → Nat → Nat → Nat → KqueueHeap × PushOutcome
  | 0, h, _, _, _ => (h, .ok)
  | fuel + 1, h, data, len, pushed =>
    let (z, pg) := rawAllocPages h.zone 0
    match pg with
    | none => ({ h with zone := z }, .fault)
    | some pg =>
      let tmp := pageToAddr z pg
      if tmp = 0 then
        ({ h with zone := z }, if pushed ≠ 0 then .bug else .enomem)
      else
        let base := tmp + SIZEOF_KQUEUE_PAGE
        let t := min len MAX_COUNT
        -- `data` is the same in every round
        let h : KqueueHeap :=
          ⟨z, memoryCopy h.mem base data t, h.pages ++ [⟨pg, base, t⟩], h.count + t⟩
        if len - t ≠ 0 then pushLoop fuel h data (len - t) (pushed + t) else (h, .ok)

def kqueuePush (h : KqueueHeap) (data len : Nat) : KqueueHeap × PushOutcome :=
  match h.pages.getLast? with
  | none => pushLoop (len / MAX_COUNT + 1) h data len 0
  | some tmp =>
    if tmp.count < MAX_COUNT then
      if len ≤ MAX_COUNT - tmp.count then
        ({ h with
            mem := memoryCopy h.mem (tmp.base + tmp.count) data len
            pages := h.pages.dropLast ++ [{ tmp with count := tmp.count + len }]
            count := h.count + len }, .ok)
      else
        let t := MAX_COUNT - tmp.count
        let h :=
          { h with
            mem := memoryCopy h.mem (tmp.base + tmp.count) data t
            pages := h.pages.dropLast ++ [{ tmp with count := MAX_COUNT }]
            count := h.count + t }
        pushLoop ((len - t) / MAX_COUNT + 1) h data (len - t) t
    else pushLoop (len / MAX_COUNT + 1) h data len 0

/-- The loop of `kqueue_pull_tail` over the pages, the oldest first: the heap
afterwards and the value returned.  `none` when `put_page` is given no page. -/
def pullLoop : List KqueuePage → KqueueHeap → Nat → Nat → Nat → Option (KqueueHeap × Nat)
  | [], h, _, _, pulled => some ({ h with pages := [] }, pulled)
  | tmp :: rest, h, data, len, pulled =>
    if len < tmp.count then
      some ({ h with
          mem := memoryCopy h.mem (data + pulled) tmp.base len
          pages := { tmp with count := tmp.count - len, base := tmp.base + len } :: rest
          count := h.count - len }, len)
    else
      (putPages h.zone (pageToAddr h.zone tmp.page)).bind (fun z =>
        pullLoop rest
          { h with
            zone := z
            mem := memoryCopy h.mem (data + pulled) tmp.base tmp.count
            count := h.count - tmp.count }
          data (len - tmp.count) (pulled + tmp.count))

def kqueuePullTail (h : KqueueHeap) (data len : Nat) : Option (KqueueHeap × Nat) :=
  pullLoop h.pages h data len 0

/-- A queue with the piles that other users of the zone hold, and the bytes
that have been pushed and pulled so far. -/
structure KqueueSys where
  heap : KqueueHeap
  live : List Block
  pushed : List UInt8
  pulled : List UInt8

inductive KqueueCall where
  | push (data len : Nat)
  | pull (buf len : Nat)
  | pageAlloc (order : Nat)
  | pageFree (pg : Nat)
  | store (addr : Nat) (v : UInt8)
deriving DecidableEq, Repr

def KqueueHeap.piles (h : KqueueHeap) : List Block := h.pages.map (fun p => ⟨0, p.page⟩)

/-- A buffer that a caller may have filled: no byte of it is in a page of the
queue. -/
def KqueueHeap.BufOk (h : KqueueHeap) (a n : Nat) : Prop :=
  n = 0 ∨ ∀ b ∈ h.piles, ApartFrom h.zone b a n

instance KqueueHeap.decidableBufOk (h : KqueueHeap) (a n : Nat) : Decidable (h.BufOk a n) :=
  inferInstanceAs (Decidable (_ ∨ _))

/-- One call.  A push counts when it returns 0.  A pull is logged with as many bytes of its
buffer as the size of the queue has gone down by. -/
def KqueueSys.call (s : KqueueSys) : KqueueCall → Option KqueueSys
  | .push data len =>
    match kqueuePush s.heap data len with
    | (h, .ok) => some { s with heap := h, pushed := s.pushed ++ readBytes s.heap.mem data len }
    | _ => none
  | .pull buf len =>
    if s.heap.BufOk buf (min len s.heap.count) then
      (kqueuePullTail s.heap buf len).map (fun (h, _) =>
        { s with
          heap := h
          pulled := s.pulled ++ readBytes h.mem buf (s.heap.count - h.count) })
    else none
  | .pageAlloc order =>
    let (z, pg) := rawAllocPages s.heap.zone order
    some { s with
      heap := { s.heap with zone := z }
      live := (pg.map (Block.mk order)).toList ++ s.live }
  | .pageFree pg =>
    (s.live.find? (fun b => b.start = pg)).map (fun b =>
      { s with
        heap := { s.heap with zone := freePages s.heap.zone pg }
        live := s.live.erase b })
  | .store addr v =>
    if ∀ b ∈ s.heap.piles, ApartFrom s.heap.zone b addr 1 then
      some { s with heap := { s.heap with mem := Function.update s.heap.mem addr v } }
    else none

/-- A queue just made, on a fresh zone and over any memory. -/
def kqueueStart (z : Zone) (mem : ByteMem) : KqueueSys :=
  ⟨⟨memZoneInit z, mem, [], 0⟩, [], [], []⟩

/-- What keeps a push right: the bytes go to one page and end before its end. -/
def PushFits (h : KqueueHeap) (len : Nat) : Prop :=
  match h.pages.getLast? with
  | none => len ≤ MAX_COUNT
  | some tmp =>
    if tmp.count < MAX_COUNT then
      tmp.base + tmp.count + len ≤ pageToAddr h.zone tmp.page + PAGE_SIZE
    else len ≤ MAX_COUNT

def KqueueSys.Fits (s : KqueueSys) : KqueueCall → Prop
  | .push _ len => PushFits s.heap len
  | _ => True

end Koowaldah
