import Koowaldah.Kqueue.Delivered
import Koowaldah.Kqueue.Statements
import Koowaldah.Kqueue.Windows

/-!
# Reading from the serial line

A model of `serial_8250_read` of `drivers/serial/8250_serial.c` and of the part
of `serial_8250_intr` that receives.  The handler pushes a byte to `read_queue`
and wakes the thread that sleeps on `tq`; the thread pulls from the queue until
it has what it was asked for, and sleeps when a pull brings nothing.

The thread goes statement by statement, in `kqueue_pull_tail` too, and an
interrupt may come between any two of them.  The handler itself runs to its
end.  One thread reads, and it is the only one that sleeps on `tq`.

`buf + num_read` goes to `kqueue_pull_tail` together with `size`, not with
`size - num_read`, so that the buffer is safe only as long as the queue never
holds more than what is missing (`SerialState.PullFits`).
-/

namespace Koowaldah

open SysLib SysLib.Dyadic

/-- Where a call of `serial_8250_read` is.  `finished` is its `return`; the thread is on `tq`
between `scheduler_dequeue` and the next `scheduler_enqueue`, which is what `queued` says before
`scheduler_yield`. -/
inductive ReadPc where
  | idle
  | test
  | pulling (v : PullVars)
  | dequeue
  | yield (queued : Bool)
  | asleep
  | finished (value : Nat)
deriving DecidableEq, Repr

/-- A byte may arrive: the thread is not in `kqueue_pull_tail`, nor on its way to sleep after a
pull that brought nothing. -/
def ReadPc.quiet : ReadPc → Bool
  | .pulling v =>
    match v.pc with
    | .ret t => t ≠ 0
    | _ => false
  | .dequeue => false
  | _ => true

/-- The read queue with the zone and the memory, the piles that other users of the zone hold,
the bytes that have arrived so far, and the call: its arguments, `num_read`, and how many bytes
had been taken out of the queue when it was made. -/
structure SerialState where
  heap : KqueueHeap
  live : List Block
  arrived : List UInt8
  before : Nat
  buf : Nat
  size : Nat
  numRead : Nat
  pc : ReadPc

/-- What may happen: a call, a statement of the thread, a byte that arrives, with the address of
the variable `c` of the handler, the wake-up by the branch of the handler that transmits, and what
others do with the zone. -/
inductive SerialEvent where
  | read (buf size : Nat)
  | run
  | byte (c : UInt8) (addr : Nat)
  | wake
  | pageAlloc (order : Nat)
  | pageFree (pg : Nat)
deriving DecidableEq, Repr

namespace SerialState

/-- `scheduler_enqueue (&tq)`. -/
def wakeUp (s : SerialState) : SerialState :=
  match s.pc with
  | .yield true => { s with pc := .yield false }
  | .asleep => { s with pc := .test }
  | _ => s

/-- The next statement of `serial_8250_read`, of which `kqueue_pull_tail` is a part. -/
def serial8250Read (s : SerialState) : Option SerialState :=
  match s.pc with
  | .idle => none
  | .test =>
    if s.numRead < s.size then
      some { s with pc := .pulling ⟨s.buf + s.numRead, s.size, 0, .head⟩ }
    else some { s with pc := .finished s.numRead }
  | .pulling v =>
    match v.pc with
    | .ret t =>
      some { s with numRead := s.numRead + t, pc := if t = 0 then .dequeue else .test }
    | _ => (pullStep s.heap v).map (fun (h, v) => { s with heap := h, pc := .pulling v })
  | .dequeue => some { s with pc := .yield true }
  | .yield true => some { s with pc := .asleep }
  | .yield false => some { s with pc := .test }
  | .asleep => none
  | .finished _ => some { s with pc := .idle }

/-- The buffer of a call that is under way is the caller's: no byte of it is in a page of the
queue. -/
def BufFree (s : SerialState) (h : KqueueHeap) : Prop := s.pc = .idle ∨ h.BufOk s.buf s.size

/-- The variable `c` of the handler is neither in the queue nor in the buffer. -/
def AddrFree (s : SerialState) (addr : Nat) : Prop :=
  (∀ b ∈ s.heap.piles, ApartFrom s.heap.zone b addr 1) ∧
    (s.pc = .idle ∨ addr < s.buf ∨ s.buf + s.size ≤ addr)

instance (s : SerialState) (h : KqueueHeap) : Decidable (s.BufFree h) :=
  inferInstanceAs (Decidable (_ ∨ _))

instance (s : SerialState) (addr : Nat) : Decidable (s.AddrFree addr) :=
  inferInstanceAs (Decidable (_ ∧ _))

/-- `serial_8250_intr` with a byte in the line status: the byte is pushed, and the thread that
sleeps is woken up. -/
def serial8250Intr (s : SerialState) (c : UInt8) (addr : Nat) : Option SerialState :=
  if s.AddrFree addr then
    match kqueuePush { s.heap with mem := Function.update s.heap.mem addr c } addr 1 with
    | (h, .ok) =>
      if s.BufFree h then some ({ s with heap := h, arrived := s.arrived ++ [c] }.wakeUp) else none
    | _ => none
  else none

def step (s : SerialState) : SerialEvent → Option SerialState
  | .read buf size =>
    if s.pc = .idle ∧ size < WORD_RANGE ∧ s.heap.BufOk buf size then
      some { s with
        before := s.arrived.length - s.heap.count
        buf := buf
        size := size
        numRead := 0
        pc := .test }
    else none
  | .run => s.serial8250Read
  | .byte c addr => s.serial8250Intr c addr
  | .wake => some s.wakeUp
  | .pageAlloc order =>
    let (z, pg) := rawAllocPages s.heap.zone order
    some { s with
      heap := { s.heap with zone := z }
      live := (pg.map (Block.mk order)).toList ++ s.live }
  | .pageFree pg =>
    (s.live.find? (fun b => b.start = pg)).map (fun b =>
      { s with
        heap := { s.heap with zone := freePages s.heap.zone pg }
        live := s.live.erase b })

def start (z : Zone) (mem : ByteMem) : SerialState :=
  ⟨⟨memZoneInit z, mem, [], 0⟩, [], [], 0, 0, 0, 0, .idle⟩

/-! ## What a call is to do -/

/-- The call of `memory_copy` that the thread makes next. -/
def copy (s : SerialState) : Option Copy :=
  match s.pc with
  | .pulling v => pullCopy s.heap v
  | _ => none

/-- The condition on a pull: the queue holds no more than what is missing, or the first page
that has bytes has more than was asked for and nothing has been read yet. -/
def PullFits (s : SerialState) : Prop :=
  s.numRead + s.heap.count ≤ s.size ∨
    s.numRead = 0 ∧ ∀ p ∈ s.heap.pages.find? (fun p => 0 < p.count), s.size < p.count

instance (s : SerialState) : Decidable s.PullFits := inferInstanceAs (Decidable (_ ∨ _))

def Orderly (s : SerialState) : SerialEvent → Prop
  | .run => s.pc = .test → s.numRead < s.size → s.PullFits
  | .byte _ _ => s.pc.quiet ∧ PushFits s.heap 1
  | _ => True

instance (h : KqueueHeap) (len : Nat) : Decidable (PushFits h len) :=
  match hlast : h.pages.getLast? with
  | none => decidable_of_iff (len ≤ MAX_COUNT) (by rw [PushFits, hlast])
  | some tmp =>
    decidable_of_iff
      (if tmp.count < MAX_COUNT then
        tmp.base + tmp.count + len ≤ pageToAddr h.zone tmp.page + PAGE_SIZE
      else len ≤ MAX_COUNT) (by rw [PushFits, hlast])

instance (s : SerialState) : ∀ e, Decidable (s.Orderly e)
  | .run => inferInstanceAs (Decidable (_ → _ → _))
  | .byte _ _ => inferInstanceAs (Decidable (_ ∧ _))
  | .read _ _ | .wake | .pageAlloc _ | .pageFree _ => isTrue trivial

/-- A read goes right.  What it copies goes to the buffer, and the thread changes no other
memory.  The value that it returns is the size, and the bytes in the buffer are the next that
have arrived, followed by those in the queue.  The thread does not sleep while there are bytes
for it.  Left alone, it returns as soon as enough bytes have arrived, or else sleeps with all of
them in the buffer. -/
structure ReadsRight (s : SerialState) : Prop where
  inBuf : ∀ c, s.copy = some c → s.buf ≤ c.dst ∧ c.dst + c.n ≤ s.buf + s.size
  frame : ∀ s', s.serial8250Read = some s' → ∀ x, x < s.buf ∨ s.buf + s.size ≤ x →
    s'.heap.mem x = s.heap.mem x
  returns : ∀ value, s.pc = .finished value → value = s.size ∧
    readBytes s.heap.mem s.buf s.size ++ s.heap.contents = s.arrived.drop s.before ∧
    s.before + s.size + s.heap.count = s.arrived.length
  awake : s.pc = .asleep → s.heap.count = 0 ∧ s.numRead < s.size
  goesOn : s.pc = .test → (s.numRead < s.size → s.PullFits) →
    ∃ k s', run step s (List.replicate k .run) = some s' ∧
      Meets step Orderly s (List.replicate k .run) ∧
      if s.before + s.size ≤ s.arrived.length then s'.pc = .finished s.size
      else s'.pc = .asleep ∧ s.before + s'.numRead = s.arrived.length

end SerialState

end Koowaldah
