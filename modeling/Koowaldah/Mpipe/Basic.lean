import Koowaldah.Klib
import Koowaldah.Mutex

/-!
# Message pipes

A model of `mpipe_read` and `mpipe_write` of `kernel/fs/mpipe.c`, over the
scheduler and the mutexes.  A pipe has one thread that reads and one that
writes; the other threads yield, sleep and are woken.

A reader leaves the physical address of its buffer in the control structure and
sleeps on its queue.  A writer copies into that buffer, wakes the reader, and
yields until the reader has set the state to `MC_READ_FROM`.  It does not look
whether there is a reader, and `mpipe_read` answers the length it was called
with.

Context switches happen in `scheduler_yield` only, so a step of the model goes
from one yield to the next.  A thread that has yielded in one of the two
functions keeps its arguments and local variables in `MpipePc`.  The bytes of the
buffer of a write are given with the call, and do not change before it returns.
Physical memory lies below `USERMEM_START`.

The bytes `got` that a read has been given, and the `log`, are there for the
statements only and are read by no function.
-/

namespace Koowaldah

open SysLib

/-! ## The page table -/

/-- The physical address of a byte.  `pgtable` has the physical addresses of the
pages of the user part of the address space. -/
def translate (pgtable : Nat → Option Nat) (virt : Nat) : Option Nat :=
  if virt < USERMEM_START then some virt
  else (pgtable (virt / PAGE_SIZE)).map (fun phys => phys + virt % PAGE_SIZE)

/-- `__virt2phys`.  An entry that is not present reads as zero. -/
def rawVirt2phys (pgtable : Nat → Option Nat) (virt : Nat) : Nat :=
  if virt < USERMEM_START then virt
  else (pgtable (virt / PAGE_SIZE)).getD 0 + virt % PAGE_SIZE

/-! ## State -/

/-- `MC_CLOSED`, `MC_OPENED`, `MC_READ_FROM` and `MC_WRITTEN_TO`. -/
inductive McState where
  | closed
  | opened
  | readFrom
  | writtenTo
deriving DecidableEq, Repr

/-- `struct mpipe_ctl`.  `tq` is the number of its thread queue. -/
structure MpipeCtl where
  buf : Nat
  len : Nat
  state : McState
  tq : Nat
  mutex : Mutex
deriving DecidableEq, Repr

def MpipeCtl.queue (mc : MpipeCtl) : Queue := .wait mc.tq

inductive MpipePc where
  /-- Outside the two functions. -/
  | user
  /-- In the yield of `mpipe_read`. -/
  | reading (buf len : Nat) (got : List UInt8)
  /-- In the yield of `mutex_lock`. -/
  | locking (src : ByteMem) (len : Nat)
  /-- In the inner loop of `mpipe_write`, whose `buf` has gone up by `done`. -/
  | writing (src : ByteMem) (len done left : Nat)

/-- The buffer of the read that is in progress. -/
def MpipePc.inProgress : MpipePc → Option (Nat × Nat)
  | .reading buf len _ => some (buf, len)
  | _ => none

/-- Bytes were copied into the buffer of the read that is in progress. -/
def MpipePc.receive (bytes : List UInt8) : MpipePc → MpipePc
  | .reading buf len got => .reading buf len (got ++ bytes)
  | pc => pc

/-- `mpipe_write` was called with some bytes; bytes were copied to an address
while a read, or none, was in progress; a read returned a value, was given some
bytes and sees some in its buffer. -/
inductive MpipeEvent where
  | wrote (bytes : List UInt8)
  | copied (addr : Nat) (bytes : List UInt8) (into : Option (Nat × Nat))
  | returned (value : Nat) (got : List UInt8) (seen : Option (List UInt8))
deriving DecidableEq, Repr

/-- A pipe and its threads.  `pgtable` is the mapping of the reader. -/
structure Mpipe where
  mc : MpipeCtl
  mem : ByteMem
  pgtable : Nat → Option Nat
  reader : Nat
  writer : Nat
  pc : Nat → MpipePc
  log : List MpipeEvent

structure MpipeState extends Mpipe where
  sched : SchedState

namespace MpipeState

/-- The end of `mpipe_open`, where the control structure is initialised.  `tq` and
`mutex->sleepers` are its two queues. -/
def mpipeOpen (sched : SchedState) (mem : ByteMem) (pgtable : Nat → Option Nat)
    (reader writer tq : Nat) (word : BitVec 32) : MpipeState :=
  let (mutex, sched) := (⟨word, tq + 1⟩ : Mutex).init (sched.tqInit (.wait tq))
  { sched := sched
    mc := { buf := 0, len := 0, state := .opened, tq := tq, mutex := mutex }
    mem := mem
    pgtable := pgtable
    reader := reader
    writer := writer
    pc := fun _ => .user
    log := [] }

/-! ## `mpipe_read` -/

/-- `mpipe_read`, to its yield. -/
def mpipeRead (buf len : Nat) (s : MpipeState) : Option MpipeState :=
  let mc := { s.mc with buf := rawVirt2phys s.pgtable buf, len := len }
  ((s.sched.sched0Dequeue mc.queue).bind SchedState.sched0Yield).map (fun sched =>
    { s with
      sched := sched
      mc := mc
      pc := Function.update s.pc s.sched.current (.reading buf len []) })

/-- `mpipe_read`, from its yield to the end. -/
def mpipeReadEnd (buf : Nat) (got : List UInt8) (s : MpipeState) : MpipeState :=
  { s with
    mc := { s.mc with state := .readFrom }
    pc := Function.update s.pc s.sched.current .user
    log := s.log ++
      [.returned s.mc.len got (readVia (translate s.pgtable) s.mem buf s.mc.len)] }

/-! ## `mpipe_write` -/

/-- The body of the outer loop of `mpipe_write`, to the first yield of the inner
one. -/
def mpipeChunk (src : ByteMem) (len done left : Nat) (s : MpipeState) : Option MpipeState :=
  let bytes := readBytes src done (min s.mc.len left)
  let done := (done + s.mc.len) % WORD_RANGE
  let left := (left + (WORD_RANGE - s.mc.len)) % WORD_RANGE
  (s.sched.sched0Enqueue s.mc.queue).bind (fun (sched, _) =>
    sched.sched0Yield.map (fun sched =>
      { s with
        sched := sched
        mc := { s.mc with state := .writtenTo }
        mem := writeBytes s.mem s.mc.buf bytes
        pc := Function.update (Function.update s.pc s.reader ((s.pc s.reader).receive bytes))
          s.sched.current (.writing src len done left)
        log := s.log ++ [.copied s.mc.buf bytes (s.pc s.reader).inProgress] }))

/-- A pass of `mutex_lock` in `mpipe_write`, and the first chunk when the mutex was
acquired. -/
def mpipeLock (src : ByteMem) (len : Nat) (s : MpipeState) : Option MpipeState :=
  (s.mc.mutex.lockPass s.sched).bind (fun (mutex, sched, got) =>
    let s' := { s with sched := sched, mc := { s.mc with mutex := mutex } }
    if got then s'.mpipeChunk src len 0 len
    else some { s' with pc := Function.update s.pc s.sched.current (.locking src len) })

/-- `mpipe_write`, to its first yield. -/
def mpipeWrite (src : ByteMem) (len : Nat) (s : MpipeState) : Option MpipeState :=
  mpipeLock src len { s with log := s.log ++ [.wrote (readBytes src 0 len)] }

/-- `mpipe_write`, from a yield of the inner loop to the next yield or the end. -/
def mpipeWriteGo (src : ByteMem) (len done left : Nat) (s : MpipeState) : Option MpipeState :=
  if s.mc.state ≠ .readFrom then s.sched.sched0Yield.map (fun sched => { s with sched := sched })
  else if done < len then s.mpipeChunk src len done left
  else
    (s.mc.mutex.unlock s.sched).map (fun (mutex, sched) =>
      { s with
        sched := sched
        mc := { s.mc with mutex := mutex }
        pc := Function.update s.pc s.sched.current .user })

end MpipeState

/-! ## Runs -/

/-- What the current thread does: it calls one of the two functions, goes on in it
after a yield, or does something that is not about the pipe. -/
inductive MpipeCall where
  | read (buf len : Nat)
  | write (src : ByteMem) (len : Nat)
  | go
  | yield
  | block (q : Nat)
  | wake (q : Nat)

namespace MpipeState

/-- What a thread does that is not about the pipe. -/
def other (s : MpipeState) : MpipeCall → Option SchedState
  | .yield => s.sched.sched0Yield
  | .block q =>
    if q = s.mc.tq ∨ q = s.mc.mutex.sleepers then none
    else (s.sched.sched0Dequeue (.wait q)).bind SchedState.sched0Yield
  | .wake q =>
    if q = s.mc.tq ∨ q = s.mc.mutex.sleepers then none
    else (s.sched.sched0Enqueue (.wait q)).map Prod.fst
  | _ => none

/-- One step.  A thread that is in one of the two functions only goes on in it, and
no other code uses the queues of the pipe. -/
def call (s : MpipeState) (c : MpipeCall) : Option MpipeState :=
  match s.pc s.sched.current, c with
  | .user, .read buf len =>
    if s.sched.current = s.reader ∧ len < WORD_RANGE then s.mpipeRead buf len else none
  | .user, .write src len =>
    if s.sched.current = s.writer ∧ len < WORD_RANGE then s.mpipeWrite src len else none
  | .user, c => (s.other c).map (fun sched => { s with sched := sched })
  | .reading buf _ got, .go => some (s.mpipeReadEnd buf got)
  | .locking src len, .go => s.mpipeLock src len
  | .writing src len done left, .go => s.mpipeWriteGo src len done left
  | _, _ => none

end MpipeState

/-! ## The stream -/

/-- The bytes that `mpipe_write` was called with, in order. -/
def written (log : List MpipeEvent) : List UInt8 :=
  log.flatMap (fun
    | .wrote bytes => bytes
    | _ => [])

/-- The bytes that the reads that have returned were given, in order. -/
def delivered (log : List MpipeEvent) : List UInt8 :=
  log.flatMap (fun
    | .returned _ got _ => got
    | _ => [])

/-- What an event may be: bytes are copied only into the buffer of a read that is
in progress, and a read returns the number of bytes it was given, and sees them in
its buffer. -/
def MpipeEvent.Ok (pgtable : Nat → Option Nat) : MpipeEvent → Prop
  | .wrote _ => True
  | .copied addr bytes into =>
    bytes = [] ∨ ∃ buf len, into = some (buf, len) ∧
      ∀ i < bytes.length, ∃ j < len, translate pgtable (buf + j) = some (addr + i)
  | .returned value got seen => value = got.length ∧ seen = some got

/-- The integrity of the stream.  What the reads were given is a prefix of what
was written. -/
structure StreamOk (pgtable : Nat → Option Nat) (log : List MpipeEvent) : Prop where
  events : ∀ e ∈ log, e.Ok pgtable
  order : delivered log <+: written log

namespace MpipeState

/-- A writer with `left` bytes to go finds a reader asleep that asks for no more
than that; or it finds none, and copies nothing. -/
def Meet (s : MpipeState) (left : Nat) : Prop :=
  if s.sched.krunqHead s.reader = some s.mc.queue then s.mc.len ≤ left
  else s.mc.len = 0 ∨ left = 0

instance (s : MpipeState) (left : Nat) : Decidable (s.Meet left) :=
  inferInstanceAs (Decidable (if s.sched.krunqHead s.reader = some s.mc.queue then s.mc.len ≤ left
    else s.mc.len = 0 ∨ left = 0))

/-- Going on from a yield: a writer that is about to copy meets a reader. -/
def KeepsGo (s : MpipeState) : MpipePc → Prop
  | .locking _ len => s.Meet len
  | .writing _ len done left => s.mc.state = .readFrom → done < len → s.Meet left
  | _ => True

/-- A step that keeps the stream whole: the buffer of a read lies in one piece in
physical memory, and a writer that is about to copy meets a reader. -/
def Keeps (s : MpipeState) : MpipeCall → Prop
  | .read buf len =>
    ∀ i < len, translate s.pgtable (buf + i) = some (rawVirt2phys s.pgtable buf + i)
  | .write _ len => s.Meet len
  | .go => s.KeepsGo (s.pc s.sched.current)
  | _ => True

instance (s : MpipeState) : ∀ pc, Decidable (s.KeepsGo pc)
  | .locking _ len => inferInstanceAs (Decidable (s.Meet len))
  | .writing _ len done left =>
    inferInstanceAs (Decidable (s.mc.state = .readFrom → done < len → s.Meet left))
  | .user => isTrue trivial
  | .reading _ _ _ => isTrue trivial

instance (s : MpipeState) : ∀ c, Decidable (s.Keeps c)
  | .read buf len => inferInstanceAs (Decidable
      (∀ i < len, translate s.pgtable (buf + i) = some (rawVirt2phys s.pgtable buf + i)))
  | .write _ len => inferInstanceAs (Decidable (s.Meet len))
  | .go => inferInstanceAs (Decidable (s.KeepsGo (s.pc s.sched.current)))
  | .yield => isTrue trivial
  | .block _ => isTrue trivial
  | .wake _ => isTrue trivial

end MpipeState

end Koowaldah
