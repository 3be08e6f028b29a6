import Koowaldah.Klist0
import Koowaldah.Lib.Run

/-!
# Thread queues and the scheduler

A model of the thread queues of `include/thread.h` and
`kernel/thread_queue.c`, and of `kernel/sched0.c`.  A queue is a `klist0`
ring with a spinlock.  A thread is linked through its `krunq` node, and its
`krunq_head` points back to the queue it is in.

The model is at the level of the pointers: the nodes of all the queues and
threads are one set of links, and every operation does the pointer writes of
the source.  `none` is a `bug_on` that fires.  The spinlocks are those of a
kernel with `OPT_DEBUG_SPINLOCKS`, which count; without that option
`spin_trylock` answers 1 and the `bug_on` of `__tq_insert_head` always fires.
-/

namespace Koowaldah

open SysLib

def SCHED_MAX_QUANTUM : Nat := 100

/-- A `struct thread_queue`: the run queue of `sched0`, or another one. -/
inductive Queue where
  | rq
  | wait (id : Nat)
deriving DecidableEq, Repr

/-- A list node: the `krunq` of a thread, or the head of a queue. -/
inductive TNode where
  | thread (t : Nat)
  | queue (q : Queue)
deriving DecidableEq, Repr

structure SchedState where
  links : Links TNode
  krunqHead : Nat → Option Queue
  lock : Queue → Nat
  quantum : Nat → Nat
  lastTick : Nat → Nat
  jiffies : Nat
  current : Nat
  needReschedule : Bool
  nextThread : Nat

namespace SchedState

/-! ## Spinlocks -/

def spinLock (q : Queue) (s : SchedState) : Option SchedState :=
  if s.lock q ≠ 0 then none
  else some { s with lock := Function.update s.lock q (s.lock q + 1) }

def spinUnlock (q : Queue) (s : SchedState) : Option SchedState :=
  if s.lock q ≠ 1 then none
  else some { s with lock := Function.update s.lock q (s.lock q - 1) }

def spinTrylock (q : Queue) (s : SchedState) : Option (SchedState × Bool) :=
  if s.lock q ≠ 0 ∧ s.lock q ≠ 1 then none
  else if s.lock q ≠ 0 then some (s, false)
  else some ({ s with lock := Function.update s.lock q (s.lock q + 1) }, true)

/-! ## Operations under the lock -/

def tqInit (q : Queue) (s : SchedState) : SchedState :=
  { s with
    links := klist0Init (.queue q) s.links
    lock := Function.update s.lock q 0 }

/-- The body of `__tq_insert_head` and `__tq_insert_tail`: `link` puts the node
into the list. -/
def rawTqInsert (link : TNode → TNode → Links TNode → Links TNode) (t : Nat) (q : Queue)
    (s : SchedState) : Option SchedState :=
  if klist0Empty (.thread t) s.links = false then none
  else
    (s.spinTrylock q).bind (fun (s, got) =>
      if got then none
      else some { s with
        links := link (.thread t) (.queue q) s.links
        krunqHead := Function.update s.krunqHead t (some q) })

/-- `__tq_insert_head`. -/
def rawTqInsertHead : Nat → Queue → SchedState → Option SchedState := rawTqInsert klist0Append

/-- `__tq_insert_tail`. -/
def rawTqInsertTail : Nat → Queue → SchedState → Option SchedState := rawTqInsert klist0Prepend

/-- `__tq_remove_thread`. -/
def rawTqRemoveThread (t : Nat) (s : SchedState) : Option SchedState :=
  if s.krunqHead t = none then none
  else if klist0Empty (.thread t) s.links then none
  else some { s with
    links := klist0Unlink (.thread t) s.links
    krunqHead := Function.update s.krunqHead t none }

/-- The body of `__tq_remove_head` and `__tq_remove_tail`: `pick` is the end of
the list that is looked at. -/
def rawTqRemove (pick : Links TNode → TNode → TNode) (q : Queue) (s : SchedState) :
    Option (SchedState × Option Nat) :=
  if klist0Empty (.queue q) s.links then some (s, none)
  else
    match pick s.links (.queue q) with
    | .thread t => (s.rawTqRemoveThread t).map (fun s => (s, some t))
    | .queue _ => none

/-- `__tq_remove_head`. -/
def rawTqRemoveHead : Queue → SchedState → Option (SchedState × Option Nat) :=
  rawTqRemove Links.next

/-- `__tq_remove_tail`. -/
def rawTqRemoveTail : Queue → SchedState → Option (SchedState × Option Nat) :=
  rawTqRemove Links.prev

/-! ## Operations that take the lock -/

/-- An insertion between `spin_lock` and `spin_unlock`. -/
def lockedInsert (insert : Nat → Queue → SchedState → Option SchedState) (t : Nat) (q : Queue)
    (s : SchedState) : Option SchedState :=
  ((s.spinLock q).bind (insert t q)).bind (spinUnlock q)

/-- A removal between `spin_lock` and `spin_unlock`. -/
def lockedRemove (remove : Queue → SchedState → Option (SchedState × Option Nat)) (q : Queue)
    (s : SchedState) : Option (SchedState × Option Nat) :=
  ((s.spinLock q).bind (remove q)).bind (fun (s, t) =>
    (s.spinUnlock q).map (fun s => (s, t)))

def tqInsertHead : Nat → Queue → SchedState → Option SchedState := lockedInsert rawTqInsertHead

def tqInsertTail : Nat → Queue → SchedState → Option SchedState := lockedInsert rawTqInsertTail

def tqRemoveHead : Queue → SchedState → Option (SchedState × Option Nat) :=
  lockedRemove rawTqRemoveHead

def tqRemoveTail : Queue → SchedState → Option (SchedState × Option Nat) :=
  lockedRemove rawTqRemoveTail

/-- The body of the four `tq_transfer` functions: whether a thread was moved. -/
def tqTransfer (remove : Queue → SchedState → Option (SchedState × Option Nat))
    (insert : Nat → Queue → SchedState → Option SchedState) (fromQ toQ : Queue)
    (s : SchedState) : Option (SchedState × Bool) :=
  (lockedRemove remove fromQ s).bind (fun (s, t) =>
    match t with
    | none => some (s, false)
    | some t => (lockedInsert insert t toQ s).map (fun s => (s, true)))

def tqTransferHeadToHead : Queue → Queue → SchedState → Option (SchedState × Bool) :=
  tqTransfer rawTqRemoveHead rawTqInsertHead

def tqTransferHeadToTail : Queue → Queue → SchedState → Option (SchedState × Bool) :=
  tqTransfer rawTqRemoveHead rawTqInsertTail

def tqTransferTailToHead : Queue → Queue → SchedState → Option (SchedState × Bool) :=
  tqTransfer rawTqRemoveTail rawTqInsertHead

def tqTransferTailToTail : Queue → Queue → SchedState → Option (SchedState × Bool) :=
  tqTransfer rawTqRemoveTail rawTqInsertTail

/-! ## The scheduler -/

def setQuantum (t : Nat) (s : SchedState) : SchedState :=
  { s with quantum := Function.update s.quantum t SCHED_MAX_QUANTUM }

/-- Note the time a thread was last on the processor. -/
def setLastTick (t : Nat) (s : SchedState) : SchedState :=
  { s with lastTick := Function.update s.lastTick t s.jiffies }

/-- `sched0_enqueue`: whether a thread was moved to the run queue. -/
def sched0Enqueue (fromQ : Queue) (s : SchedState) : Option (SchedState × Bool) :=
  (lockedRemove rawTqRemoveHead fromQ s).bind (fun (s, t) =>
    match t with
    | none => some (s, false)
    | some t =>
      (lockedInsert rawTqInsertHead t .rq (s.setQuantum t)).map (fun s => (s, true)))

/-- Take the next thread from the head of the run queue and put it back at the
tail, under the lock.  `none` too when there is no thread, which is
`bug_on (!next)`. -/
def rotate (s : SchedState) : Option (SchedState × Nat) :=
  (s.rawTqRemoveHead .rq).bind (fun (s, next) =>
    next.bind (fun next => (s.rawTqInsertTail next .rq).map (fun s => (s, next))))

/-- `sched0_dequeue`: move the current thread to the tail of a queue. -/
def sched0Dequeue (toQ : Queue) (s : SchedState) : Option SchedState :=
  let current := s.current
  if s.krunqHead current ≠ some .rq then none
  else
    (s.spinLock .rq).bind (fun s =>
      (s.rawTqRemoveThread current).bind (fun s =>
        s.rotate.bind (fun (s, _) =>
          (s.spinUnlock .rq).bind (fun s =>
            lockedInsert rawTqInsertTail current toQ
              ((s.setQuantum current).setLastTick current)))))

/-- The quantum of a thread after the `u32` decrement of a tick. -/
def decQuantum (t : Nat) (s : SchedState) : Nat := (s.quantum t + (2 ^ 32 - 1)) % 2 ^ 32

def sched0Tick (s : SchedState) : Option SchedState :=
  let prev := s.current
  if klist0Empty (.queue .rq) s.links then none
  else
    let q := s.decQuantum prev
    let s := { s with quantum := Function.update s.quantum prev q }
    if q = 0 then
      ((s.setQuantum prev).spinLock .rq).bind (fun s =>
        s.rotate.bind (fun (s, next) =>
          (s.spinUnlock .rq).map (fun s =>
            let s :=
              if prev ≠ next then { s with needReschedule := true, nextThread := next } else s
            s.setLastTick prev)))
    else some (s.setLastTick prev)

/-- `sched0_yield`, with the switch to the next thread. -/
def sched0Yield (s : SchedState) : Option SchedState :=
  let prev := s.current
  (((s.setQuantum prev).setLastTick prev).spinLock .rq).bind (fun s =>
    s.rotate.bind (fun (s, next) =>
      (s.spinUnlock .rq).map (fun s => { s with current := next })))

/-- The end of an interrupt: the switch that a tick has asked for. -/
def irqReturn (s : SchedState) : SchedState :=
  if s.needReschedule then { s with needReschedule := false, current := s.nextThread } else s

end SchedState

/-! ## Runs -/

/-- A call, the end of an interrupt, or the clock going on. -/
inductive SchedCall where
  | insertHead (t : Nat) (q : Queue)
  | insertTail (t : Nat) (q : Queue)
  | removeHead (q : Queue)
  | removeTail (q : Queue)
  | transferHeadToHead (fromQ toQ : Queue)
  | transferHeadToTail (fromQ toQ : Queue)
  | transferTailToHead (fromQ toQ : Queue)
  | transferTailToTail (fromQ toQ : Queue)
  | enqueue (fromQ : Queue)
  | dequeue (toQ : Queue)
  | tick
  | yield
  | irqReturn
  | clock
deriving DecidableEq, Repr

/-- One call; `none` when a `bug_on` fires. -/
def SchedState.call (s : SchedState) : SchedCall → Option SchedState
  | .insertHead t q => s.tqInsertHead t q
  | .insertTail t q => s.tqInsertTail t q
  | .removeHead q => (s.tqRemoveHead q).map Prod.fst
  | .removeTail q => (s.tqRemoveTail q).map Prod.fst
  | .transferHeadToHead f t => (s.tqTransferHeadToHead f t).map Prod.fst
  | .transferHeadToTail f t => (s.tqTransferHeadToTail f t).map Prod.fst
  | .transferTailToHead f t => (s.tqTransferTailToHead f t).map Prod.fst
  | .transferTailToTail f t => (s.tqTransferTailToTail f t).map Prod.fst
  | .enqueue f => (s.sched0Enqueue f).map Prod.fst
  | .dequeue t => s.sched0Dequeue t
  | .tick => s.sched0Tick
  | .yield => s.sched0Yield
  | .irqReturn => some s.irqReturn
  | .clock => some { s with jiffies := s.jiffies + 1 }

/-- The calls that move threads between queues, or not at all. -/
def SchedCall.isMove : SchedCall → Bool
  | .insertHead _ _ | .insertTail _ _ | .removeHead _ | .removeTail _ => false
  | _ => true

/-- The start: the queues initialised and no thread in any of them. -/
def schedStart (current : Nat) (quantum lastTick : Nat → Nat) (jiffies : Nat) : SchedState where
  links := ⟨id, id⟩
  krunqHead := fun _ => none
  lock := fun _ => 0
  quantum := quantum
  lastTick := lastTick
  jiffies := jiffies
  current := current
  needReschedule := false
  nextThread := 0

end Koowaldah
