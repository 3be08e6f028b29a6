import Koowaldah.Arch
import Koowaldah.Lib.DeltaLog
import Koowaldah.Lib.Run
import Koowaldah.Sched.Basic

/-!
# Timers

A model of `kernel/timecore.c` on top of the model of the thread queues.  The
list `future` holds the intervals that threads sleep on, and an interval is
named by the slice that holds it.  Its `wake_list` is a thread queue of the
scheduler.

`tsleep` has two steps, since an interrupt may come between them: what it does
under `future_lock` with the interrupts off, and its `scheduler_yield`.  An
interrupt is one step: `timer_interrupt_handler` for the timer, then
`scheduler_tick`, and the switch of threads that it asks for.

`ticks_left` is a `u32`.  `delay` is one too, and no `ticks_left` grows after
it was set from a delay, so it does not wrap; the one value that the decrement
of `update_timers` takes below zero belongs to an interval that is freed.

`none` is a `bug_on` that fires, as in the model of the scheduler.  `log` is
there for the statements only: the calls of `tsleep` that put a thread to sleep,
and the ticks with the threads that `update_timers` passed to
`scheduler_enqueue`.
-/

namespace Koowaldah

open SysLib

/-- `struct time_interval`, and the slice it is in. -/
structure Interval where
  addr : Nat
  ticksLeft : Nat
deriving DecidableEq, Repr

/-- The `wake_list` of an interval. -/
def wakeList (interval : Nat) : Queue := .wait interval

/-- The timers and what they rest on.  `intervalPool` are the slices of
`interval_pool` that are handed out, `inTsleep` says which threads are in
`tsleep` and have not yielded yet, and the threads are those below
`threads`. -/
structure TimerState where
  sched : SchedState
  future : List Interval
  futureLock : Nat
  irqOn : Bool
  intervalPool : List Nat
  inTsleep : Nat → Bool
  threads : Nat
  log : List (DeltaQueue.Event Nat)

/-- `timers_init`, with the interrupts on after it. -/
def timersInit (sched : SchedState) (threads : Nat) : TimerState where
  sched := sched
  future := []
  futureLock := 0
  irqOn := true
  intervalPool := []
  inTsleep := fun _ => false
  threads := threads
  log := []

/-- Where the loop of `tsleep` ends: no memory for an interval, an interval that
was made, or one that was there. -/
inductive Place where
  | noMem
  | made (interval : Nat)
  | found (interval : Nat)
deriving DecidableEq, Repr

/-- The loop of `tsleep` and the lines after it: the list that is left and the
interval to sleep on.  `slice` is the answer of `slice_alloc`. -/
def place (slice : Option Nat) : Nat → List Interval → List Interval × Place
  | delay, [] =>
    match slice with
    | none => ([], .noMem)
    | some addr => ([⟨addr, delay⟩], .made addr)
  | delay, interval :: rest =>
    if delay < interval.ticksLeft then
      let interval := { interval with ticksLeft := interval.ticksLeft - delay }
      match slice with
      | none => (interval :: rest, .noMem)
      | some addr => (⟨addr, delay⟩ :: interval :: rest, .made addr)
    else if delay = interval.ticksLeft then (interval :: rest, .found interval.addr)
    else
      let (rest, place) := place slice (delay - interval.ticksLeft) rest
      (interval :: rest, place)

/-- `while (scheduler_enqueue (q));`, with the threads that were moved.  Each of
them is at the head of the run queue after its call. -/
def wakeAll (q : Queue) : Nat → SchedState → Option (SchedState × List Nat)
  | 0, _ => none
  | fuel + 1, s =>
    (s.sched0Enqueue q).bind (fun (s, moved) =>
      if moved then
        match s.links.next (.queue .rq) with
        | .thread t => (wakeAll q fuel s).map (fun (s, woken) => (s, t :: woken))
        | .queue _ => none
      else some (s, []))

namespace TimerState

/-- The current thread goes to sleep on an interval, and the lock is given
back. -/
def sleepOn (delay interval : Nat) (s : TimerState) : Option TimerState :=
  (s.sched.sched0Dequeue (wakeList interval)).map (fun sched =>
    { s with
      sched := sched
      inTsleep := Function.update s.inTsleep s.sched.current true
      log := s.log ++ [.slept s.sched.current delay] })

/-- `tsleep` up to its yield.  The value is what it returns when it returns
without a yield; then `future_lock` is held and the interrupts are off.
`slice` is no slice that is in use. -/
def tsleep (delay : Nat) (slice : Option Nat) (s : TimerState) :
    Option (TimerState × Option Int) :=
  if s.futureLock ≠ 0 then none
  else
    match place slice delay s.future with
    | (future, .noMem) =>
      some ({ s with future := future, futureLock := 1, irqOn := false }, some (-ENOMEM))
    | (future, .made addr) =>
      if addr ∈ s.intervalPool then none
      else
        (({ s with
          sched := s.sched.tqInit (wakeList addr)
          future := future
          intervalPool := addr :: s.intervalPool } : TimerState).sleepOn delay addr).map
          (fun s => (s, none))
    | (future, .found addr) =>
      (({ s with future := future } : TimerState).sleepOn delay addr).map (fun s => (s, none))

/-- `scheduler_yield`: the end of `tsleep`, or a yield for another reason. -/
def yield (s : TimerState) : Option TimerState :=
  s.sched.sched0Yield.map (fun sched =>
    { s with sched := sched, inTsleep := Function.update s.inTsleep s.sched.current false })

def ticked (woken : List Nat) (s : TimerState) : TimerState :=
  { s with log := s.log ++ [.ticked woken] }

def updateTimers (s : TimerState) : Option TimerState :=
  if s.futureLock ≠ 0 then none
  else
    match s.future with
    | [] => some (s.ticked [])
    | interval :: rest =>
      if interval.ticksLeft = 0 then
        (wakeAll (wakeList interval.addr) (s.threads + 1) s.sched).map (fun (sched, woken) =>
          ({ s with
            sched := sched
            future := rest
            intervalPool := s.intervalPool.erase interval.addr } : TimerState).ticked woken)
      else
        some (({ s with
          future := { interval with ticksLeft := interval.ticksLeft - 1 } :: rest } :
            TimerState).ticked [])

/-- The end of every interrupt: `scheduler_tick` and the switch it asks for. -/
def schedulerTick (s : TimerState) : Option TimerState :=
  s.sched.sched0Tick.map (fun sched => { s with sched := sched.irqReturn })

def timerInterrupt (s : TimerState) : Option TimerState :=
  (({ s with sched := { s.sched with jiffies := s.sched.jiffies + 1 } } :
    TimerState).updateTimers).bind schedulerTick

end TimerState

/-! ## Runs -/

inductive TimerCall where
  | sleep (delay : Nat) (slice : Option Nat)
  | yield
  | timerIrq
  | irq
deriving DecidableEq, Repr

/-- One step.  A thread that is in `tsleep` has to yield first, and an interrupt
comes only when interrupts are on. -/
def TimerState.call (s : TimerState) : TimerCall → Option TimerState
  | .sleep delay slice =>
    if s.inTsleep s.sched.current then none else (s.tsleep delay slice).map Prod.fst
  | .yield => s.yield
  | .timerIrq => if s.irqOn then s.timerInterrupt else none
  | .irq => if s.irqOn then s.schedulerTick else none

end Koowaldah
