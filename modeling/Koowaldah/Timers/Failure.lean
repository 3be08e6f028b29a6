import Koowaldah.Timers.Runs

/-!
# `tsleep` without memory

`tsleep` returns `-ENOMEM` when `slice_alloc` has no slice for a new interval.
Both of the places where that happens return without `spin_unlock_irqrestore`.
The first one, in the middle of the list, comes after `delay` has been taken off
the interval that the new one would have gone before.

So no call that fails leaves the timers as they were (`tsleep_enomem_held`).
-/

namespace Koowaldah

open SysLib

/-- The timers are as before a call: the intervals with their ticks, `future_lock`
released, and the interrupt flag. -/
structure TimerState.AsBefore (s s' : TimerState) : Prop where
  future : s'.future = s.future
  futureLock : s'.futureLock = 0
  irqOn : s'.irqOn = s.irqOn

section Failure

variable {s s' : TimerState} {delay : Nat} {slice : Option Nat}

/-- Without a slice, the list is left alone only by a delay of no ticks, which
takes nothing off the first interval, and by one that goes past the last. -/
theorem place_noMem_future {l : List Interval} (hplace : (place none delay l).2 = .noMem) :
    (place none delay l).1 = l ↔ delay = 0 ∨ futureTicks l < delay := by
  induction l generalizing delay with
  | nil =>
    show [] = [] ↔ delay = 0 ∨ 0 < delay
    simp only [true_iff]
    omega
  | cons interval rest ih =>
    have hticks : futureTicks (interval :: rest) = interval.ticksLeft + futureTicks rest := by
      simp [futureTicks]
    rw [hticks]
    by_cases hlt : delay < interval.ticksLeft
    · have hsplit : (place none delay (interval :: rest)).1 =
          { interval with ticksLeft := interval.ticksLeft - delay } :: rest := by
        simp [place, hlt]
      rw [hsplit]
      obtain ⟨addr, ticks⟩ := interval
      simp only [List.cons.injEq, Interval.mk.injEq, true_and, and_true] at hlt ⊢
      omega
    · by_cases heq : delay = interval.ticksLeft
      · simp [place, heq] at hplace
      · have hpast : place none delay (interval :: rest) =
            (interval :: (place none (delay - interval.ticksLeft) rest).1,
              (place none (delay - interval.ticksLeft) rest).2) := by
          simp [place, hlt, heq]
        rw [hpast] at hplace ⊢
        rw [List.cons.injEq, ih hplace]
        simp only [true_and]
        omega

theorem tsleep_failed {v : Int} (hcall : s.tsleep delay slice = some (s', some v)) :
    slice = none ∧ s.futureLock = 0 ∧ (place none delay s.future).2 = .noMem ∧
      s' = { s with
        future := (place none delay s.future).1
        futureLock := 1
        irqOn := false } := by
  unfold TimerState.tsleep at hcall
  split at hcall
  · cases hcall
  · rename_i hlock
    split at hcall
    · rename_i future hplace
      have hslice : slice = none := by
        by_contra hne
        exact place_ne_noMem hne (congrArg Prod.snd hplace)
      subst hslice
      have hs' := (Prod.mk.inj (Option.some.inj hcall)).1
      rw [hplace]
      exact ⟨rfl, not_not.mp hlock, rfl, hs'.symm⟩
    · split at hcall
      · cases hcall
      · obtain ⟨s₁, -, h⟩ := Option.map_eq_some_iff.mp hcall
        simp at h
    · obtain ⟨s₁, -, h⟩ := Option.map_eq_some_iff.mp hcall
      simp at h

/-- No step releases a lock that is held: `tsleep` and `update_timers` would
wait for it. -/
theorem futureLock_held {c : TimerCall} (hheld : s.futureLock = 1) (hcall : s.call c = some s') :
    s'.futureLock = 1 := by
  cases c with
  | sleep delay slice => simp [TimerState.call, TimerState.tsleep, hheld] at hcall
  | yield =>
    obtain ⟨sched, -, rfl⟩ := Option.map_eq_some_iff.mp hcall
    exact hheld
  | timerIrq => simp [TimerState.call, TimerState.timerInterrupt, TimerState.updateTimers, hheld]
      at hcall
  | irq =>
    obtain ⟨-, hcall⟩ := Option.ite_none_right_eq_some.mp hcall
    obtain ⟨sched, -, rfl⟩ := Option.map_eq_some_iff.mp hcall
    exact hheld

theorem futureLock_held_run {acts : List TimerCall} (hheld : s.futureLock = 1)
    (hrun : run TimerState.call s acts = some s') : s'.futureLock = 1 :=
  run_invariant (fun s => s.futureLock = 1) (fun _ _ _ => futureLock_held) hheld hrun

/-- No call of `tsleep` that returns `-ENOMEM` leaves the timers as they were.
`future_lock` is held, in every state after the call as well, and the interrupts
are off; and the intervals are changed too unless the delay is 0 or more than
all of their ticks. -/
theorem tsleep_enomem_held (hcall : s.tsleep delay slice = some (s', some (-ENOMEM))) :
    ¬s.AsBefore s' ∧ s'.irqOn = false ∧
      (s'.future = s.future ↔ delay = 0 ∨ futureTicks s.future < delay) ∧
      ∀ acts s'', run TimerState.call s' acts = some s'' → s''.futureLock = 1 := by
  obtain ⟨-, -, hplace, rfl⟩ := tsleep_failed hcall
  refine ⟨?_, rfl, place_noMem_future hplace, ?_⟩
  · intro hbefore
    exact absurd hbefore.futureLock Nat.one_ne_zero
  · intro acts s'' hrun
    exact futureLock_held_run rfl hrun

end Failure

theorem tsleep_enomem_held_empty : ∃ sched s', sched.Ready 4 ∧
      (timersInit sched 4).tsleep 3 none = some (s', some (-ENOMEM)) ∧ s'.future = [] ∧
      ¬(timersInit sched 4).AsBefore s' := by
  obtain ⟨sched, hsched⟩ : ∃ sched, bootSched = some sched := by
    rw [← Option.isSome_iff_exists]
    decide +kernel
  have hcall : (timersInit sched 4).tsleep 3 none =
      some ({ timersInit sched 4 with future := [], futureLock := 1, irqOn := false },
        some (-ENOMEM)) := rfl
  exact ⟨sched, _, bootSched_ready hsched, hcall, rfl, (tsleep_enomem_held hcall).1⟩

/-- Thread 1 sleeps for 5 ticks, and there is no memory for the interval of
thread 3, which asks for 2: 3 ticks are left of the first interval, the lock is
held and the interrupts are off. -/
theorem tsleep_enomem_shortens : ∃ sched s s', sched.Ready 4 ∧
      run TimerState.call (timersInit sched 4) [.sleep 5 (some 7), .yield] = some s ∧
      s.tsleep 2 none = some (s', some (-ENOMEM)) ∧ s.future = [⟨7, 5⟩] ∧ s.irqOn = true ∧
      s'.future = [⟨7, 3⟩] ∧ s'.futureLock = 1 ∧ s'.irqOn = false := by
  have hsome : (bootSched.bind (fun sched => (run TimerState.call (timersInit sched 4)
      [.sleep 5 (some 7), .yield]).bind (fun s => (s.tsleep 2 none).map (fun r =>
      (r.2, s.irqOn, s.future, r.1.future))))) =
      some (some (-ENOMEM), true, [⟨7, 5⟩], [⟨7, 3⟩]) := by
    decide +kernel
  obtain ⟨sched, hsched, hsome₁⟩ := Option.bind_eq_some_iff.mp hsome
  obtain ⟨s, hrun, hsome₂⟩ := Option.bind_eq_some_iff.mp hsome₁
  obtain ⟨⟨s', v⟩, hcall, hvals⟩ := Option.map_eq_some_iff.mp hsome₂
  simp only [Prod.mk.injEq] at hvals
  obtain ⟨rfl, hirq, hfuture, hfuture'⟩ := hvals
  obtain ⟨-, -, -, rfl⟩ := tsleep_failed hcall
  exact ⟨sched, s, _, bootSched_ready hsched, hrun, hcall, hfuture, hirq, hfuture', rfl, rfl⟩

end Koowaldah
