import Koowaldah.Timers.Runs

/-!
# The ticks at which intervals are due

An interval is due when its own ticks and those of the intervals before it have passed
(`dueFrom`).  The loop of `tsleep` takes these ticks off the delay one by one, and corrects the
next interval when it makes one in front of it.  So all intervals stay due when they were, and
the one that is slept on is due after the delay (`tsleep_due`).
-/

namespace Koowaldah

open SysLib

/-- The intervals with the ticks at which they are due, `t` ticks having passed before. -/
def dueFrom (t : Nat) : List Interval → List (Nat × Nat)
  | [] => []
  | i :: l => (i.addr, t + i.ticksLeft) :: dueFrom (t + i.ticksLeft) l

section Due

variable {t delay a : Nat} {slice : Option Nat} {future future' l : List Interval} {i : Interval}

theorem first_le_of_mem_dueFrom : ∀ p ∈ dueFrom t (i :: l), t + i.ticksLeft ≤ p.2 := by
  induction l generalizing t i with
  | nil => simp [dueFrom]
  | cons j l ih =>
    rw [dueFrom, List.forall_mem_cons]
    refine ⟨Nat.le_refl _, fun p hp => ?_⟩
    exact Nat.le_trans (Nat.le_add_right _ _) (ih p hp)

theorem mem_dueFrom_le : ∀ p ∈ dueFrom t l, p.2 ≤ t + futureTicks l := by
  induction l generalizing t with
  | nil => exact nofun
  | cons i l ih =>
    have hsum : futureTicks (i :: l) = i.ticksLeft + futureTicks l := rfl
    rw [dueFrom, List.forall_mem_cons]
    refine ⟨by omega, fun p hp => ?_⟩
    have := ih p hp
    omega

theorem dueFrom_pairwise (hpos : ∀ i ∈ l.tail, 1 ≤ i.ticksLeft) :
    (dueFrom t l).Pairwise (fun p q => p.2 < q.2) := by
  induction l generalizing t with
  | nil => exact List.Pairwise.nil
  | cons i l ih =>
    refine List.pairwise_cons.mpr ⟨?_, ih (fun j hj => hpos j (List.mem_of_mem_tail hj))⟩
    cases l with
    | nil => exact nofun
    | cons j l =>
      intro p hp
      exact Nat.lt_of_lt_of_le (Nat.lt_add_of_pos_right (hpos j List.mem_cons_self))
        (first_le_of_mem_dueFrom p hp)

theorem place_made_due (hplace : place slice delay future = (future', .made a)) (t : Nat) :
    ∃ l₁ l₂, dueFrom t future = l₁ ++ l₂ ∧ dueFrom t future' = l₁ ++ (a, t + delay) :: l₂ ∧
      (∀ p ∈ l₁, p.2 < t + delay) ∧ ∀ p ∈ l₂, t + delay < p.2 := by
  fun_induction place slice delay future generalizing future' t with
  | case1 | case3 | case5 => cases hplace
  | case2 delay addr =>
    cases hplace
    exact ⟨[], [], rfl, rfl, List.forall_mem_nil _, List.forall_mem_nil _⟩
  | case4 delay interval rest hlt interval' addr =>
    cases hplace
    have hsum : t + delay + (interval.ticksLeft - delay) = t + interval.ticksLeft := by omega
    refine ⟨[], dueFrom t (interval :: rest), rfl, ?_, List.forall_mem_nil _, fun p hp => ?_⟩
    · show (a, t + delay) :: (interval.addr, t + delay + (interval.ticksLeft - delay)) ::
        dueFrom (t + delay + (interval.ticksLeft - delay)) rest = _
      rw [hsum]
      rfl
    · exact Nat.lt_of_lt_of_le (Nat.add_lt_add_left hlt t) (first_le_of_mem_dueFrom p hp)
  | case6 delay interval rest hlt heq rest' place' hrest ih =>
    cases hplace
    obtain ⟨l₁, l₂, hold, hnew, hbefore, hafter⟩ := ih hrest (t + interval.ticksLeft)
    rw [show t + interval.ticksLeft + (delay - interval.ticksLeft) = t + delay by omega]
      at hnew hbefore hafter
    refine ⟨(interval.addr, t + interval.ticksLeft) :: l₁, l₂, ?_, ?_, ?_, hafter⟩
    · rw [dueFrom, hold, List.cons_append]
    · rw [dueFrom, hnew, List.cons_append]
    · exact List.forall_mem_cons.mpr ⟨by dsimp only; omega, hbefore⟩

theorem place_found_due (hplace : place slice delay future = (future', .found a)) (t : Nat) :
    future' = future ∧ (a, t + delay) ∈ dueFrom t future := by
  fun_induction place slice delay future generalizing future' t with
  | case1 | case2 | case3 | case4 => cases hplace
  | case5 interval rest hlt =>
    cases hplace
    exact ⟨rfl, List.mem_cons_self⟩
  | case6 delay interval rest hlt heq rest' place' hrest ih =>
    cases hplace
    obtain ⟨rfl, hmem⟩ := ih hrest (t + interval.ticksLeft)
    rw [show t + interval.ticksLeft + (delay - interval.ticksLeft) = t + delay by omega] at hmem
    exact ⟨rfl, List.mem_cons_of_mem _ hmem⟩

end Due

/-- How a successful `tsleep` ends: the caller goes to the wake list of an interval, one that was
made or one that was there. -/
theorem tsleep_place {s s' : TimerState} {delay : Nat} {slice : Option Nat}
    (hcall : s.tsleep delay slice = some (s', none)) : s'.future = (place slice delay s.future).1 ∧
      ∃ (a : Nat) (sched : SchedState), sched.current = s.sched.current ∧
        sched.sched0Dequeue (wakeList a) = some s'.sched ∧
        ((place slice delay s.future).2 = .made a ∨ (place slice delay s.future).2 = .found a) := by
  unfold TimerState.tsleep at hcall
  split at hcall
  · cases hcall
  · rcases hplace : place slice delay s.future with ⟨future, p⟩
    rw [hplace] at hcall
    cases p with
    | noMem => cases hcall
    | made a =>
      obtain ⟨-, hcall⟩ := Option.ite_none_left_eq_some.mp hcall
      obtain ⟨s₁, hsleep, heq⟩ := Option.map_eq_some_iff.mp hcall
      cases heq
      obtain ⟨sched, hdeq, rfl⟩ := Option.map_eq_some_iff.mp hsleep
      exact ⟨rfl, a, s.sched.tqInit (wakeList a), rfl, hdeq, .inl rfl⟩
    | found a =>
      obtain ⟨s₁, hsleep, heq⟩ := Option.map_eq_some_iff.mp hcall
      cases heq
      obtain ⟨sched, hdeq, rfl⟩ := Option.map_eq_some_iff.mp hsleep
      exact ⟨rfl, a, _, rfl, hdeq, .inr rfl⟩

/-- A successful `tsleep` puts the caller on an interval that is due after the delay.  The
intervals that were there are due when they were, in the order in which they were, and there is
at most one more. -/
theorem tsleep_due {s s' : TimerState} {delay : Nat} {slice : Option Nat}
    (hpos : ∀ i ∈ s.future.tail, 1 ≤ i.ticksLeft) (htotal : futureTicks s.future < WORD_RANGE)
    (hdelay : delay < WORD_RANGE) (hcall : s.tsleep delay slice = some (s', none)) :
    (∃ (a : Nat) (sched : SchedState), sched.current = s.sched.current ∧
        sched.sched0Dequeue (wakeList a) = some s'.sched ∧ (a, delay) ∈ dueFrom 0 s'.future) ∧
      (dueFrom 0 s.future).Sublist (dueFrom 0 s'.future) ∧
      (dueFrom 0 s'.future).Pairwise (fun p q => p.2 < q.2) ∧
      (∀ p ∈ dueFrom 0 s'.future, p.2 < WORD_RANGE) ∧
      (dueFrom 0 s'.future).length ≤ (dueFrom 0 s.future).length + 1 := by
  obtain ⟨hfuture, a, sched, hcurrent, hdeq, hplace⟩ := tsleep_place hcall
  have hbound : ∀ p ∈ dueFrom 0 s.future, p.2 < WORD_RANGE := fun p hp =>
    Nat.lt_of_le_of_lt (mem_dueFrom_le p hp) (by omega)
  have hpair : (dueFrom 0 s.future).Pairwise (fun p q => p.2 < q.2) := dueFrom_pairwise hpos
  rcases hplace with hplace | hplace
  · obtain ⟨l₁, l₂, hold, hnew, hbefore, hafter⟩ :=
      place_made_due (Prod.ext hfuture.symm hplace : _ = (s'.future, Place.made a)) 0
    rw [Nat.zero_add] at hnew hbefore hafter
    rw [hold] at hbound hpair
    rw [hold, hnew]
    refine ⟨⟨a, sched, hcurrent, hdeq, by simp⟩, by simp, ?_, ?_, by simp; omega⟩
    · rw [List.pairwise_append] at hpair ⊢
      refine ⟨hpair.1, List.pairwise_cons.mpr ⟨hafter, hpair.2.1⟩, fun p hp => ?_⟩
      exact List.forall_mem_cons.mpr ⟨hbefore p hp, hpair.2.2 p hp⟩
    · rw [List.forall_mem_append] at hbound ⊢
      exact ⟨hbound.1, List.forall_mem_cons.mpr ⟨hdelay, hbound.2⟩⟩
  · obtain ⟨heq, hmem⟩ :=
      place_found_due (Prod.ext hfuture.symm hplace : _ = (s'.future, Place.found a)) 0
    rw [Nat.zero_add] at hmem
    rw [heq]
    exact ⟨⟨a, sched, hcurrent, hdeq, hmem⟩, List.Sublist.refl _, hpair, hbound,
      Nat.le_succ _⟩

/-- Thread 1 sleeps for 5 ticks and thread 3 for 2.  Thread 1 is still due after 5. -/
theorem tsleep_due_split :
    ∃ s s' : TimerState, s.tsleep 2 (some 8) = some (s', none) ∧ s.future = [⟨7, 5⟩] ∧
      [(7, 5)].Sublist (dueFrom 0 s'.future) := by
  have hsome : (bootSched.bind (fun sched => (run TimerState.call (timersInit sched 4)
      [.sleep 5 (some 7), .yield]).bind (fun s => (s.tsleep 2 (some 8)).map (fun r =>
      (r.2, s.future))))) = some (none, [⟨7, 5⟩]) := by
    decide +kernel
  obtain ⟨sched, -, hsome₁⟩ := Option.bind_eq_some_iff.mp hsome
  obtain ⟨s, -, hsome₂⟩ := Option.bind_eq_some_iff.mp hsome₁
  obtain ⟨⟨s', v⟩, hcall, hvals⟩ := Option.map_eq_some_iff.mp hsome₂
  simp only [Prod.mk.injEq] at hvals
  obtain ⟨rfl, hfuture⟩ := hvals
  have hdue := (tsleep_due (by simp [hfuture]) (by rw [hfuture]; decide) (by decide) hcall).2.1
  rw [hfuture] at hdue
  exact ⟨s, s', hcall, hfuture, hdue⟩

end Koowaldah
