import Koowaldah.Sched.Runs

/-!
# Threads that block and are woken

What `scheduler_dequeue`, `scheduler_yield` and `scheduler_enqueue` do to the
lists of threads, in the form that the code that blocks uses.  When a thread blocks
the processor does not go to the thread that is next in line (`dequeue_yield_skips`).
The `_lock` lemmas say that every call leaves the spinlocks as they were.
-/

namespace Koowaldah

open Function SysLib SysLib.Links

namespace Queues

variable {qs : Queues} {t : Nat}

theorem rotate_of_ne {q : Queue} (hq : q ≠ .rq) : qs.rotate q = qs q := by
  unfold rotate
  cases qs .rq with
  | nil => rfl
  | cons x rest =>
    show qs.set .rq _ q = qs q
    rw [set_apply, if_neg hq]

@[simp] theorem mem_rotate_rq : t ∈ qs.rotate .rq ↔ t ∈ qs .rq := by
  unfold rotate
  cases hrq : qs .rq with
  | nil =>
    show t ∈ qs .rq ↔ _
    rw [hrq]
  | cons x rest =>
    show t ∈ qs.set .rq _ .rq ↔ _
    rw [set_apply, if_pos rfl, List.mem_append, List.mem_singleton, List.mem_cons, or_comm]

end Queues

def SchedState.Unlocked (s : SchedState) : Prop := ∀ q, s.lock q = 0

theorem SchedState.Unlocked.of_lock_eq {s s' : SchedState} (h : s.Unlocked)
    (heq : s'.lock = s.lock) : s'.Unlocked := by
  intro q
  rw [heq]
  exact h q

theorem SchedState.Unlocked.tqInit {s : SchedState} (h : s.Unlocked) (q : Queue) :
    (s.tqInit q).Unlocked := by
  intro p
  show Function.update s.lock q 0 p = 0
  by_cases hp : p = q
  · rw [hp, update_self]
  · rw [update_of_ne hp]
    exact h p

section Lists

variable {s s' : SchedState} {qs : Queues}

/-- The current thread stays in the run queue, and the next one is switched
to. -/
theorem yield_spec (hinv : s.Repr qs) (hyield : s.sched0Yield = some s') :
    ∃ qs', s'.Repr qs' ∧ s'.lock = s.lock ∧ s'.current ∈ qs' .rq ∧
      (∀ p, p ≠ .rq → qs' p = qs p) ∧ ∀ t, t ∈ qs' .rq ↔ t ∈ qs .rq := by
  rcases sched0Yield_spec hinv hyield with ⟨hlock, hinv', rest, hnext⟩
  refine ⟨_, hinv', hlock, ?_, fun p hp => Queues.rotate_of_ne hp, fun t => Queues.mem_rotate_rq⟩
  rw [Queues.mem_rotate_rq, hnext]
  exact List.mem_cons_self

theorem dequeue_spec (hinv : s.Repr qs) {q : Queue} (hq : q ≠ .rq)
    (hdeq : s.sched0Dequeue q = some s') :
    ∃ qs', s'.Repr qs' ∧ s'.current = s.current ∧ s'.lock = s.lock ∧ s.current ∈ qs .rq ∧
      (∃ x ∈ qs .rq, x ≠ s.current) ∧ qs' q = qs q ++ [s.current] ∧
      (∀ p, p ≠ .rq → p ≠ q → qs' p = qs p) ∧
      ∀ t, t ∈ qs' .rq ↔ t ∈ qs .rq ∧ t ≠ s.current := by
  rcases sched0Dequeue_spec hinv hdeq false with ⟨hcur, hother, hsame, hlock, hinv'⟩
  refine ⟨_, hinv', hsame, hlock, hcur, hother, ?_, ?_, ?_⟩
  · unfold Queues.call
    dsimp only
    rw [Queues.set_apply, if_pos rfl, Queues.rotate_of_ne hq, Queues.set_apply, if_neg hq]
    rfl
  · intro p hrq hpq
    unfold Queues.call
    dsimp only
    rw [Queues.set_apply, if_neg hpq, Queues.rotate_of_ne hrq, Queues.set_apply, if_neg hrq]
  · intro t
    unfold Queues.call
    dsimp only
    rw [Queues.set_apply, if_neg hq.symm, Queues.mem_rotate_rq, Queues.set_apply, if_pos rfl,
      (hinv.nodup .rq).mem_erase_iff, and_comm]

theorem dequeue_yield_spec (hinv : s.Repr qs) {q : Queue} (hq : q ≠ .rq) {s₁ : SchedState}
    (hdeq : s.sched0Dequeue q = some s₁) (hyield : s₁.sched0Yield = some s') :
    ∃ qs', s'.Repr qs' ∧ s'.lock = s.lock ∧ s.current ∈ qs .rq ∧ s'.current ∈ qs' .rq ∧
      qs' q = qs q ++ [s.current] ∧ (∀ p, p ≠ .rq → p ≠ q → qs' p = qs p) ∧
      ∀ t, t ∈ qs' .rq ↔ t ∈ qs .rq ∧ t ≠ s.current := by
  rcases dequeue_spec hinv hq hdeq with ⟨qs₁, hinv₁, -, hlock₁, hcur, -, hq₁, hother₁, hrq₁⟩
  rcases yield_spec hinv₁ hyield with ⟨qs', hinv', hlock', hcur', hother', hrq'⟩
  refine ⟨qs', hinv', hlock'.trans hlock₁, hcur, hcur', ?_, ?_, ?_⟩
  · rw [hother' q hq, hq₁]
  · intro p hrq hpq
    rw [hother' p hrq, hother₁ p hrq hpq]
  · intro t
    rw [hrq', hrq₁]

end Lists

/-! ## Calls that do not stop -/

section Total

variable {s s' : SchedState} {qs : Queues} {q : Queue} {t : Nat}

theorem rawTqInsert_ok {link : TNode → TNode → Links TNode → Links TNode} (hinv : s.Repr qs)
    (hlock : s.lock q = 1) (ht : s.krunqHead t = none) :
    ∃ s', s.rawTqInsert link t q = some s' := by
  have hempty : klist0Empty (.thread t) s.links = true :=
    (klist0Empty_iff (hinv.alone t ht)).mpr rfl
  have htry : s.spinTrylock q = some (s, false) := by
    unfold SchedState.spinTrylock
    rw [if_neg (by omega), if_pos (by omega)]
  unfold SchedState.rawTqInsert
  rw [hempty, htry]
  exact ⟨_, rfl⟩

theorem spinUnlock_ok (hlock : s.lock q = 1) : ∃ s', s.spinUnlock q = some s' := by
  unfold SchedState.spinUnlock
  rw [if_neg (not_not.mpr hlock)]
  exact ⟨_, rfl⟩

theorem lockedInsert_ok {link : TNode → TNode → Links TNode → Links TNode}
    {put : Nat → List Nat → List Nat} (hput : Puts link put) (hinv : s.Repr qs)
    (hlock : s.lock q = 0) (ht : s.krunqHead t = none) :
    ∃ s', s.lockedInsert (SchedState.rawTqInsert link) t q = some s' := by
  have hl := spinLock_eq_some.mpr ⟨hlock, rfl⟩
  have hinv₁ : ({ s with lock := Function.update s.lock q 1 } : SchedState).Repr qs := hinv
  have ht₁ : ({ s with lock := Function.update s.lock q 1 } : SchedState).krunqHead t = none := ht
  have hl₁ : ({ s with lock := Function.update s.lock q 1 } : SchedState).lock q = 1 :=
    update_self ..
  rcases rawTqInsert_ok hinv₁ hl₁ ht₁ with ⟨s₂, hins⟩
  rcases rawTqInsert_spec hput hinv₁ hins with ⟨-, -, h, head, hs₂, -⟩
  have hl₂ : s₂.lock q = 1 := by
    rw [hs₂]
    exact hl₁
  unfold SchedState.lockedInsert
  rw [hl, Option.bind_some, hins]
  exact spinUnlock_ok hl₂

theorem rawTqRemove_ok {pick : Links TNode → TNode → TNode}
    {take : List Nat → Option (Nat × List Nat)} (htake : Takes pick take) (hinv : s.Repr qs) :
    ∃ r, s.rawTqRemove pick q = some r := by
  unfold SchedState.rawTqRemove
  by_cases hnil : qs q = []
  · have hempty : klist0Empty (.queue q) s.links = true := by
      rw [klist0Empty_iff (hinv.ring q), hnil, List.map_nil]
    rw [if_pos hempty]
    exact ⟨_, rfl⟩
  · have hempty : ¬klist0Empty (.queue q) s.links = true := by
      rw [klist0Empty_iff (hinv.ring q), List.map_eq_nil_iff]
      exact hnil
    rcases htake.2 hinv hnil with ⟨t, hpick, hmem, -⟩
    have hback : s.krunqHead t ≠ none := by
      rw [(hinv.back t q).mpr hmem]
      exact nofun
    rw [if_neg hempty, hpick]
    dsimp only
    unfold SchedState.rawTqRemoveThread
    rw [if_neg hback, if_neg (fun halone => hback (hinv.head_of_empty halone))]
    exact ⟨_, rfl⟩

theorem lockedRemove_ok {pick : Links TNode → TNode → TNode}
    {take : List Nat → Option (Nat × List Nat)} (htake : Takes pick take) (hinv : s.Repr qs)
    (hlock : s.lock q = 0) : ∃ r, s.lockedRemove (SchedState.rawTqRemove pick) q = some r := by
  have hl := spinLock_eq_some.mpr ⟨hlock, rfl⟩
  have hinv₁ : ({ s with lock := Function.update s.lock q 1 } : SchedState).Repr qs := hinv
  have hl₁ : ({ s with lock := Function.update s.lock q 1 } : SchedState).lock q = 1 :=
    update_self ..
  rcases rawTqRemove_ok htake hinv₁ with ⟨⟨s₂, r⟩, hrem⟩
  have hl₂ : s₂.lock q = 1 := by
    rcases rawTqRemove_spec htake hinv₁ hrem with ⟨-, -, rfl⟩ | ⟨t, rest, -, -, -, h, head, hs₂, -⟩
    · exact hl₁
    · rw [hs₂]
      exact hl₁
  rcases spinUnlock_ok hl₂ with ⟨s₃, hunlock⟩
  unfold SchedState.lockedRemove
  rw [hl, Option.bind_some, hrem, Option.bind_some]
  dsimp only
  rw [hunlock]
  exact ⟨_, rfl⟩

section

variable (hinv : s.Repr qs)

include hinv

theorem sched0Enqueue_nil (hlock : s.Unlocked) (hq : qs q = []) :
    s.sched0Enqueue q = some (s, false) := by
  rcases lockedRemove_ok takes_next hinv (hlock q) with ⟨⟨s₁, r⟩, hrem⟩
  unfold SchedState.sched0Enqueue SchedState.rawTqRemoveHead
  rw [hrem]
  rcases lockedRemove_spec takes_next hinv hrem with
    ⟨-, rfl, rfl⟩ | ⟨t, rest, htk, -⟩
  · rfl
  · rw [hq] at htk
    cases htk

theorem SchedState.Repr.not_mem_set_rest {rest : List Nat}
    (hq : qs q = t :: rest) (p : Queue) : t ∉ qs.set q rest p := by
  rw [Queues.set_apply]
  split
  · have hnodup := hinv.nodup q
    rw [hq] at hnodup
    exact (List.nodup_cons.mp hnodup).1
  · rename_i hne
    intro hmem
    apply hne
    apply hinv.queue_unique hmem
    rw [hq]
    exact List.mem_cons_self

theorem sched0Enqueue_cons (hlock : s.Unlocked) (hrq : q ≠ .rq)
    {rest : List Nat} (hq : qs q = t :: rest) :
    ∃ s', s.sched0Enqueue q = some (s', true) ∧ s'.current = s.current ∧ s'.Unlocked ∧
      s'.Repr ((qs.set q rest).set .rq (t :: qs .rq)) := by
  rcases lockedRemove_ok takes_next hinv (hlock q) with ⟨⟨s₁, r⟩, hrem⟩
  have hstep : ∃ s', s.sched0Enqueue q = some (s', true) := by
    unfold SchedState.sched0Enqueue SchedState.rawTqRemoveHead
    rw [hrem, Option.bind_some]
    rcases lockedRemove_spec takes_next hinv hrem with
      ⟨hnil, -, -⟩ | ⟨x, l, htk, rfl, hmem, h, head, rfl, hinv₁⟩
    · rw [hnil] at hq
      cases hq
    · rw [hq] at htk
      cases htk
      have hnone : head t = none := by
        cases hp : head t with
        | none => rfl
        | some p => exact absurd ((hinv₁.back t p).mp hp) (hinv.not_mem_set_rest hq p)
      have hinv₂ : ((s.relink h head).setQuantum t).Repr (qs.set q rest) := hinv₁
      rcases lockedInsert_ok puts_append hinv₂ (hlock .rq) hnone with ⟨s', hins⟩
      unfold SchedState.rawTqInsertHead
      dsimp only
      rw [hins]
      exact ⟨s', rfl⟩
  rcases hstep with ⟨s', hop⟩
  rcases sched0Enqueue_spec hinv hop with ⟨hcur, hl, hinv'⟩
  refine ⟨s', hop, hcur, ?_, ?_⟩
  · intro p
    rw [hl]
    exact hlock p
  · unfold Queues.move at hinv'
    rw [hq] at hinv'
    have hrest : qs.set q rest .rq = qs .rq := by
      rw [Queues.set_apply, if_neg hrq.symm]
    rw [← hrest]
    exact hinv'

theorem enqueue_spec (hlock : s.Unlocked) (hrq : q ≠ .rq) {moved : Bool}
    (hop : s.sched0Enqueue q = some (s', moved)) :
    ∃ qs', s'.Repr qs' ∧ s'.Unlocked ∧ s'.current = s.current ∧
      (∀ t ∈ qs .rq, t ∈ qs' .rq) ∧ qs' q = (qs q).tail ∧
      ∀ p, p ≠ .rq → p ≠ q → qs' p = qs p := by
  cases hq : qs q with
  | nil =>
    rw [sched0Enqueue_nil hinv hlock hq] at hop
    cases hop
    exact ⟨qs, hinv, hlock, rfl, fun t ht => ht, hq, fun p _ _ => rfl⟩
  | cons t rest =>
    rcases sched0Enqueue_cons hinv hlock hrq hq with ⟨s₁, hop₁, hcur₁, hlock₁, hinv₁⟩
    rw [hop₁] at hop
    cases hop
    refine ⟨_, hinv₁, hlock₁, hcur₁, ?_, ?_, ?_⟩
    · intro x hx
      exact List.mem_cons_of_mem t hx
    · rw [Queues.set_apply, if_neg hrq, Queues.set_apply, if_pos rfl]
      rfl
    · intro p hp hpq
      rw [Queues.set_apply, if_neg hp, Queues.set_apply, if_neg hpq]

theorem rotate_ok (hlock : s.lock .rq = 1) (hrq : qs .rq ≠ []) : ∃ r, s.rotate = some r := by
  rcases rawTqRemove_ok takes_next hinv with ⟨⟨s₁, r⟩, hrem⟩
  unfold SchedState.rotate SchedState.rawTqRemoveHead
  rw [hrem]
  rcases rawTqRemove_spec takes_next hinv hrem with
    ⟨hnil, -, -⟩ | ⟨x, l, htk, rfl, -, h, head, rfl, hinv₁⟩
  · exact absurd hnil hrq
  · rcases List.exists_cons_of_ne_nil hrq with ⟨t, rest, hq⟩
    rw [hq] at htk
    rcases Prod.mk.inj (Option.some.inj htk) with ⟨rfl, rfl⟩
    have hnone : head t = none := by
      cases hp : head t with
      | none => rfl
      | some p => exact absurd ((hinv₁.back t p).mp hp) (hinv.not_mem_set_rest hq p)
    rcases rawTqInsert_ok (SchedState.Repr.of_relink hinv₁) hlock hnone with ⟨s', hins⟩
    unfold SchedState.rawTqInsertTail
    dsimp only [Option.bind_some]
    rw [hins]
    exact ⟨_, rfl⟩

theorem lockedRotate_ok (hlock : s.Unlocked) (hrq : qs .rq ≠ []) :
    ∃ s₁ s₂ next s₃, s.spinLock .rq = some s₁ ∧ s₁.rotate = some (s₂, next) ∧
      s₂.spinUnlock .rq = some s₃ := by
  have hl := spinLock_eq_some.mpr ⟨hlock .rq, rfl⟩
  have hinv₁ : ({ s with lock := Function.update s.lock .rq 1 } : SchedState).Repr qs := hinv
  have hl₁ : ({ s with lock := Function.update s.lock .rq 1 } : SchedState).lock .rq = 1 :=
    update_self Queue.rq 1 s.lock
  rcases rotate_ok hinv₁ hl₁ hrq with ⟨⟨s₂, next⟩, hrot⟩
  rcases rotate_spec hinv₁ hrot with ⟨-, h, head, hs₂, -⟩
  have hl₂ : s₂.lock .rq = 1 := by
    rw [hs₂]
    exact hl₁
  rcases spinUnlock_ok hl₂ with ⟨s₃, hunlock⟩
  exact ⟨_, s₂, next, s₃, hl, hrot, hunlock⟩

theorem sched0Tick_ok (hlock : s.Unlocked) (hrq : qs .rq ≠ []) : ∃ s', s.sched0Tick = some s' := by
  have hempty : ¬klist0Empty (.queue .rq) s.links = true := by
    rw [klist0Empty_iff (hinv.ring .rq), List.map_eq_nil_iff]
    exact hrq
  unfold SchedState.sched0Tick
  dsimp only
  rw [if_neg hempty]
  split
  · generalize hs₀ : SchedState.setQuantum s.current { s with quantum := _ } = s₀
    have hinv₀ : s₀.Repr qs := by
      rw [← hs₀]
      exact hinv
    have hlock₀ : s₀.Unlocked := by
      rw [← hs₀]
      exact hlock
    rcases lockedRotate_ok hinv₀ hlock₀ hrq with ⟨s₁, s₂, next, s₃, hl, hrot, hunlock⟩
    rw [hl, Option.bind_some, hrot, Option.bind_some]
    rw [hunlock]
    exact ⟨_, rfl⟩
  · exact ⟨_, rfl⟩

end

end Total

/-! ## Boot -/

/-- The scheduler after boot: no queue is locked, there are threads to run, all
of them below `threads`, and every other queue is empty. -/
structure SchedState.Ready (s : SchedState) (threads : Nat) : Prop where
  unlocked : s.Unlocked
  lists : ∃ run : List Nat, run ≠ [] ∧ s.current ∈ run ∧ (∀ t ∈ run, t < threads) ∧
    s.Repr (fun q => if q = .rq then run else [])

/-- Three threads on the run queue, for runs on a fixed input. -/
def bootSched : Option SchedState :=
  run SchedState.call (schedStart 1 (fun _ => 5) (fun _ => 0) 0)
    ([2, 3, 1].map (fun t => .insertTail t .rq))

/-- A value of a run from there gives the run. -/
theorem exists_bootRun {σ β : Type} {f : SchedState → Option σ} {g : σ → β} {v : β}
    (h : (bootSched.bind f).map g = some v) :
    ∃ sched s, bootSched = some sched ∧ f sched = some s ∧ g s = v := by
  rcases Option.map_eq_some_iff.mp h with ⟨s, hbind, hv⟩
  rcases Option.bind_eq_some_iff.mp hbind with ⟨sched, hsched, hrun⟩
  exact ⟨sched, s, hsched, hrun, hv⟩

theorem bootSched_ready {s : SchedState} (hs : bootSched = some s) : s.Ready 4 := by
  rcases insertTails_repr (schedStart_repr _ _ _ _) hs with ⟨hcur, hlock, hrepr⟩
  constructor
  · intro q
    rw [hlock]
    rfl
  · refine ⟨[2, 3, 1], by decide, ?_, by decide, ?_⟩
    · rw [hcur]
      decide
    · have hqs : Queues.set (fun _ => []) .rq ([] ++ [2, 3, 1]) =
          fun q => if q = .rq then [2, 3, 1] else [] := by
        funext q
        rw [Queues.set_apply]
        rfl
      rw [← hqs]
      exact hrepr

/-! ## Who runs next

`sched0_dequeue` rotates the run queue when the current thread has left it, and
the `sched0_yield` that follows rotates it again. -/

section Next

variable {s s₁ s₂ : SchedState} {qs : Queues} {q : Queue}

theorem sched0Yield_ok (hinv : s.Repr qs) (hlock : s.Unlocked) (hrq : qs .rq ≠ []) :
    ∃ s', s.sched0Yield = some s' := by
  have hinv₀ : ((s.setQuantum s.current).setLastTick s.current).Repr qs := hinv
  rcases lockedRotate_ok hinv₀ hlock hrq with ⟨s₁, s₂, next, s₃, hl, hrot, hunlock⟩
  unfold SchedState.sched0Yield
  dsimp only
  rw [hl, Option.bind_some, hrot, Option.bind_some, hunlock]
  exact ⟨_, rfl⟩

/-- Threads that yield take turns: a thread that `k` others are in front of on the run queue runs
after `k + 1` yields, and they are behind the rest of the queue then, in their order. -/
theorem yields_reach (hinv : s.Repr qs) (hlock : s.Unlocked) {front rest : List Nat} {t : Nat}
    (hrq : qs .rq = front ++ t :: rest) : ∃ s',
      run SchedState.call s (List.replicate (front.length + 1) .yield) = some s' ∧
        s'.current = t ∧ s'.Unlocked ∧ s'.Repr (qs.set .rq (rest ++ front ++ [t])) := by
  induction front generalizing s qs rest with
  | nil =>
    obtain ⟨s', hyield⟩ := sched0Yield_ok hinv hlock (by simp [hrq])
    obtain ⟨hlock', hinv', rest', hhead⟩ := sched0Yield_spec hinv hyield
    cases hrq.symm.trans hhead
    refine ⟨s', run_cons_eq_some.mpr ⟨s', hyield, rfl⟩, rfl, hlock.of_lock_eq hlock', ?_⟩
    simpa [Queues.rotate, hhead] using hinv'
  | cons x front ih =>
    obtain ⟨s₁, hyield⟩ := sched0Yield_ok hinv hlock (by simp [hrq])
    obtain ⟨hlock₁, hinv₁, -⟩ := sched0Yield_spec hinv hyield
    have hrot : qs.rotate = qs.set .rq (front ++ t :: (rest ++ [x])) := by
      simp [Queues.rotate, hrq]
    rw [hrot] at hinv₁
    obtain ⟨s', hrun, hcur, hlock', hinv'⟩ :=
      ih hinv₁ (hlock.of_lock_eq hlock₁) (by rw [Queues.set_apply, if_pos rfl])
    refine ⟨s', run_cons_eq_some.mpr ⟨s₁, hyield, hrun⟩, hcur, hlock', ?_⟩
    simpa using hinv'

theorem yields_reach_three : ∃ s s', bootSched = some s ∧
    run SchedState.call s [.yield, .yield] = some s' ∧ s'.current = 3 := by
  obtain ⟨s, hs⟩ := Option.isSome_iff_exists.mp (show bootSched.isSome from by decide)
  obtain ⟨-, hlock, hrepr⟩ := insertTails_repr (schedStart_repr _ _ _ _) hs
  obtain ⟨s', hrun, hcur, -⟩ := @yields_reach s _ hrepr (fun q => by rw [hlock]; rfl) [2] [1] 3 rfl
  exact ⟨s, s', hs, hrun, hcur⟩

theorem SchedState.Repr.next_rq (hinv : s.Repr qs) {t : Nat} {rest : List Nat}
    (hrq : qs .rq = t :: rest) : s.links.next (.queue .rq) = .thread t := by
  have hring := hinv.ring .rq
  rw [hrq] at hring
  exact hring.next_head

theorem two_others {l : List Nat} {cur t u : Nat} (ht : t ∈ l.erase cur) (hu : u ∈ l.erase cur)
    (htu : t ≠ u) : ∃ a b rest, l.erase cur = a :: b :: rest := by
  match h : l.erase cur with
  | [] => simp [h] at ht
  | [a] =>
    simp only [h, List.mem_singleton] at ht hu
    exact absurd (ht.trans hu.symm) htu
  | a :: b :: rest => exact ⟨a, b, rest, rfl⟩

/-- A thread that blocks hands the processor to the second of the others. -/
theorem dequeue_yield_second (hinv : s.Repr qs) {a b : Nat} {rest : List Nat}
    (hrest : (qs .rq).erase s.current = a :: b :: rest) (hdeq : s.sched0Dequeue q = some s₁)
    (hyield : s₁.sched0Yield = some s₂) : s₂.current = b := by
  obtain ⟨-, -, -, -, hinv₁⟩ := sched0Dequeue_spec hinv hdeq false
  obtain ⟨-, -, rest₂, hhead⟩ := sched0Yield_spec hinv₁ hyield
  have hrot : (qs.set .rq ((qs .rq).erase s.current)).rotate .rq = b :: (rest ++ [a]) := by
    simp [Queues.rotate, hrest]
  -- the current thread goes to the tail even when the queue is the run queue
  have hlist : ∃ l, qs.call s.current false (.dequeue q) .rq = b :: l := by
    show ∃ l, Queues.set _ q _ .rq = b :: l
    rw [Queues.set_apply]
    split
    · rename_i hq
      rw [← hq, hrot]
      exact ⟨_, rfl⟩
    · exact ⟨_, hrot⟩
  obtain ⟨l, hl⟩ := hlist
  rw [hl] at hhead
  exact (List.cons.inj hhead).1.symm

theorem head_ne_second (hinv : s.Repr qs) {cur a b : Nat} {rest : List Nat}
    (hrest : (qs .rq).erase cur = a :: b :: rest) : s.links.next (.queue .rq) ≠ .thread b := by
  have hnodup := hinv.nodup .rq
  have hb : b ≠ cur := by
    have hmem : b ∈ (qs .rq).erase cur := by simp [hrest]
    exact (hnodup.mem_erase_iff.mp hmem).1
  have hab : a ≠ b := by
    have h := hnodup.erase cur
    rw [hrest] at h
    exact fun heq => (List.nodup_cons.mp h).1 (heq ▸ List.mem_cons_self)
  cases hrq : qs .rq with
  | nil => simp [hrq] at hrest
  | cons x l =>
    rw [hinv.next_rq hrq]
    intro heq
    have hx : x = b := TNode.thread.inj heq
    by_cases hcur : x = cur
    · exact hb (hx.symm.trans hcur)
    · rw [hrq, List.erase_cons_tail (by simpa using hcur)] at hrest
      exact hab ((List.cons.inj hrest).1.symm.trans hx)

/-- `scheduler_dequeue` and `scheduler_yield` switch to the thread at the head of
the run queue, which a plain yield would have switched to. -/
def SchedState.HandsToNext (s : SchedState) (q : Queue) : Prop :=
  ∃ s₁ s₂, s.sched0Dequeue q = some s₁ ∧ s₁.sched0Yield = some s₂ ∧
    s.links.next (.queue .rq) = .thread s₂.current

/-- Blocking never hands the processor to the next in line.  In every state that
calls reach with two threads or more besides the current one on the run queue,
the switch goes to another thread than the head of the run queue and than the one
a plain yield would have chosen. -/
theorem dequeue_yield_skips {current : Nat} {quantum lastTick : Nat → Nat} {jiffies : Nat}
    {calls : List SchedCall} {t u : Nat} (q : Queue)
    (hrun : run SchedState.call (schedStart current quantum lastTick jiffies) calls = some s)
    (ht : s.LinkedIn t .rq) (hu : s.LinkedIn u .rq) (htu : t ≠ u) (htc : t ≠ s.current)
    (huc : u ≠ s.current) : ¬s.HandsToNext q ∧
      ∀ s₁ s₂ s', s.sched0Dequeue q = some s₁ → s₁.sched0Yield = some s₂ →
        s.sched0Yield = some s' → s₂.current ≠ s'.current := by
  obtain ⟨qs, hinv⟩ := schedRun_repr hrun
  have hmem : ∀ {x}, s.LinkedIn x .rq → x ≠ s.current → x ∈ (qs .rq).erase s.current := by
    intro x hx hxc
    exact (hinv.nodup .rq).mem_erase_iff.mpr ⟨hxc, (hinv.linkedIn_iff x .rq).mp hx⟩
  obtain ⟨a, b, rest, hrest⟩ := two_others (hmem ht htc) (hmem hu huc) htu
  constructor
  · rintro ⟨s₁, s₂, hdeq, hyield, hhead⟩
    rw [dequeue_yield_second hinv hrest hdeq hyield] at hhead
    exact head_ne_second hinv hrest hhead
  · intro s₁ s₂ s' hdeq hyield hplain heq
    obtain ⟨-, -, rest', hrq⟩ := sched0Yield_spec hinv hplain
    apply head_ne_second hinv hrest
    rw [hinv.next_rq hrq, ← heq, dequeue_yield_second hinv hrest hdeq hyield]

theorem dequeue_yield_skips_three : ∃ s, bootSched = some s ∧ ¬s.HandsToNext (.wait 7) := by
  have hsome : bootSched.map (fun s => (s.current, s.krunqHead 2, s.krunqHead 3)) =
      some (1, some .rq, some .rq) := by
    decide +kernel
  obtain ⟨s, hrun, hvals⟩ := Option.map_eq_some_iff.mp hsome
  simp only [Prod.mk.injEq] at hvals
  obtain ⟨hcur, h2, h3⟩ := hvals
  obtain ⟨qs, hinv⟩ := schedRun_repr hrun
  exact ⟨s, hrun, (dequeue_yield_skips (.wait 7) hrun ((hinv.head_iff 2 .rq).mp h2)
    ((hinv.head_iff 3 .rq).mp h3) (by decide) (by simp [hcur]) (by simp [hcur])).1⟩

/-- Thread 1 blocks with threads 2 and 3 on the run queue, 2 at its head.  A yield
would have switched to 2; the switch goes to 3. -/
theorem dequeue_yield_to_third :
    ∃ s s₁ s₂ s', bootSched = some s ∧ s.links.next (.queue .rq) = .thread 2 ∧
      s.sched0Yield = some s' ∧ s'.current = 2 ∧
      s.sched0Dequeue (.wait 7) = some s₁ ∧ s₁.sched0Yield = some s₂ ∧ s₂.current = 3 := by
  have hsome : bootSched.bind (fun s => s.sched0Yield.bind (fun s' =>
      (s.sched0Dequeue (.wait 7)).bind (fun s₁ => s₁.sched0Yield.map (fun s₂ =>
        (s.links.next (.queue .rq), s'.current, s₂.current))))) = some (.thread 2, 2, 3) := by
    decide +kernel
  obtain ⟨s, hs, hsome₁⟩ := Option.bind_eq_some_iff.mp hsome
  obtain ⟨s', hplain, hsome₂⟩ := Option.bind_eq_some_iff.mp hsome₁
  obtain ⟨s₁, hdeq, hsome₃⟩ := Option.bind_eq_some_iff.mp hsome₂
  obtain ⟨s₂, hyield, hvals⟩ := Option.map_eq_some_iff.mp hsome₃
  simp only [Prod.mk.injEq] at hvals
  exact ⟨s, s₁, s₂, s', hs, hvals.1, hplain, hvals.2.1, hdeq, hyield, hvals.2.2⟩

end Next

end Koowaldah
