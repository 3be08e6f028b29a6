import Koowaldah.Timers.Refine

/-!
# Runs of the timers

What holds of every run of `tsleep` and `update_timers`, as long as there is
memory for the intervals.

* `timerRun_sleeps`: a thread that sleeps is on one wake list, is woken once, and
  is not woken before its delay is over.
* `tsleep_undisturbed_iff`: when one call of `tsleep` more leaves the ticks on
  which the others are woken as they are.  An interval of `n` ticks takes
  `n + 1` interrupts, so every new interval before another one puts the threads
  of that one off by a tick.
-/

namespace Koowaldah

open SysLib

def AllocsOk (acts : List TimerCall) : Prop := ∀ d, .sleep d none ∉ acts

section Inv

variable {s s' : TimerState} {qs : Queues} {acts : List TimerCall}

theorem timersInit_inv {sched : SchedState} {threads : Nat} (hready : sched.Ready threads) :
    ∃ qs, TimerInv (timersInit sched threads) qs := by
  rcases hready.lists with ⟨l, hne, -, hbound, hrepr⟩
  refine ⟨fun q => if q = .rq then l else [], ?_⟩
  constructor
  · exact hrepr
  · exact hready.unlocked
  · exact hne
  · intro q t ht
    split at ht
    · exact hbound t ht
    · cases ht
  · rfl
  · rfl
  · exact List.Perm.refl _
  · exact List.nodup_nil
  · intro a _
    exact if_neg (wakeList_ne_rq a)
  · exact nofun
  · exact trivial
  · rfl

theorem timerRun_inv (hinv : TimerInv s qs) (halloc : AllocsOk acts)
    (hrun : run TimerState.call s acts = some s') :
    ∃ qs' ev, TimerInv s' qs' ∧ s'.log = s.log ++ ev := by
  induction acts generalizing s qs with
  | nil =>
    cases hrun
    exact ⟨qs, [], hinv, (List.append_nil _).symm⟩
  | cons c acts ih =>
    rcases run_cons_eq_some.mp hrun with ⟨s₁, hcall, hrest⟩
    rcases hinv.call (fun d h => halloc d (h ▸ List.mem_cons_self)) hcall with
      ⟨qs₁, ev₁, hinv₁, hlog₁, -⟩
    rcases ih hinv₁ (fun d h => halloc d (List.mem_cons_of_mem c h)) hrest with
      ⟨qs', ev, hinv', hlog⟩
    refine ⟨qs', ev₁ ++ ev, hinv', ?_⟩
    rw [hlog, hlog₁, List.append_assoc]

theorem TimerInv.valid_of_log {qs' : Queues} (hinv : TimerInv s qs) (hinv' : TimerInv s' qs')
    {ev : List (DeltaQueue.Event Nat)} (hlog : s'.log = s.log ++ ev) :
    DeltaQueue.Valid (s.pending qs) ev ∧ DeltaQueue.after (s.pending qs) ev = s'.pending qs' := by
  have hvalid := hinv'.valid
  have hafter := hinv'.log
  rw [hlog, DeltaQueue.valid_append, hinv.log] at hvalid
  rw [hlog, DeltaQueue.after_append, hinv.log] at hafter
  exact ⟨hvalid.2, hafter⟩

end Inv

/-! ## Sleep is not short and not lost -/

/-- A thread is on the wake list of an interval in `future`. -/
def TimerState.SleepsOn (s : TimerState) (t : Nat) (interval : Interval) : Prop :=
  interval ∈ s.future ∧ s.sched.LinkedIn t (wakeList interval.addr)

theorem TimerInv.sleepsOn_iff {s : TimerState} {qs : Queues} (hinv : TimerInv s qs) {t : Nat}
    {interval : Interval} :
    s.SleepsOn t interval ↔ interval ∈ s.future ∧ t ∈ qs (wakeList interval.addr) := by
  unfold TimerState.SleepsOn
  rw [hinv.repr.linkedIn_iff]

theorem TimerInv.sleepsOn_unique {s : TimerState} {qs : Queues} (hinv : TimerInv s qs) {t k : Nat}
    (hdue : DeltaQueue.dueIn t (s.pending qs) = some k) :
    (∃! interval, s.SleepsOn t interval) ∧ ¬s.sched.LinkedIn t .rq := by
  have hmem : ∃ i ∈ s.future, t ∈ qs (wakeList i.addr) := by
    by_contra hcon
    have hnone : DeltaQueue.dueIn t (s.pending qs) = none := by
      rw [DeltaQueue.dueIn_eq_none]
      intro p hp ht
      rcases List.mem_map.mp hp with ⟨i, hi, rfl⟩
      exact hcon ⟨i, hi, ht⟩
    rw [hdue] at hnone
    cases hnone
  rcases hmem with ⟨i, hi, ht⟩
  constructor
  · refine ⟨i, hinv.sleepsOn_iff.mpr ⟨hi, ht⟩, ?_⟩
    intro j hj
    rcases hinv.sleepsOn_iff.mp hj with ⟨hj, ht'⟩
    have haddr := wakeList_inj.mp (hinv.repr.queue_unique ht' ht)
    exact List.inj_on_of_nodup_map hinv.nodup hj hi haddr
  · rw [hinv.repr.linkedIn_iff]
    intro hrq
    exact wakeList_ne_rq i.addr (hinv.repr.queue_unique ht hrq)

/-- Sleep is never short and never lost.  In every state that a run reaches, a
thread has been passed to `scheduler_enqueue` once for every call of `tsleep`,
or once less while it sleeps; and it sleeps on one interval in `future`.  A
thread that has called `tsleep (d)` is not woken before `d` ticks have gone by
before the one that wakes it.  It sleeps for at most `d` ticks and one for every
call that can put it off, and the interrupt of the timer does not stop. -/
theorem timerRun_sleeps {sched : SchedState} {threads : Nat} {acts : List TimerCall}
    {s : TimerState} (hready : sched.Ready threads) (halloc : AllocsOk acts)
    (hrun : run TimerState.call (timersInit sched threads) acts = some s) : (∀ t,
      DeltaQueue.sleeps t s.log = DeltaQueue.wakes t s.log + 1 ∧
          (∃! interval, s.SleepsOn t interval) ∧ ¬s.sched.LinkedIn t .rq ∨
        DeltaQueue.sleeps t s.log = DeltaQueue.wakes t s.log ∧
          ∀ interval, ¬s.SleepsOn t interval) ∧
      (∀ t d before after ws rest,
        s.log = before ++ .slept t d :: (after ++ .ticked ws :: rest) → t ∈ ws →
        DeltaQueue.wakes t after = 0 → d ≤ DeltaQueue.ticks after) ∧
      (∀ t d before after, s.log = before ++ .slept t d :: after →
        DeltaQueue.wakes t after = 0 →
        DeltaQueue.ticks after ≤ d + DeltaQueue.calls (before ++ after)) ∧
      ∃ s', s.call .timerIrq = some s' := by
  rcases timersInit_inv hready with ⟨qs₀, hinv₀⟩
  rcases timerRun_inv hinv₀ halloc hrun with ⟨qs, -, hinv, -⟩
  refine ⟨?_, ?_, ?_, ?_⟩
  · intro t
    have hsum := hinv.valid.sleeps_add List.nodup_nil t
    rw [hinv.log] at hsum
    unfold DeltaQueue.inQueue at hsum
    cases hdue : DeltaQueue.dueIn t (s.pending qs) with
    | some k =>
      rw [hdue] at hsum
      exact Or.inl ⟨hsum, hinv.sleepsOn_unique hdue⟩
    | none =>
      rw [hdue] at hsum
      refine Or.inr ⟨hsum, ?_⟩
      intro i hi
      rcases hinv.sleepsOn_iff.mp hi with ⟨hi, ht⟩
      exact DeltaQueue.dueIn_eq_none.mp hdue _ (List.mem_map_of_mem hi) ht
  · intro t d before after ws rest hlog hmem hwakes
    have hvalid := hinv.valid
    rw [hlog] at hvalid
    exact hvalid.not_early hmem hwakes
  · intro t d before after hlog hwakes
    have hvalid := hinv.valid
    rw [hlog] at hvalid
    exact hvalid.not_late hwakes
  · rcases hinv.timerInterrupt with ⟨s', -, hop, -⟩
    refine ⟨s', ?_⟩
    change (if s.irqOn then s.timerInterrupt else none) = some s'
    rw [if_pos hinv.irqOn, hop]

theorem timerRun_sleeps_two : ∃ sched s, sched.Ready 4 ∧
      run TimerState.call (timersInit sched 4)
        [.sleep 2 (some 7), .yield, .sleep 0 (some 8), .timerIrq, .yield, .timerIrq] = some s ∧
      s.log = [.slept 1 2, .slept 3 0, .ticked [3], .ticked []] ∧
      ∃! interval, s.SleepsOn 1 interval := by
  have hsome : (bootSched.bind (fun sched => run TimerState.call (timersInit sched 4)
      [.sleep 2 (some 7), .yield, .sleep 0 (some 8), .timerIrq, .yield, .timerIrq])).map
      TimerState.log = some [.slept 1 2, .slept 3 0, .ticked [3], .ticked []] := by
    decide +kernel
  rcases exists_bootRun hsome with ⟨sched, s, hsched, hrun, hlog⟩
  have hready := bootSched_ready hsched
  have hsleeps := (timerRun_sleeps hready (by unfold AllocsOk; simp) hrun).1 1
  refine ⟨sched, s, hready, hrun, hlog, ?_⟩
  rcases hsleeps with h | h
  · exact h.2.1
  · rw [hlog] at h
    exact absurd h.1 (by decide)

/-! ## One call more -/

def futureTicks (l : List Interval) : Nat := (l.map Interval.ticksLeft).sum

/-- A thread has the last interval for itself. -/
def TimerState.AloneLast (s : TimerState) (t : Nat) : Prop :=
  ∃ l interval, s.future = l ++ [interval] ∧
    ∀ u, s.sched.LinkedIn u (wakeList interval.addr) ↔ u = t

/-- A call does not go past the thread `t` while that has the last interval for
itself. -/
def NotPast (t : Nat) (s : TimerState) : TimerCall → Prop
  | .sleep delay _ => s.AloneLast t → delay ≤ futureTicks s.future
  | _ => True

/-- From two states on, every two runs with the same calls of `tsleep` between
the same ticks wake everyone but `t` on the same ticks, as long as no call of
the second goes past `t`. -/
def Undisturbed (t : Nat) (s₁ s₂ : TimerState) : Prop :=
  ∀ acts₁ acts₂ s₁' s₂' ev₁ ev₂, AllocsOk acts₁ → AllocsOk acts₂ →
    run TimerState.call s₁ acts₁ = some s₁' → run TimerState.call s₂ acts₂ = some s₂' →
    s₁'.log = s₁.log ++ ev₁ → s₂'.log = s₂.log ++ ev₂ →
    ev₁.map DeltaQueue.Event.call = ev₂.map DeltaQueue.Event.call →
    Meets TimerState.call (NotPast t) s₂ acts₂ →
    ∀ u, u ≠ t → ∀ n, DeltaQueue.WokenOn u n ev₁ ↔ DeltaQueue.WokenOn u n ev₂

section Extra

variable {s s' : TimerState} {qs : Queues} {acts : List TimerCall}

theorem total_map_pendingOf (qs : Queues) (l : List Interval) :
    DeltaQueue.total (l.map (pendingOf qs)) = futureTicks l := by
  unfold DeltaQueue.total futureTicks
  rw [List.map_map]
  rfl

theorem TimerInv.aloneLast (hinv : TimerInv s qs) {t : Nat}
    (h : DeltaQueue.AloneLast t (s.pending qs)) : s.AloneLast t := by
  rcases h with ⟨l, k, hl⟩
  rcases List.map_eq_append_iff.mp hl with ⟨a, b, hab, -, hb⟩
  rcases List.map_eq_singleton_iff.mp hb with ⟨i, rfl, hi⟩
  refine ⟨a, i, hab, ?_⟩
  intro u
  rw [hinv.repr.linkedIn_iff, show qs (wakeList i.addr) = [t] from congrArg Pending.waiters hi,
    List.mem_singleton]

theorem TimerInv.unpassed (hinv : TimerInv s qs) {t : Nat} (halloc : AllocsOk acts)
    (hmeets : Meets TimerState.call (NotPast t) s acts)
    (hrun : run TimerState.call s acts = some s') {ev : List (DeltaQueue.Event Nat)}
    (hlog : s'.log = s.log ++ ev) : DeltaQueue.Unpassed t (s.pending qs) ev := by
  induction acts generalizing s qs ev with
  | nil =>
    rw [← Option.some.inj hrun] at hlog
    rw [List.self_eq_append_right.mp hlog]
    exact trivial
  | cons c acts ih =>
    rcases run_cons_eq_some.mp hrun with ⟨s₁, hcall, hrest⟩
    rcases hinv.call (fun d h => halloc d (h ▸ List.mem_cons_self)) hcall with
      ⟨qs₁, ev₁, hinv₁, hlog₁, hevents⟩
    have halloc' : AllocsOk acts := fun d h => halloc d (List.mem_cons_of_mem c h)
    rcases timerRun_inv hinv₁ halloc' hrest with ⟨qs', ev₂, -, hlog₂⟩
    obtain rfl : ev = ev₁ ++ ev₂ := by
      rw [hlog₁, List.append_assoc] at hlog₂
      exact List.append_cancel_left (hlog.symm.trans hlog₂)
    rw [DeltaQueue.unpassed_append, (hinv.valid_of_log hinv₁ hlog₁).2]
    refine ⟨?_, ih hinv₁ halloc' (hmeets.2 s₁ hcall) hrest hlog₂⟩
    cases c with
    | sleep delay slice =>
      rcases List.map_eq_singleton_iff.mp hevents with ⟨e, rfl, he⟩
      refine ⟨?_, trivial⟩
      intro x hx halone
      rw [he] at hx
      cases hx
      unfold TimerState.pending
      rw [total_map_pendingOf]
      exact hmeets.1 (hinv.aloneLast halone)
    | timerIrq =>
      rcases List.map_eq_singleton_iff.mp hevents with ⟨e, rfl, he⟩
      refine ⟨?_, trivial⟩
      intro x hx
      rw [he] at hx
      cases hx
    | yield =>
      rw [List.map_eq_nil_iff.mp hevents]
      exact trivial
    | irq =>
      rw [List.map_eq_nil_iff.mp hevents]
      exact trivial

theorem TimerInv.timerIrqs (hinv : TimerInv s qs) (n : Nat) :
    ∃ s' qs' ev, run TimerState.call s (List.replicate n .timerIrq) = some s' ∧
      TimerInv s' qs' ∧ s'.log = s.log ++ ev ∧
      ev.map DeltaQueue.Event.call = List.replicate n none := by
  induction n generalizing s qs with
  | zero => exact ⟨s, qs, [], rfl, hinv, (List.append_nil _).symm, rfl⟩
  | succ n ih =>
    rcases hinv.timerInterrupt with ⟨s₁, qs₁, hop, hinv₁, hlog₁⟩
    rcases ih hinv₁ with ⟨s', qs', ev, hrun, hinv', hlog, hev⟩
    have hcall : s.call .timerIrq = some s₁ := by
      change (if s.irqOn then s.timerInterrupt else none) = some s₁
      rw [if_pos hinv.irqOn, hop]
    refine ⟨s', qs', .ticked (DeltaQueue.tick (s.pending qs)).2 :: ev, ?_, hinv', ?_, ?_⟩
    · exact run_cons_eq_some.mpr ⟨s₁, hcall, hrun⟩
    · rw [hlog, hlog₁, List.append_assoc]
      rfl
    · rw [List.map_cons, hev]
      rfl

theorem meets_timerIrqs (t : Nat) (s : TimerState) (n : Nat) :
    Meets TimerState.call (NotPast t) s (List.replicate n .timerIrq) := by
  induction n generalizing s with
  | zero => exact trivial
  | succ n ih => exact ⟨trivial, fun s' _ => ih s'⟩

theorem allocsOk_timerIrqs (n : Nat) : AllocsOk (List.replicate n .timerIrq) := by
  intro d hmem
  exact nomatch List.eq_of_mem_replicate hmem

/-- One call more leaves the others undisturbed when it joins an interval or goes
to the end of `future`. -/
theorem TimerInv.undisturbed {s₂ : TimerState} {qs₂ : Queues} {t d : Nat} (hinv : TimerInv s qs)
    (hinv₂ : TimerInv s₂ qs₂) (hlog₂ : s₂.log = s.log ++ [.slept t d])
    (hd : DeltaQueue.Joins d (s.pending qs) ∨ DeltaQueue.total (s.pending qs) ≤ d) :
    Undisturbed t s s₂ := by
  intro acts₁ acts₂ s₁' s₂' ev₁ ev₂ halloc₁ halloc₂ hrun₁ hrun₂ hev₁ hev₂ hcalls hmeets u hu n
  rcases timerRun_inv hinv halloc₁ hrun₁ with ⟨qs₁', -, hinv₁', -⟩
  rcases timerRun_inv hinv₂ halloc₂ hrun₂ with ⟨qs₂', -, hinv₂', -⟩
  have hagree : DeltaQueue.Agree t (s.pending qs) (s₂.pending qs₂) := by
    rw [← (hinv.valid_of_log hinv₂ hlog₂).2]
    exact DeltaQueue.agree_sleep_self hd
  refine DeltaQueue.wokenOn_iff_of_wokens_eq ?_ hu n
  exact hagree.wokens_eq (hinv.valid_of_log hinv₁' hev₁).1 (hinv₂.valid_of_log hinv₂' hev₂).1
    hcalls (hinv₂.unpassed halloc₂ hmeets hrun₂ hev₂)

theorem TimerInv.disturbed {s₂ : TimerState} {qs₂ : Queues} {t d : Nat} (hinv : TimerInv s qs)
    (hinv₂ : TimerInv s₂ qs₂) (hlog₂ : s₂.log = s.log ++ [.slept t d])
    (hd : ¬(DeltaQueue.Joins d (s.pending qs) ∨ DeltaQueue.total (s.pending qs) ≤ d)) :
    ¬Undisturbed t s s₂ := by
  intro hund
  rcases hinv.valid_of_log hinv₂ hlog₂ with ⟨⟨hnone, -⟩, hpend⟩
  have hdist : DeltaQueue.Distinct (s.pending qs) := by
    rw [← hinv.log]
    exact hinv.valid.distinct List.nodup_nil
  have hfull : ∀ p ∈ s.pending qs, p.waiters ≠ [] := by
    intro p hp
    rcases List.mem_map.mp hp with ⟨i, hi, rfl⟩
    exact hinv.full i hi
  rcases DeltaQueue.exists_put_off hdist hfull hnone hd with ⟨u, k, hu, hk, hk₂⟩
  obtain ⟨j, rfl⟩ : ∃ j, k = j + 1 := ⟨k - 1, by have := DeltaQueue.dueIn_pos hk; omega⟩
  rcases hinv.timerIrqs (j + 1) with ⟨s₁', qs₁', ev₁, hrun₁, hinv₁', hev₁, hcalls₁⟩
  rcases hinv₂.timerIrqs (j + 1) with ⟨s₂', qs₂', ev₂, hrun₂, hinv₂', hev₂, hcalls₂⟩
  have hiff := hund _ _ _ _ ev₁ ev₂ (allocsOk_timerIrqs _) (allocsOk_timerIrqs _) hrun₁ hrun₂
    hev₁ hev₂ (hcalls₁.trans hcalls₂.symm) (meets_timerIrqs t s₂ _) u hu j
  have hticks : ∀ {ev : List (DeltaQueue.Event Nat)},
      ev.map DeltaQueue.Event.call = List.replicate (j + 1) none →
      (∀ e ∈ ev, e.call = none) ∧ j < ev.length := by
    intro ev hev
    constructor
    · intro e he
      exact List.eq_of_mem_replicate (hev ▸ List.mem_map_of_mem he)
    · have hlen := congrArg List.length hev
      rw [List.length_map, List.length_replicate] at hlen
      omega
  have hvalid₁ := (hinv.valid_of_log hinv₁' hev₁).1
  have hvalid₂ := (hinv₂.valid_of_log hinv₂' hev₂).1
  rw [← hpend] at hvalid₂
  have h₁ := DeltaQueue.wokenOn_iff_of_ticks hvalid₁ (hticks hcalls₁).1 hk le_rfl
    (hticks hcalls₁).2
  have h₂ := DeltaQueue.wokenOn_iff_of_ticks hvalid₂ (hticks hcalls₂).1 hk₂ (Nat.le_succ j)
    (hticks hcalls₂).2
  rw [h₁, h₂] at hiff
  omega

end Extra

/-- When sleepers do not disturb each other.  In every state that a run reaches,
one call of `tsleep (d)` more leaves the ticks on which all others are woken as
they are if and only if `d` is what is left to some interval in `future`, or all
that is left to `future` or more. -/
theorem tsleep_undisturbed_iff {sched : SchedState} {threads d : Nat} {slice : Option Nat}
    {acts : List TimerCall} {s s₂ : TimerState} (hready : sched.Ready threads)
    (halloc : AllocsOk acts) (hrun : run TimerState.call (timersInit sched threads) acts = some s)
    (hslice : slice ≠ none) (hcall : s.call (.sleep d slice) = some s₂) :
    Undisturbed s.sched.current s s₂ ↔
      (∃ l r, s.future = l ++ r ∧ l ≠ [] ∧ futureTicks l = d) ∨ futureTicks s.future ≤ d := by
  rcases timersInit_inv hready with ⟨qs₀, hinv₀⟩
  rcases timerRun_inv hinv₀ halloc hrun with ⟨qs, -, hinv, -⟩
  have hslice' : ∀ d', TimerCall.sleep d slice ≠ .sleep d' none := by
    intro d' h
    exact hslice (TimerCall.sleep.inj h).2
  rcases hinv.call hslice' hcall with ⟨qs₂, ev, hinv₂, hlog₂, hev⟩
  obtain rfl : ev = [.slept s.sched.current d] := by
    rcases List.map_eq_singleton_iff.mp hev with ⟨e, rfl, he⟩
    cases e with
    | slept t d' =>
      cases he
      rfl
    | ticked ws => exact nomatch he
  have hcond : (∃ l r, s.future = l ++ r ∧ l ≠ [] ∧ futureTicks l = d) ∨
      futureTicks s.future ≤ d ↔
      DeltaQueue.Joins d (s.pending qs) ∨ DeltaQueue.total (s.pending qs) ≤ d := by
    unfold TimerState.pending
    rw [total_map_pendingOf, DeltaQueue.joins_iff]
    refine or_congr_left ?_
    constructor
    · intro h
      rcases h with ⟨l, r, hlr, hne, hsum⟩
      refine ⟨l.map (pendingOf qs), r.map (pendingOf qs), ?_, ?_, ?_⟩
      · rw [hlr, List.map_append]
      · rw [ne_eq, List.map_eq_nil_iff]
        exact hne
      · rw [total_map_pendingOf, hsum]
    · intro h
      rcases h with ⟨a, b, hab, hne, hsum⟩
      rcases List.map_eq_append_iff.mp hab with ⟨l, r, hlr, rfl, rfl⟩
      rw [total_map_pendingOf] at hsum
      rw [ne_eq, List.map_eq_nil_iff] at hne
      exact ⟨l, r, hlr, hne, hsum⟩
  rw [hcond]
  constructor
  · intro hund
    by_contra hd
    exact hinv.disturbed hinv₂ hlog₂ hd hund
  · exact hinv.undisturbed hinv₂ hlog₂

theorem tsleep_undisturbed_joined : ∃ sched s s₂, sched.Ready 4 ∧
      run TimerState.call (timersInit sched 4) [.sleep 1 (some 7), .yield] = some s ∧
      s.call (.sleep 1 (some 8)) = some s₂ ∧ Undisturbed s.sched.current s s₂ := by
  have hsome : (bootSched.bind (fun sched => (run TimerState.call (timersInit sched 4)
      [.sleep 1 (some 7), .yield]).bind (fun s => (s.call (.sleep 1 (some 8))).map
      (fun _ => s.future)))) = some [⟨7, 1⟩] := by
    decide +kernel
  rcases Option.bind_eq_some_iff.mp hsome with ⟨sched, hsched, hsome₁⟩
  rcases Option.bind_eq_some_iff.mp hsome₁ with ⟨s, hrun, hsome₂⟩
  rcases Option.map_eq_some_iff.mp hsome₂ with ⟨s₂, hcall, hfuture⟩
  have hready := bootSched_ready hsched
  have halloc : AllocsOk [.sleep 1 (some 7), .yield] := by
    unfold AllocsOk
    simp
  refine ⟨sched, s, s₂, hready, hrun, hcall, ?_⟩
  refine (tsleep_undisturbed_iff hready halloc hrun (Option.some_ne_none 8) hcall).mpr
    (Or.inl ?_)
  rw [hfuture]
  exact ⟨[⟨7, 1⟩], [], rfl, by decide, rfl⟩

/-- Thread 1 sleeps for one tick and is woken on the second one.  When thread 3
calls `tsleep (0)` before the first tick, thread 1 is not woken on the second
tick. -/
theorem tsleep_disturbs : ∃ sched s₁ s₂, sched.Ready 4 ∧
      run TimerState.call (timersInit sched 4)
        [.sleep 1 (some 7), .yield, .timerIrq, .timerIrq] = some s₁ ∧
      run TimerState.call (timersInit sched 4)
        [.sleep 1 (some 7), .yield, .sleep 0 (some 8), .timerIrq, .timerIrq] = some s₂ ∧
      s₁.log.map DeltaQueue.Event.call = [some (1, 1), none, none] ∧
      s₂.log.map DeltaQueue.Event.call = [some (1, 1), some (3, 0), none, none] ∧
      DeltaQueue.WokenOn 1 1 s₁.log ∧ ¬DeltaQueue.WokenOn 1 1 s₂.log := by
  have hsome : (bootSched.bind (fun sched => (run TimerState.call (timersInit sched 4)
      [.sleep 1 (some 7), .yield, .timerIrq, .timerIrq]).bind (fun s₁ =>
      (run TimerState.call (timersInit sched 4)
        [.sleep 1 (some 7), .yield, .sleep 0 (some 8), .timerIrq, .timerIrq]).map (fun s₂ =>
      (s₁.log, s₂.log))))) =
      some ([.slept 1 1, .ticked [], .ticked [1]],
        [.slept 1 1, .slept 3 0, .ticked [3], .ticked []]) := by
    decide +kernel
  rcases Option.bind_eq_some_iff.mp hsome with ⟨sched, hsched, hsome₁⟩
  rcases Option.bind_eq_some_iff.mp hsome₁ with ⟨s₁, hrun₁, hsome₂⟩
  rcases Option.map_eq_some_iff.mp hsome₂ with ⟨s₂, hrun₂, hlogs⟩
  rcases Prod.mk.inj hlogs with ⟨hlog₁, hlog₂⟩
  refine ⟨sched, s₁, s₂, bootSched_ready hsched, hrun₁, hrun₂, ?_, ?_, ?_, ?_⟩
  · rw [hlog₁]
    rfl
  · rw [hlog₂]
    rfl
  · rw [hlog₁]
    exact ⟨[1], rfl, by decide⟩
  · rw [hlog₂]
    intro h
    rcases h with ⟨ws, hws, hmem⟩
    rw [← Option.some.inj hws] at hmem
    cases hmem

end Koowaldah
