import Koowaldah.Sched.Blocking
import Koowaldah.Timers.Basic

/-!
# The timers are a delta queue

`TimerInv` relates a state of the timers to the lists of the thread queues, and
to a delta queue: an interval is an entry, and the threads of its `wake_list`
are the waiters.  The log of a state is a log of that queue.  Every step
keeps the relation (`TimerInv.call`), as long as there is memory for the intervals.
-/

namespace Koowaldah

open SysLib

@[simp] theorem wakeList_inj {a b : Nat} : wakeList a = wakeList b ↔ a = b := by
  simp [wakeList]

@[simp] theorem wakeList_ne_rq (a : Nat) : wakeList a ≠ .rq := nofun

/-- The entry of a delta queue that an interval is. -/
def pendingOf (qs : Queues) (interval : Interval) : Pending Nat :=
  ⟨interval.ticksLeft, qs (wakeList interval.addr)⟩

/-- The delta queue that the list `future` is. -/
def TimerState.pending (s : TimerState) (qs : Queues) : DeltaQueue Nat :=
  s.future.map (pendingOf qs)

/-! ## Waking all the threads of a queue -/

/-- All the threads of a queue go to the head of the run queue. -/
def Queues.wakeAll (q : Queue) (qs : Queues) : Queues :=
  (qs.set q []).set .rq ((qs q).reverse ++ qs .rq)

theorem Queues.wakeAll_rq (q : Queue) (qs : Queues) :
    qs.wakeAll q .rq = (qs q).reverse ++ qs .rq := by
  unfold Queues.wakeAll
  rw [Queues.set_apply, if_pos rfl]

theorem Queues.wakeAll_of_ne (q : Queue) (qs : Queues) {p : Queue} (hp : p ≠ .rq) :
    qs.wakeAll q p = if p = q then [] else qs p := by
  unfold Queues.wakeAll
  rw [Queues.set_apply, if_neg hp, Queues.set_apply]

theorem Queues.mem_of_mem_wakeAll {q p : Queue} {qs : Queues} {t : Nat} (ht : t ∈ qs.wakeAll q p) :
    ∃ p', t ∈ qs p' := by
  by_cases hp : p = .rq
  · rw [hp, Queues.wakeAll_rq, List.mem_append, List.mem_reverse] at ht
    rcases ht with ht | ht
    · exact ⟨q, ht⟩
    · exact ⟨.rq, ht⟩
  · rw [Queues.wakeAll_of_ne _ _ hp] at ht
    split at ht
    · cases ht
    · exact ⟨p, ht⟩

section Wake

variable {s : SchedState} {qs : Queues} {q : Queue}

/-- The loop of `update_timers` moves the threads of a queue to the run queue,
one after the other. -/
theorem wakeAll_spec (hinv : s.Repr qs) (hlock : s.Unlocked) (hq : q ≠ .rq) {fuel : Nat}
    (hfuel : (qs q).length < fuel) :
    ∃ s', wakeAll q fuel s = some (s', qs q) ∧ s'.Unlocked ∧ s'.Repr (qs.wakeAll q) := by
  unfold Queues.wakeAll
  generalize hl : qs q = l at hfuel
  induction l generalizing s qs fuel with
  | nil =>
    obtain ⟨n, rfl⟩ : ∃ n, fuel = n + 1 := ⟨fuel - 1, by omega⟩
    have hsame : (qs.set q []).set .rq ([].reverse ++ qs .rq) = qs := by
      rw [List.reverse_nil, List.nil_append]
      nth_rewrite 1 [← hl]
      rw [Queues.set_self, Queues.set_self]
    rw [hsame]
    refine ⟨s, ?_, hlock, hinv⟩
    unfold wakeAll
    rw [sched0Enqueue_nil hinv hlock hl]
    rfl
  | cons t rest ih =>
    obtain ⟨n, rfl⟩ : ∃ n, fuel = n + 1 := ⟨fuel - 1, by omega⟩
    rcases sched0Enqueue_cons hinv hlock hq hl with ⟨s₁, henq, -, hlock₁, hinv₁⟩
    have hl₁ : ((qs.set q rest).set .rq (t :: qs .rq)) q = rest := by
      rw [Queues.set_apply, if_neg hq, Queues.set_apply, if_pos rfl]
    have hnext : s₁.links.next (.queue .rq) = .thread t := by
      have hring := hinv₁.ring .rq
      exact hring.next_head
    rcases ih hinv₁ hlock₁ hl₁ (Nat.lt_of_succ_lt_succ hfuel) with ⟨s', hrun, hlock', hinv'⟩
    refine ⟨s', ?_, hlock', ?_⟩
    · unfold wakeAll
      rw [henq, Option.bind_some]
      dsimp only
      rw [hnext]
      rw [hrun]
      rfl
    · have hsame : (((qs.set q rest).set .rq (t :: qs .rq)).set q []).set .rq
          (rest.reverse ++ ((qs.set q rest).set .rq (t :: qs .rq)) .rq) =
          (qs.set q []).set .rq ((t :: rest).reverse ++ qs .rq) := by
        funext p
        simp only [Queues.set_apply, List.reverse_cons, List.append_assoc]
        split
        · rfl
        · split
          · rfl
          · rfl
      rw [← hsame]
      exact hinv'

end Wake

/-! ## The loop of `tsleep` -/

section Place

variable {delay a : Nat} {slice : Option Nat} {future future' : List Interval}

theorem place_ne_noMem (hslice : slice ≠ none) : (place slice delay future).2 ≠ .noMem := by
  fun_induction place slice delay future with
  | case1 | case3 => contradiction
  | case2 | case4 | case5 => exact nofun
  | case6 delay interval rest hlt hne rest' place' hrest ih =>
    rw [hrest] at ih
    exact ih

theorem map_pendingOf_congr {qs qs' : Queues} {l : List Interval}
    (hsame : ∀ i ∈ l, qs' (wakeList i.addr) = qs (wakeList i.addr)) :
    l.map (pendingOf qs') = l.map (pendingOf qs) := by
  apply List.map_congr_left
  intro i hi
  unfold pendingOf
  rw [hsame i hi]

theorem place_made (hplace : place slice delay future = (future', .made a)) :
    (future'.map Interval.addr).Perm (a :: future.map Interval.addr) ∧
      ∀ (qs qs' : Queues) (t : Nat), qs' (wakeList a) = [t] →
        (∀ i ∈ future, qs' (wakeList i.addr) = qs (wakeList i.addr)) →
        future'.map (pendingOf qs') = DeltaQueue.sleep t delay (future.map (pendingOf qs)) := by
  fun_induction place slice delay future generalizing future' with
  | case1 | case3 | case5 => cases hplace
  | case2 delay addr =>
    cases hplace
    refine ⟨List.Perm.refl _, ?_⟩
    intro qs qs' t hnew _
    show [Pending.mk delay (qs' (wakeList a))] = [⟨delay, [t]⟩]
    rw [hnew]
  | case4 delay interval rest hlt interval' addr =>
    cases hplace
    refine ⟨List.Perm.refl _, ?_⟩
    intro qs qs' t hnew hold
    rw [List.forall_mem_cons] at hold
    simp only [List.map_cons, map_pendingOf_congr hold.2, DeltaQueue.sleep_cons]
    unfold pendingOf
    rw [if_pos hlt, hnew, hold.1]
  | case6 delay interval rest hlt heq rest' place' hrest ih =>
    cases hplace
    obtain ⟨hperm, hpend⟩ := ih hrest
    constructor
    · exact (hperm.cons interval.addr).trans (List.Perm.swap ..)
    · intro qs qs' t hnew hold
      rw [List.forall_mem_cons] at hold
      rw [List.map_cons, List.map_cons, hpend qs qs' t hnew hold.2, DeltaQueue.sleep_cons]
      unfold pendingOf
      rw [if_neg hlt, if_neg heq, hold.1]

theorem place_found (hplace : place slice delay future = (future', .found a))
    (hnodup : (future.map Interval.addr).Nodup) : future' = future ∧ a ∈ future.map Interval.addr ∧
      ∀ (qs qs' : Queues) (t : Nat), qs' (wakeList a) = qs (wakeList a) ++ [t] →
        (∀ b, b ≠ a → qs' (wakeList b) = qs (wakeList b)) →
        future.map (pendingOf qs') = DeltaQueue.sleep t delay (future.map (pendingOf qs)) := by
  fun_induction place slice delay future generalizing future' with
  | case1 | case2 | case3 | case4 => cases hplace
  | case5 interval rest hlt =>
    cases hplace
    rw [List.map_cons, List.nodup_cons] at hnodup
    refine ⟨rfl, List.mem_cons_self, ?_⟩
    intro qs qs' t hjoin hold
    have hsame : ∀ i ∈ rest, qs' (wakeList i.addr) = qs (wakeList i.addr) := by
      intro i hi
      exact hold i.addr (fun h => hnodup.1 (h ▸ List.mem_map_of_mem hi))
    simp only [List.map_cons, map_pendingOf_congr hsame, DeltaQueue.sleep_cons]
    unfold pendingOf
    rw [if_neg hlt, if_pos rfl, hjoin]
  | case6 delay interval rest hlt heq rest' place' hrest ih =>
    cases hplace
    rw [List.map_cons, List.nodup_cons] at hnodup
    obtain ⟨rfl, hmem, hpend⟩ := ih hrest hnodup.2
    refine ⟨rfl, List.mem_cons_of_mem _ hmem, ?_⟩
    intro qs qs' t hjoin hold
    rw [List.map_cons, List.map_cons, hpend qs qs' t hjoin hold, DeltaQueue.sleep_cons]
    unfold pendingOf
    rw [if_neg hlt, if_neg heq, hold interval.addr (fun h => hnodup.1 (h ▸ hmem))]

end Place

/-! ## The relation -/

/-- A state of the timers between two steps, and the lists of its thread queues.
The threads that sleep are on the wake lists of the intervals in `future`, and
the log is a log of the delta queue that `future` is. -/
structure TimerInv (s : TimerState) (qs : Queues) : Prop where
  repr : s.sched.Repr qs
  unlocked : s.sched.Unlocked
  runnable : qs .rq ≠ []
  bound : ∀ q, ∀ t ∈ qs q, t < s.threads
  futureLock : s.futureLock = 0
  irqOn : s.irqOn = true
  pool : s.intervalPool.Perm (s.future.map Interval.addr)
  nodup : (s.future.map Interval.addr).Nodup
  idle : ∀ a, a ∉ s.future.map Interval.addr → qs (wakeList a) = []
  full : ∀ i ∈ s.future, qs (wakeList i.addr) ≠ []
  valid : DeltaQueue.Valid [] s.log
  log : DeltaQueue.after [] s.log = s.pending qs

section Steps

variable {s s' : TimerState} {qs : Queues}

section

variable (hinv : TimerInv s qs)

include hinv

theorem TimerInv.dueIn_eq_none {t : Nat} (ht : t ∈ qs .rq) :
    DeltaQueue.dueIn t (s.pending qs) = none := by
  rw [DeltaQueue.dueIn_eq_none]
  intro p hp hmem
  rcases List.mem_map.mp hp with ⟨i, -, rfl⟩
  exact wakeList_ne_rq i.addr (hinv.repr.queue_unique hmem ht)

theorem TimerInv.of_sched {sched : SchedState} {qs' : Queues}
    {inTsleep : Nat → Bool} (hrepr : sched.Repr qs') (hlock : sched.Unlocked)
    (hrq : ∀ t, t ∈ qs' .rq ↔ t ∈ qs .rq) (hsame : ∀ q, q ≠ .rq → qs' q = qs q) :
    TimerInv { s with sched := sched, inTsleep := inTsleep } qs' where
  repr := hrepr
  unlocked := hlock
  runnable := by
    rcases List.exists_mem_of_ne_nil _ hinv.runnable with ⟨t, ht⟩
    exact List.ne_nil_of_mem ((hrq t).mpr ht)
  bound := by
    intro q t ht
    by_cases hq : q = .rq
    · rw [hq] at ht
      exact hinv.bound .rq t ((hrq t).mp ht)
    · rw [hsame q hq] at ht
      exact hinv.bound q t ht
  futureLock := hinv.futureLock
  irqOn := hinv.irqOn
  pool := hinv.pool
  nodup := hinv.nodup
  idle := by
    intro a ha
    rw [hsame _ (wakeList_ne_rq a)]
    exact hinv.idle a ha
  full := by
    intro i hi
    rw [hsame _ (wakeList_ne_rq i.addr)]
    exact hinv.full i hi
  valid := hinv.valid
  log := by
    refine hinv.log.trans (map_pendingOf_congr ?_).symm
    intro i _
    exact hsame _ (wakeList_ne_rq i.addr)

theorem TimerInv.yield (hop : s.yield = some s') : TimerInv s' qs.rotate := by
  rcases Option.map_eq_some_iff.mp hop with ⟨sched, hyield, rfl⟩
  rcases sched0Yield_spec hinv.repr hyield with ⟨hlock, hrepr, -⟩
  refine hinv.of_sched hrepr ?_ (fun t => Queues.mem_rotate_rq)
    (fun q hq => Queues.rotate_of_ne hq)
  intro q
  rw [hlock]
  exact hinv.unlocked q

theorem TimerInv.schedulerTick :
    ∃ s' qs', s.schedulerTick = some s' ∧ TimerInv s' qs' ∧ s'.log = s.log := by
  rcases sched0Tick_ok hinv.repr hinv.unlocked hinv.runnable with ⟨sched, htick⟩
  rcases sched0Tick_spec hinv.repr htick with ⟨-, hlock, hrepr⟩
  have hrepr' : ∃ qs' : Queues, sched.Repr qs' ∧ (∀ t, t ∈ qs' .rq ↔ t ∈ qs .rq) ∧
      ∀ q, q ≠ .rq → qs' q = qs q := by
    refine ⟨_, hrepr, ?_, ?_⟩
    · intro t
      split
      · exact Queues.mem_rotate_rq
      · exact Iff.rfl
    · intro q hq
      split
      · exact Queues.rotate_of_ne hq
      · rfl
  rcases hrepr' with ⟨qs', hrepr', hrq, hsame⟩
  unfold TimerState.schedulerTick
  rw [htick]
  refine ⟨_, qs', rfl, hinv.of_sched ?_ ?_ hrq hsame, rfl⟩
  · unfold SchedState.irqReturn
    split
    · exact hrepr'
    · exact hrepr'
  · intro q
    have hq : sched.lock q = 0 := by
      rw [hlock]
      exact hinv.unlocked q
    unfold SchedState.irqReturn
    split
    · exact hq
    · exact hq

end

theorem valid_concat {log : List (DeltaQueue.Event Nat)} {e : DeltaQueue.Event Nat}
    {l : DeltaQueue Nat} (hvalid : DeltaQueue.Valid [] log) (hlog : DeltaQueue.after [] log = l)
    (hfits : e.Fits l) :
    DeltaQueue.Valid [] (log ++ [e]) ∧ DeltaQueue.after [] (log ++ [e]) = e.perform l := by
  rw [DeltaQueue.valid_append, DeltaQueue.after_append, hlog]
  exact ⟨⟨hvalid, hfits, trivial⟩, rfl⟩

section

variable (hinv : TimerInv s qs)

include hinv

theorem TimerInv.sleepOn {future : List Interval} {pool : List Nat}
    {a delay : Nat} {sched : SchedState} (hrepr : sched.Repr qs) (hlock : sched.Unlocked)
    (hcur : sched.current = s.sched.current)
    (hpool : pool.Perm (future.map Interval.addr)) (hnodup : (future.map Interval.addr).Nodup)
    (hmem : ∀ b, b ∈ future.map Interval.addr ↔ b = a ∨ b ∈ s.future.map Interval.addr)
    (hpend : ∀ qs' : Queues, qs' (wakeList a) = qs (wakeList a) ++ [s.sched.current] →
      (∀ b, b ≠ a → qs' (wakeList b) = qs (wakeList b)) →
      future.map (pendingOf qs') = DeltaQueue.sleep s.sched.current delay (s.pending qs))
    (hop : ({ s with sched := sched, future := future, intervalPool := pool } :
      TimerState).sleepOn delay a = some s') :
    ∃ qs', TimerInv s' qs' ∧ s'.log = s.log ++ [.slept s.sched.current delay] := by
  rcases Option.map_eq_some_iff.mp hop with ⟨sched', hdeq, rfl⟩
  rcases dequeue_spec hrepr (wakeList_ne_rq a) hdeq with
    ⟨qs', hrepr', -, hlock', hrun, ⟨next, hnext⟩, hq, hother, hrq⟩
  rw [hcur] at hq hrq hrun hnext ⊢
  have hother' : ∀ b, b ≠ a → qs' (wakeList b) = qs (wakeList b) := by
    intro b hb
    exact hother _ (wakeList_ne_rq b) (fun h => hb (wakeList_inj.mp h))
  have hpend' := hpend qs' hq hother'
  have hfits : DeltaQueue.Event.Fits (s.pending qs) (.slept s.sched.current delay) :=
    hinv.dueIn_eq_none hrun
  rcases valid_concat hinv.valid hinv.log hfits with ⟨hvalid, hafter⟩
  refine ⟨qs', ?_, rfl⟩
  constructor
  · exact hrepr'
  · intro q
    rw [hlock']
    exact hlock q
  · exact List.ne_nil_of_mem ((hrq next).mpr hnext)
  · intro q t ht
    by_cases hqr : q = .rq
    · rw [hqr] at ht
      exact hinv.bound .rq t ((hrq t).mp ht).1
    · by_cases hqa : q = wakeList a
      · rw [hqa, hq, List.mem_append, List.mem_singleton] at ht
        rcases ht with ht | rfl
        · exact hinv.bound _ t ht
        · exact hinv.bound .rq _ hrun
      · rw [hother q hqr hqa] at ht
        exact hinv.bound q t ht
  · exact hinv.futureLock
  · exact hinv.irqOn
  · exact hpool
  · exact hnodup
  · intro b hb
    have hb' : b ≠ a ∧ b ∉ s.future.map Interval.addr := by
      rw [hmem, not_or] at hb
      exact hb
    rw [hother' b hb'.1]
    exact hinv.idle b hb'.2
  · intro i hi
    by_cases hia : i.addr = a
    · rw [hia, hq]
      exact List.concat_ne_nil _ _
    · rw [hother' _ hia]
      have hold : i.addr ∈ s.future.map Interval.addr := by
        rcases (hmem i.addr).mp (List.mem_map_of_mem hi) with h | h
        · exact absurd h hia
        · exact h
      rcases List.mem_map.mp hold with ⟨j, hj, hij⟩
      rw [← hij]
      exact hinv.full j hj
  · exact hvalid
  · exact hafter.trans hpend'.symm

theorem TimerInv.tsleep {delay : Nat} {slice : Option Nat} {r : Option Int}
    (hslice : slice ≠ none) (hop : s.tsleep delay slice = some (s', r)) :
    ∃ qs', TimerInv s' qs' ∧ s'.log = s.log ++ [.slept s.sched.current delay] := by
  unfold TimerState.tsleep at hop
  rw [if_neg (not_not.mpr hinv.futureLock)] at hop
  rcases hplace : place slice delay s.future with ⟨future, p⟩
  rw [hplace] at hop
  cases p with
  | noMem =>
    have hne : (place slice delay s.future).2 ≠ .noMem := place_ne_noMem hslice
    rw [hplace] at hne
    exact absurd rfl hne
  | made a =>
    dsimp only at hop
    split at hop
    · cases hop
    · rename_i hfresh
      rcases Option.map_eq_some_iff.mp hop with ⟨s₁, hsleep, heq⟩
      cases heq
      have hnew : a ∉ s.future.map Interval.addr := fun h => hfresh (hinv.pool.mem_iff.mpr h)
      have hidle := hinv.idle a hnew
      rcases place_made hplace with ⟨hperm, hpend⟩
      refine hinv.sleepOn (hinv.repr.tqInit hidle) ?_ rfl ?_ ?_ ?_ ?_ hsleep
      · intro q
        show Function.update s.sched.lock (wakeList a) 0 q = 0
        rw [Function.update_apply]
        split
        · rfl
        · exact hinv.unlocked q
      · exact (hinv.pool.cons a).trans hperm.symm
      · rw [hperm.nodup_iff, List.nodup_cons]
        exact ⟨hnew, hinv.nodup⟩
      · intro b
        rw [hperm.mem_iff, List.mem_cons]
      · intro qs' hq hother
        rw [hidle] at hq
        apply hpend qs qs' s.sched.current hq
        intro i hi
        exact hother i.addr (fun h => hnew (h ▸ List.mem_map_of_mem hi))
  | found a =>
    rcases Option.map_eq_some_iff.mp hop with ⟨s₁, hsleep, heq⟩
    cases heq
    rcases place_found hplace hinv.nodup with ⟨rfl, hmem, hpend⟩
    refine hinv.sleepOn hinv.repr hinv.unlocked rfl hinv.pool hinv.nodup ?_ ?_ hsleep
    · intro b
      constructor
      · exact Or.inr
      · intro h
        rcases h with rfl | h
        · exact hmem
        · exact h
    · intro qs' hq hother
      exact hpend qs qs' s.sched.current hq hother

theorem TimerInv.length_le (q : Queue) : (qs q).length ≤ s.threads := by
  have hsub : qs q ⊆ List.range s.threads := by
    intro t ht
    exact List.mem_range.mpr (hinv.bound q t ht)
  have hle := ((hinv.repr.nodup q).subperm hsub).length_le
  rw [List.length_range] at hle
  exact hle

theorem TimerInv.pop {interval : Interval} {rest : List Interval}
    (hfuture : s.future = interval :: rest) (hzero : interval.ticksLeft = 0) :
    ∃ s' qs', s.updateTimers = some s' ∧ TimerInv s' qs' ∧
      s'.log = s.log ++ [.ticked (DeltaQueue.tick (s.pending qs)).2] := by
  have hpending : s.pending qs = pendingOf qs interval :: rest.map (pendingOf qs) := by
    unfold TimerState.pending
    rw [hfuture, List.map_cons]
  have htick : DeltaQueue.tick (s.pending qs) =
      (rest.map (pendingOf qs), qs (wakeList interval.addr)) := by
    rw [hpending]
    exact if_pos hzero
  have hnodup := hinv.nodup
  have hpool := hinv.pool
  have hidle := hinv.idle
  have hfull := hinv.full
  rw [hfuture, List.map_cons] at hnodup hpool hidle
  rw [hfuture, List.forall_mem_cons] at hfull
  rw [List.nodup_cons] at hnodup
  rcases wakeAll_spec hinv.repr hinv.unlocked (wakeList_ne_rq interval.addr)
    (Nat.lt_succ_of_le (hinv.length_le _)) with ⟨sched, hwake, hlock, hrepr⟩
  have hwl : ∀ b, qs.wakeAll (wakeList interval.addr) (wakeList b) =
      if b = interval.addr then [] else qs (wakeList b) := by
    intro b
    rw [Queues.wakeAll_of_ne _ _ (wakeList_ne_rq b)]
    simp only [wakeList_inj]
  have hrest : ∀ i ∈ rest, i.addr ≠ interval.addr := fun i hi h =>
    hnodup.1 (h ▸ List.mem_map_of_mem hi)
  have hfits : DeltaQueue.Event.Fits (s.pending qs) (.ticked (qs (wakeList interval.addr))) := by
    show qs (wakeList interval.addr) = (DeltaQueue.tick (s.pending qs)).2
    rw [htick]
  rcases valid_concat hinv.valid hinv.log hfits with ⟨hvalid, hafter⟩
  unfold TimerState.updateTimers
  rw [if_neg (not_not.mpr hinv.futureLock), hfuture]
  dsimp only
  rw [if_pos hzero, hwake, htick]
  refine ⟨_, qs.wakeAll (wakeList interval.addr), rfl, ?_, rfl⟩
  constructor
  · exact hrepr
  · exact hlock
  · exact List.append_ne_nil_of_right_ne_nil _ hinv.runnable
  · intro q t ht
    obtain ⟨p, hp⟩ := Queues.mem_of_mem_wakeAll ht
    exact hinv.bound p t hp
  · exact hinv.futureLock
  · exact hinv.irqOn
  · have herase := hpool.erase interval.addr
    rw [List.erase_cons_head] at herase
    exact herase
  · exact hnodup.2
  · intro b hb
    rw [hwl]
    split
    · rfl
    · rename_i hne
      apply hidle
      rw [List.mem_cons, not_or]
      exact ⟨hne, hb⟩
  · intro i hi
    rw [hwl, if_neg (hrest i hi)]
    exact hfull.2 i hi
  · exact hvalid
  · refine hafter.trans ?_
    show (DeltaQueue.tick (s.pending qs)).1 = _
    rw [htick]
    refine (map_pendingOf_congr ?_).symm
    intro i hi
    rw [hwl, if_neg (hrest i hi)]

theorem TimerInv.updateTimers : ∃ s' qs', s.updateTimers = some s' ∧ TimerInv s' qs' ∧
      s'.log = s.log ++ [.ticked (DeltaQueue.tick (s.pending qs)).2] := by
  cases hfuture : s.future with
  | nil =>
    have hpending : s.pending qs = [] := by
      unfold TimerState.pending
      rw [hfuture, List.map_nil]
    have hfits : DeltaQueue.Event.Fits (s.pending qs) (.ticked []) := by
      rw [hpending]
      rfl
    rcases valid_concat hinv.valid hinv.log hfits with ⟨hvalid, hafter⟩
    refine ⟨s.ticked [], qs, ?_, ?_, ?_⟩
    · unfold TimerState.updateTimers
      rw [if_neg (not_not.mpr hinv.futureLock), hfuture]
    · refine { hinv with valid := hvalid, log := hafter.trans ?_ }
      show (DeltaQueue.tick (s.pending qs)).1 = s.pending qs
      rw [hpending]
      rfl
    · rw [hpending]
      rfl
  | cons interval rest =>
    by_cases hzero : interval.ticksLeft = 0
    · exact hinv.pop hfuture hzero
    · have hpending : s.pending qs = pendingOf qs interval :: rest.map (pendingOf qs) := by
        unfold TimerState.pending
        rw [hfuture, List.map_cons]
      have htick : DeltaQueue.tick (s.pending qs) =
          (⟨interval.ticksLeft - 1, qs (wakeList interval.addr)⟩ :: rest.map (pendingOf qs),
            []) := by
        rw [hpending]
        exact if_neg hzero
      have hfits : DeltaQueue.Event.Fits (s.pending qs) (.ticked []) := by
        show [] = (DeltaQueue.tick (s.pending qs)).2
        rw [htick]
      rcases valid_concat hinv.valid hinv.log hfits with ⟨hvalid, hafter⟩
      have hpool := hinv.pool
      have hnodup := hinv.nodup
      have hidle := hinv.idle
      have hfull := hinv.full
      rw [hfuture] at hpool hnodup hidle
      rw [hfuture, List.forall_mem_cons] at hfull
      unfold TimerState.updateTimers
      rw [if_neg (not_not.mpr hinv.futureLock), hfuture]
      dsimp only
      rw [if_neg hzero, htick]
      refine ⟨_, qs, rfl, ?_, rfl⟩
      refine { hinv with pool := hpool, nodup := hnodup, idle := hidle, full := ?_,
                         valid := hvalid, log := hafter.trans ?_ }
      · exact List.forall_mem_cons.mpr hfull
      · show (DeltaQueue.tick (s.pending qs)).1 = _
        rw [htick]
        rfl

theorem TimerInv.timerInterrupt : ∃ s' qs', s.timerInterrupt = some s' ∧ TimerInv s' qs' ∧
      s'.log = s.log ++ [.ticked (DeltaQueue.tick (s.pending qs)).2] := by
  have hinv₀ : TimerInv { s with sched := { s.sched with jiffies := s.sched.jiffies + 1 } } qs :=
    hinv.of_sched hinv.repr hinv.unlocked (fun _ => Iff.rfl) (fun _ _ => rfl)
  rcases hinv₀.updateTimers with ⟨s₁, qs₁, hupdate, hinv₁, hlog₁⟩
  rcases hinv₁.schedulerTick with ⟨s₂, qs₂, htick, hinv₂, hlog₂⟩
  refine ⟨s₂, qs₂, ?_, hinv₂, hlog₂.trans hlog₁⟩
  unfold TimerState.timerInterrupt
  rw [hupdate, Option.bind_some, htick]

end

/-- What a step puts on record: a call, or a tick. -/
def TimerCall.events (current : Nat) : TimerCall → List (Option (Nat × Nat))
  | .sleep delay _ => [some (current, delay)]
  | .timerIrq => [none]
  | .yield | .irq => []

theorem TimerInv.call (hinv : TimerInv s qs) {c : TimerCall} (hslice : ∀ d, c ≠ .sleep d none)
    (hcall : s.call c = some s') : ∃ qs' ev, TimerInv s' qs' ∧ s'.log = s.log ++ ev ∧
      ev.map DeltaQueue.Event.call = c.events s.sched.current := by
  cases c with
  | sleep delay slice =>
    unfold TimerState.call at hcall
    dsimp only at hcall
    split at hcall
    · cases hcall
    · rcases Option.map_eq_some_iff.mp hcall with ⟨⟨s₁, r⟩, hop, rfl⟩
      rcases hinv.tsleep (fun h => hslice delay (by rw [h])) hop with ⟨qs', hinv', hlog⟩
      exact ⟨qs', _, hinv', hlog, rfl⟩
  | yield =>
    refine ⟨_, [], hinv.yield hcall, ?_, rfl⟩
    rcases Option.map_eq_some_iff.mp hcall with ⟨sched, -, rfl⟩
    exact (List.append_nil _).symm
  | timerIrq =>
    rcases hinv.timerInterrupt with ⟨s₁, qs', hop, hinv', hlog⟩
    change (if s.irqOn then s.timerInterrupt else none) = some s' at hcall
    rw [if_pos hinv.irqOn, hop] at hcall
    cases hcall
    exact ⟨qs', _, hinv', hlog, rfl⟩
  | irq =>
    rcases hinv.schedulerTick with ⟨s₁, qs', hop, hinv', hlog⟩
    change (if s.irqOn then s.schedulerTick else none) = some s' at hcall
    rw [if_pos hinv.irqOn, hop] at hcall
    cases hcall
    exact ⟨qs', [], hinv', by rw [hlog, List.append_nil], rfl⟩

end Steps

end Koowaldah
