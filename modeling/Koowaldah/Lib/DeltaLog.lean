import Koowaldah.Lib.DeltaQueue

/-!
# Logs of a delta queue

A log records the calls and the ticks of a clock, each tick with the waiters it
took out.  `Valid l log` says that a delta queue that starts as `l` gives the
log.  `Agree` is two queues that differ in one waiter only.
-/

namespace SysLib

namespace DeltaQueue

variable {T : Type}

/-- What is put on record: a call, or a tick with the waiters it took out. -/
inductive Event (T : Type) where
  | slept (t : T) (d : Nat)
  | ticked (woken : List T)
deriving DecidableEq, Repr

/-- The waiter and the delay of a call; nothing for a tick. -/
def Event.call : Event T → Option (T × Nat)
  | .slept t d => some (t, d)
  | .ticked _ => none

/-- What an event does to the queue. -/
def Event.perform (l : DeltaQueue T) : Event T → DeltaQueue T
  | .slept t d => sleep t d l
  | .ticked _ => (tick l).1

def after (l : DeltaQueue T) (log : List (Event T)) : DeltaQueue T := log.foldl Event.perform l

def wokens : List (Event T) → List (List T)
  | [] => []
  | .slept _ _ :: log => wokens log
  | .ticked ws :: log => ws :: wokens log

/-- A waiter is taken out on a tick of a log. -/
def WokenOn (u : T) (n : Nat) (log : List (Event T)) : Prop :=
  ∃ ws, (wokens log)[n]? = some ws ∧ u ∈ ws

def ticks (log : List (Event T)) : Nat := log.countP (fun e => e.call.isNone)

def calls (log : List (Event T)) : Nat := log.countP (fun e => e.call.isSome)

variable [DecidableEq T]

/-- How often a waiter was put in. -/
def sleeps (t : T) (log : List (Event T)) : Nat :=
  log.countP (fun e => e.call.any (fun c => c.1 = t))

/-- How often a waiter was taken out. -/
def wakes (t : T) (log : List (Event T)) : Nat := ((wokens log).map (List.count t)).sum

/-- An event that the queue allows, and that records what happens. -/
def Event.Fits (l : DeltaQueue T) : Event T → Prop
  | .slept t _ => dueIn t l = none
  | .ticked ws => ws = (tick l).2

/-- A log that a queue gives. -/
def Valid : DeltaQueue T → List (Event T) → Prop
  | _, [] => True
  | l, e :: log => e.Fits l ∧ Valid (e.perform l) log

section Log

variable {l : DeltaQueue T} {log a b c : List (Event T)} {t u : T} {d : Nat}

omit [DecidableEq T] in
theorem after_append : after l (a ++ b) = after (after l a) b := List.foldl_append

theorem valid_append : Valid l (a ++ b) ↔ Valid l a ∧ Valid (after l a) b := by
  induction a generalizing l with
  | nil => exact (and_iff_right trivial).symm
  | cons e a ih =>
    show e.Fits l ∧ Valid (e.perform l) (a ++ b) ↔ (e.Fits l ∧ Valid (e.perform l) a) ∧ _
    rw [ih, and_assoc]
    rfl

theorem Event.Fits.distinct {e : Event T} (hfits : e.Fits l) (hdist : Distinct l) :
    Distinct (e.perform l) := by
  cases e with
  | slept t d => exact hdist.sleep hfits
  | ticked ws => exact hdist.tick

theorem Valid.distinct (hvalid : Valid l log) (hdist : Distinct l) : Distinct (after l log) := by
  induction log generalizing l with
  | nil => exact hdist
  | cons e log ih => exact ih hvalid.2 (hvalid.1.distinct hdist)

/-- One if a waiter is in the queue. -/
def inQueue (t : T) (l : DeltaQueue T) : Nat := if (dueIn t l).isSome then 1 else 0

theorem Event.Fits.inQueue_add {e : Event T} (hfits : e.Fits l) (hdist : Distinct l) (t : T) :
    sleeps t [e] + inQueue t l = wakes t [e] + inQueue t (e.perform l) := by
  cases e with
  | slept u d =>
    have hfits' : dueIn u l = none := hfits
    have hs : sleeps t [Event.slept u d] = if u = t then 1 else 0 := by
      simp [sleeps, Event.call]
    show _ = 0 + inQueue t (sleep u d l)
    rw [hs]
    unfold inQueue
    by_cases hut : u = t
    · rcases dueIn_sleep_self (d := d) hfits' with ⟨i, -, hdue⟩
      rw [hut] at hdue hfits'
      rw [hut, hdue, hfits']
      simp
    · have hcases := dueIn_sleep (d := d) (l := l) (Ne.symm hut)
      have hsame : (dueIn t (sleep u d l)).isSome = (dueIn t l).isSome := by
        rcases hcases with h | h
        · rw [h]
        · rw [h, Option.isSome_map]
      rw [hsame]
      simp [hut]
  | ticked ws =>
    have hws : ws = (tick l).2 := hfits
    show 0 + _ = (ws.count t + 0) + inQueue t (tick l).1
    unfold inQueue
    rw [hws]
    by_cases hone : dueIn t l = some 1
    · have hcount : (tick l).2.count t = 1 :=
        List.count_eq_one_of_mem (nodup_tick hdist) (mem_tick_iff.mpr hone)
      rw [hcount, dueIn_tick_one hdist hone, hone]
      rfl
    · have hcount : (tick l).2.count t = 0 :=
        List.count_eq_zero.mpr (fun hmem => hone (mem_tick_iff.mp hmem))
      rw [hcount]
      cases hdue : dueIn t l with
      | none => rw [dueIn_tick_none hdue]
      | some k =>
        have hpos := dueIn_pos hdue
        have hk : ∃ j, k = j + 2 := by
          refine ⟨k - 2, ?_⟩
          have hne : k ≠ 1 := fun h => hone (by rw [hdue, h])
          omega
        rcases hk with ⟨j, rfl⟩
        rw [dueIn_tick hdue]
        rfl

/-- A waiter is taken out as often as it was put in, but for the last time if it
is still in the queue. -/
theorem Valid.sleeps_add (hvalid : Valid l log) (hdist : Distinct l) (t : T) :
    sleeps t log + inQueue t l = wakes t log + inQueue t (after l log) := by
  induction log generalizing l with
  | nil => rfl
  | cons e log ih =>
    have hstep := hvalid.1.inQueue_add hdist t
    have hrest := ih hvalid.2 (hvalid.1.distinct hdist)
    have hs : sleeps t (e :: log) = sleeps t [e] + sleeps t log := by
      unfold sleeps
      rw [← List.singleton_append, List.countP_append]
    have hw : wakes t (e :: log) = wakes t [e] + wakes t log := by
      unfold wakes
      cases e <;> simp [wokens]
    show _ = _ + inQueue t (after (e.perform l) log)
    omega

/-- A waiter that is not taken out comes nearer by one with every tick, and is
put off by one tick at most with every call. -/
theorem Valid.dueIn_after (hvalid : Valid l log) {k : Nat} (hdue : dueIn t l = some k)
    (hwakes : wakes t log = 0) :
    ∃ j, dueIn t (after l log) = some j ∧ k ≤ ticks log + j ∧ ticks log + j ≤ k + calls log := by
  induction log generalizing l k with
  | nil => exact ⟨k, hdue, by simp [ticks], by simp [ticks]⟩
  | cons e log ih =>
    cases e with
    | slept u d =>
      have hne : t ≠ u := by
        rintro rfl
        have hnone : dueIn t l = none := hvalid.1
        rw [hdue] at hnone
        cases hnone
      have hstep : ∃ k', dueIn t (sleep u d l) = some k' ∧ k ≤ k' ∧ k' ≤ k + 1 := by
        rcases dueIn_sleep (d := d) (l := l) hne with h | h
        · exact ⟨k, h.trans hdue, le_rfl, Nat.le_succ k⟩
        · rw [hdue] at h
          exact ⟨k + 1, h, Nat.le_succ k, le_rfl⟩
      rcases hstep with ⟨k', hk', hlo, hhi⟩
      rcases ih hvalid.2 hk' hwakes with ⟨j, hj, hlo', hhi'⟩
      have ht : ticks (.slept u d :: log) = ticks log := by simp [ticks, Event.call]
      have hc : calls (.slept u d :: log) = calls log + 1 := by simp [calls, Event.call]
      exact ⟨j, hj, by omega, by omega⟩
    | ticked ws =>
      have hws : ws = (tick l).2 := hvalid.1
      have hsum : ws.count t + wakes t log = 0 := hwakes
      have hnot : t ∉ (tick l).2 := by
        rw [← hws]
        exact List.count_eq_zero.mp (by omega)
      have hpos := dueIn_pos hdue
      have hne : k ≠ 1 := fun h => hnot (mem_tick_iff.mpr (by rw [hdue, h]))
      obtain ⟨i, rfl⟩ : ∃ i, k = i + 2 := ⟨k - 2, by omega⟩
      rcases ih hvalid.2 (dueIn_tick hdue) (by omega) with ⟨j, hj, hlo, hhi⟩
      have ht : ticks (.ticked ws :: log) = ticks log + 1 := by simp [ticks, Event.call]
      have hc : calls (.ticked ws :: log) = calls log := by simp [calls, Event.call]
      exact ⟨j, hj, by omega, by omega⟩

omit [DecidableEq T] in
theorem length_after_le : (after l log).length ≤ l.length + calls log := by
  induction log generalizing l with
  | nil => exact Nat.le_add_right _ _
  | cons e log ih =>
    have hih := ih (l := e.perform l)
    show (after (e.perform l) log).length ≤ _
    cases e with
    | slept t d =>
      have hlen : (Event.perform l (.slept t d)).length ≤ l.length + 1 := length_sleep_le
      have hc : calls (.slept t d :: log) = calls log + 1 := by simp [calls, Event.call]
      omega
    | ticked ws =>
      have hlen : (Event.perform l (.ticked ws)).length ≤ l.length := length_tick_le
      have hc : calls (.ticked ws :: log) = calls log := by simp [calls, Event.call]
      omega

theorem Valid.dueIn_of_slept (hvalid : Valid l (a ++ .slept t d :: b)) (hwakes : wakes t b = 0) :
    ∃ j, dueIn t (after l (a ++ .slept t d :: b)) = some j ∧ d + 1 ≤ ticks b + j ∧
      ticks b + j ≤ d + 1 + l.length + calls (a ++ b) := by
  rcases valid_append.mp hvalid with ⟨-, hfits, hb⟩
  rcases dueIn_sleep_self (d := d) hfits with ⟨i, hi, hdue⟩
  rcases hb.dueIn_after hdue hwakes with ⟨j, hj, hlo, hhi⟩
  have hlen : (after l a).length ≤ l.length + calls a := length_after_le
  have hcalls : calls (a ++ b) = calls a + calls b := List.countP_append
  rw [after_append]
  exact ⟨j, hj, by omega, by omega⟩

theorem Valid.not_early {ws : List T} (hvalid : Valid l (a ++ .slept t d :: (b ++ .ticked ws :: c)))
    (hmem : t ∈ ws) (hwakes : wakes t b = 0) : d ≤ ticks b := by
  have hassoc : a ++ Event.slept t d :: (b ++ .ticked ws :: c) =
      (a ++ .slept t d :: b) ++ .ticked ws :: c := by simp
  rw [hassoc] at hvalid
  rcases valid_append.mp hvalid with ⟨hab, hfits, -⟩
  rcases hab.dueIn_of_slept hwakes with ⟨j, hj, hlo, -⟩
  have hws : ws = (tick (after l (a ++ .slept t d :: b))).2 := hfits
  rw [hws, mem_tick_iff, hj] at hmem
  have hone := Option.some.inj hmem
  omega

/-- A waiter is still in the queue only while its delay and the calls that can
put it off are not used up. -/
theorem Valid.not_late (hvalid : Valid l (a ++ .slept t d :: b)) (hwakes : wakes t b = 0) :
    ticks b ≤ d + l.length + calls (a ++ b) := by
  rcases hvalid.dueIn_of_slept hwakes with ⟨j, hj, -, hhi⟩
  have hpos := dueIn_pos hj
  omega

end Log

/-! ## One waiter more -/

/-- Two entries with the same ticks, and the same waiters but for `t`. -/
def SameEntry (t : T) (p q : Pending T) : Prop :=
  p.left = q.left ∧ p.waiters.filter (· ≠ t) = q.waiters.filter (· ≠ t)

/-- Two queues with the same entries but for the waiter `t`. -/
def SameBut (t : T) : DeltaQueue T → DeltaQueue T → Prop := List.Forall₂ (SameEntry t)

/-- The waiter `t` has the last entry for itself. -/
def AloneLast (t : T) (l : DeltaQueue T) : Prop := ∃ l' k, l = l' ++ [⟨k, [t]⟩]

/-- Two queues with the same entries but for the waiter `t`, which may have an
entry of its own at the end of the second. -/
def Agree (t : T) (l₁ l₂ : DeltaQueue T) : Prop :=
  SameBut t l₁ l₂ ∨ ∃ l k, l₂ = l ++ [⟨k, [t]⟩] ∧ SameBut t l₁ l

/-- While `t` has the last entry for itself, no call has a longer delay than what
is left to that entry. -/
def Unpassed (t : T) : DeltaQueue T → List (Event T) → Prop
  | _, [] => True
  | l, e :: log =>
    (∀ c, e.call = some c → AloneLast t l → c.2 ≤ total l) ∧ Unpassed t (e.perform l) log

section Agree

variable {l l₁ l₂ : DeltaQueue T} {log log₁ log₂ : List (Event T)} {t u : T} {d : Nat}

omit [DecidableEq T] in
theorem unpassed_append {a b : List (Event T)} :
    Unpassed t l (a ++ b) ↔ Unpassed t l a ∧ Unpassed t (after l a) b := by
  induction a generalizing l with
  | nil => exact (and_iff_right trivial).symm
  | cons e a ih =>
    show _ ∧ Unpassed t (e.perform l) (a ++ b) ↔ (_ ∧ Unpassed t (e.perform l) a) ∧ _
    rw [ih, and_assoc]
    rfl

theorem SameEntry.refl (t : T) (p : Pending T) : SameEntry t p p := ⟨rfl, rfl⟩

theorem SameBut.refl (t : T) (l : DeltaQueue T) : SameBut t l l := List.forall₂_same.mpr
  (fun p _ => SameEntry.refl t p)

theorem Agree.cons {p q : Pending T} (hpq : SameEntry t p q) (hagree : Agree t l₁ l₂) :
    Agree t (p :: l₁) (q :: l₂) := by
  rcases hagree with hsame | ⟨l, k, hl, hsame⟩
  · exact Or.inl (List.Forall₂.cons hpq hsame)
  · right
    refine ⟨q :: l, k, ?_, List.Forall₂.cons hpq hsame⟩
    rw [hl]
    rfl

/-- A new waiter that joins an entry or goes to the end leaves a queue that
agrees with the one before. -/
theorem agree_sleep_self (hd : Joins d l ∨ total l ≤ d) : Agree t l (sleep t d l) := by
  induction l generalizing d with
  | nil => exact Or.inr ⟨[], d, rfl, List.Forall₂.nil⟩
  | cons p l ih =>
    have hge : ¬d < p.left := by
      rcases hd with (heq | ⟨hlt, -⟩) | htot
      · omega
      · omega
      · rw [total_cons] at htot
        omega
    unfold sleep
    rw [if_neg hge]
    by_cases heq : d = p.left
    · rw [if_pos heq]
      refine Or.inl (List.Forall₂.cons ⟨rfl, ?_⟩ (SameBut.refl t l))
      show _ = (p.waiters ++ [t]).filter _
      simp
    · rw [if_neg heq]
      apply Agree.cons (SameEntry.refl t p)
      apply ih
      rcases hd with (heq' | ⟨-, hjoins⟩) | htot
      · exact absurd heq' heq
      · exact Or.inl hjoins
      · rw [total_cons] at htot
        exact Or.inr (by omega)

theorem SameBut.sleep (hsame : SameBut t l₁ l₂) :
    SameBut t (DeltaQueue.sleep u d l₁) (DeltaQueue.sleep u d l₂) := by
  induction hsame generalizing d with
  | nil => exact SameBut.refl t _
  | cons hpq hrest ih =>
    unfold DeltaQueue.sleep
    rw [← hpq.1]
    split
    · refine List.Forall₂.cons (SameEntry.refl t _) (List.Forall₂.cons ⟨rfl, hpq.2⟩ hrest)
    · split
      · refine List.Forall₂.cons ⟨rfl, ?_⟩ hrest
        show List.filter _ (_ ++ [u]) = List.filter _ (_ ++ [u])
        rw [List.filter_append, List.filter_append, hpq.2]
      · exact List.Forall₂.cons hpq ih

theorem Agree.sleep (hagree : Agree t l₁ l₂) (hd : AloneLast t l₂ → d ≤ total l₂) :
    Agree t (DeltaQueue.sleep u d l₁) (DeltaQueue.sleep u d l₂) := by
  rcases hagree with hsame | ⟨l, k, rfl, hsame⟩
  · exact Or.inl hsame.sleep
  · have hd' := hd ⟨l, k, rfl⟩
    clear hd
    induction hsame generalizing d with
    | nil =>
      have hk : d ≤ k := hd'
      show Agree t [⟨d, [u]⟩] (DeltaQueue.sleep u d [⟨k, [t]⟩])
      unfold DeltaQueue.sleep
      split
      · exact Or.inr ⟨[⟨d, [u]⟩], k - d, rfl, SameBut.refl t _⟩
      · rw [if_pos (by dsimp only at *; omega)]
        refine Or.inl (List.Forall₂.cons ⟨?_, ?_⟩ List.Forall₂.nil)
        · dsimp only at *
          omega
        · show List.filter _ [u] = List.filter _ ([t] ++ [u])
          simp
    | cons hpq hrest ih =>
      rename_i p q l₁ l
      have hagree : Agree t l₁ (l ++ [⟨k, [t]⟩]) := Or.inr ⟨l, k, rfl, hrest⟩
      rw [List.cons_append, total_cons] at hd'
      rw [List.cons_append]
      unfold DeltaQueue.sleep
      rw [← hpq.1]
      rw [← hpq.1] at hd'
      split
      · exact Agree.cons (SameEntry.refl t _) (Agree.cons ⟨rfl, hpq.2⟩ hagree)
      · split
        · refine Agree.cons ⟨rfl, ?_⟩ hagree
          show List.filter _ (_ ++ [u]) = List.filter _ (_ ++ [u])
          rw [List.filter_append, List.filter_append, hpq.2]
        · exact Agree.cons hpq (ih (by omega))

theorem Agree.tick (hagree : Agree t l₁ l₂) :
    Agree t (DeltaQueue.tick l₁).1 (DeltaQueue.tick l₂).1 ∧
      (DeltaQueue.tick l₁).2.filter (· ≠ t) = (DeltaQueue.tick l₂).2.filter (· ≠ t) := by
  have hcons : ∀ {p q : Pending T} {l₁ l₂ : DeltaQueue T}, SameEntry t p q → Agree t l₁ l₂ →
      Agree t (DeltaQueue.tick (p :: l₁)).1 (DeltaQueue.tick (q :: l₂)).1 ∧
        (DeltaQueue.tick (p :: l₁)).2.filter (· ≠ t) =
          (DeltaQueue.tick (q :: l₂)).2.filter (· ≠ t) := by
    intro p q l₁ l₂ hpq hrest
    rw [tick_cons, tick_cons, ← hpq.1]
    split
    · exact ⟨hrest, hpq.2⟩
    · exact ⟨Agree.cons ⟨rfl, hpq.2⟩ hrest, rfl⟩
  rcases hagree with hsame | ⟨l, k, rfl, hsame⟩
  · cases hsame with
    | nil => exact ⟨Or.inl List.Forall₂.nil, rfl⟩
    | cons hpq hrest => exact hcons hpq (Or.inl hrest)
  · cases hsame with
    | nil =>
      rw [List.nil_append, tick_cons]
      split
      · refine ⟨Or.inl List.Forall₂.nil, ?_⟩
        show [] = List.filter _ [t]
        simp
      · exact ⟨Or.inr ⟨[], k - 1, rfl, List.Forall₂.nil⟩, rfl⟩
    | cons hpq hrest => exact hcons hpq (Or.inr ⟨_, k, rfl, hrest⟩)

/-- Two queues that agree give logs of the same calls in which everyone but one
waiter is taken out on the same ticks. -/
theorem Agree.wokens_eq (hagree : Agree t l₁ l₂) (hvalid₁ : Valid l₁ log₁) (hvalid₂ : Valid l₂ log₂)
    (hcalls : log₁.map Event.call = log₂.map Event.call) (hpass : Unpassed t l₂ log₂) :
    (wokens log₁).map (List.filter (· ≠ t)) = (wokens log₂).map (List.filter (· ≠ t)) := by
  induction log₁ generalizing l₁ l₂ log₂ with
  | nil =>
    rw [List.map_nil, eq_comm, List.map_eq_nil_iff] at hcalls
    rw [hcalls]
  | cons e₁ log₁ ih =>
    cases log₂ with
    | nil => exact nomatch hcalls
    | cons e₂ log₂ =>
      rw [List.map_cons, List.map_cons, List.cons.injEq] at hcalls
      rcases hcalls with ⟨he, hcalls⟩
      cases e₁ with
      | slept u d =>
        cases e₂ with
        | ticked ws => exact nomatch he
        | slept u' d' =>
          cases he
          show List.map _ (wokens log₁) = List.map _ (wokens log₂)
          exact ih (hagree.sleep (hpass.1 _ rfl)) hvalid₁.2 hvalid₂.2 hcalls hpass.2
      | ticked ws₁ =>
        cases e₂ with
        | slept u' d' => exact nomatch he
        | ticked ws₂ =>
          rcases hagree.tick with ⟨hrest, hws⟩
          rw [← (show ws₁ = _ from hvalid₁.1), ← (show ws₂ = _ from hvalid₂.1)] at hws
          show _ :: List.map _ (wokens log₁) = _ :: List.map _ (wokens log₂)
          rw [hws, ih hrest hvalid₁.2 hvalid₂.2 hcalls hpass.2]

theorem wokenOn_iff_of_wokens_eq
    (heq : (wokens log₁).map (List.filter (· ≠ t)) = (wokens log₂).map (List.filter (· ≠ t)))
    (hne : u ≠ t) (n : Nat) : WokenOn u n log₁ ↔ WokenOn u n log₂ := by
  have hmem : ∀ log : List (Event T), WokenOn u n log ↔
      ∃ ws, ((wokens log).map (List.filter (· ≠ t)))[n]? = some ws ∧ u ∈ ws := by
    intro log
    unfold WokenOn
    rw [List.getElem?_map]
    cases (wokens log)[n]? with
    | none =>
      exact iff_of_false (fun h => nomatch h.choose_spec.1) (fun h => nomatch h.choose_spec.1)
    | some ws => simp [hne]
  rw [hmem, hmem, heq]

/-! ## A split puts someone off -/

/-- A new waiter that neither joins an entry nor goes to the end puts someone
else off by one tick. -/
theorem exists_put_off (hdist : Distinct l) (hfull : ∀ p ∈ l, p.waiters ≠ [])
    (hnone : dueIn t l = none) (hd : ¬(Joins d l ∨ total l ≤ d)) :
    ∃ u k, u ≠ t ∧ dueIn u l = some k ∧ dueIn u (sleep t d l) = some (k + 1) := by
  induction l generalizing d with
  | nil => exact absurd (Or.inr (Nat.zero_le d)) hd
  | cons p l ih =>
    have hp : t ∉ p.waiters := dueIn_eq_none.mp hnone p List.mem_cons_self
    have hl : dueIn t l = none :=
      dueIn_eq_none.mpr (fun q hq => dueIn_eq_none.mp hnone q (List.mem_cons_of_mem p hq))
    unfold Distinct at hdist
    rw [List.flatMap_cons, List.nodup_append] at hdist
    unfold sleep
    by_cases hlt : d < p.left
    · rcases List.exists_mem_of_ne_nil _ (hfull p List.mem_cons_self) with ⟨u, hu⟩
      have hut : u ≠ t := fun h => hp (h ▸ hu)
      refine ⟨u, p.left + 1, hut, ?_, ?_⟩
      · rw [dueIn_cons, if_pos hu]
      · rw [if_pos hlt, dueIn_cons, if_neg (fun h => hut (List.mem_singleton.mp h)), dueIn_cons,
          if_pos hu]
        show some (p.left - d + 1 + (d + 1)) = _
        congr 1
        omega
    · have hne : d ≠ p.left := fun h => hd (Or.inl (Or.inl h))
      have hd' : ¬(Joins (d - p.left) l ∨ total l ≤ d - p.left) := by
        intro h
        apply hd
        rcases h with hj | htot
        · exact Or.inl (Or.inr ⟨by omega, hj⟩)
        · right
          rw [total_cons]
          omega
      rcases ih hdist.2.1 (fun q hq => hfull q (List.mem_cons_of_mem p hq)) hl hd' with
        ⟨u, k, hut, hk, hk'⟩
      have hu : u ∉ p.waiters := by
        intro hmem
        have hin : ∃ q ∈ l, u ∈ q.waiters := by
          by_contra hcon
          have hnot : dueIn u l = none :=
            dueIn_eq_none.mpr (fun q hq hmem' => hcon ⟨q, hq, hmem'⟩)
          rw [hk] at hnot
          cases hnot
        exact hdist.2.2 u hmem u (List.mem_flatMap.mpr hin) rfl
      refine ⟨u, k + (p.left + 1), hut, ?_, ?_⟩
      · rw [dueIn_cons, if_neg hu, hk]
        rfl
      · rw [if_neg hlt, if_neg hne, dueIn_cons, if_neg hu, hk']
        show some (k + 1 + (p.left + 1)) = _
        congr 1
        omega

theorem wokenOn_iff_of_ticks (hvalid : Valid l log) (hticks : ∀ e ∈ log, e.call = none) {k j : Nat}
    (hdue : dueIn u l = some (k + 1)) (hj : j ≤ k) (hlen : j < log.length) :
    WokenOn u j log ↔ j = k := by
  induction log generalizing l k j with
  | nil => exact absurd hlen (Nat.not_lt_zero j)
  | cons e log ih =>
    cases e with
    | slept t d => exact nomatch hticks _ List.mem_cons_self
    | ticked ws =>
      have hws : ws = (DeltaQueue.tick l).2 := hvalid.1
      have hmem : u ∈ ws ↔ k = 0 := by
        rw [hws, mem_tick_iff, hdue, Option.some.injEq]
        omega
      cases j with
      | zero =>
        show (∃ ws', some ws = some ws' ∧ u ∈ ws') ↔ _
        constructor
        · intro h
          rcases h with ⟨ws', heq, hu⟩
          rw [← Option.some.inj heq] at hu
          exact (hmem.mp hu).symm
        · intro h
          exact ⟨ws, rfl, hmem.mpr h.symm⟩
      | succ j =>
        obtain ⟨k', rfl⟩ : ∃ k', k = k' + 1 := ⟨k - 1, by omega⟩
        have hih := ih hvalid.2 (fun e he => hticks e (List.mem_cons_of_mem _ he))
          (dueIn_tick hdue) (Nat.le_of_succ_le_succ hj) (Nat.lt_of_succ_lt_succ hlen)
        show WokenOn u j log ↔ _
        rw [hih]
        omega

end Agree

end DeltaQueue

end SysLib
