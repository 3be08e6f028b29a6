import Mathlib

/-!
# Delta queues

A delta queue keeps the waiters of a clock in the order in which they are due.
An entry holds the ticks it has to wait after the entry before it, so a tick
looks at the first entry only.  `sleep` puts a waiter in, and `tick` takes the
first entry out when its ticks are used up.

An entry of `n` ticks takes `n + 1` ticks of the clock: `n` to count down and
one to be taken out.  `dueIn` is the number of the tick that takes a waiter out.
-/

namespace SysLib

/-- An entry: the ticks left after the entry before it, and who waits. -/
structure Pending (T : Type) where
  left : Nat
  waiters : List T
deriving DecidableEq, Repr

/-- The entries, the first one due at the head. -/
abbrev DeltaQueue (T : Type) := List (Pending T)

namespace DeltaQueue

variable {T : Type}

/-- Put in a waiter: split an entry, join an entry, or go to the end. -/
def sleep (t : T) : Nat → DeltaQueue T → DeltaQueue T
  | d, [] => [⟨d, [t]⟩]
  | d, p :: l =>
    if d < p.left then ⟨d, [t]⟩ :: ⟨p.left - d, p.waiters⟩ :: l
    else if d = p.left then ⟨p.left, p.waiters ++ [t]⟩ :: l
    else p :: sleep t (d - p.left) l

/-- One tick: the queue that is left, and the waiters that were taken out. -/
def tick : DeltaQueue T → DeltaQueue T × List T
  | [] => ([], [])
  | p :: l => if p.left = 0 then (l, p.waiters) else (⟨p.left - 1, p.waiters⟩ :: l, [])

def total (l : DeltaQueue T) : Nat := (l.map Pending.left).sum

/-- A new waiter with the delay `d` joins an entry. -/
def Joins : Nat → DeltaQueue T → Prop
  | _, [] => False
  | d, p :: l => d = p.left ∨ p.left < d ∧ Joins (d - p.left) l

def Distinct (l : DeltaQueue T) : Prop := (l.flatMap Pending.waiters).Nodup

theorem sleep_cons (t : T) (d : Nat) (p : Pending T) (l : DeltaQueue T) :
    sleep t d (p :: l) =
      if d < p.left then ⟨d, [t]⟩ :: ⟨p.left - d, p.waiters⟩ :: l
      else if d = p.left then ⟨p.left, p.waiters ++ [t]⟩ :: l
      else p :: sleep t (d - p.left) l := rfl

theorem tick_cons (p : Pending T) (l : DeltaQueue T) :
    tick (p :: l) =
      if p.left = 0 then (l, p.waiters) else (⟨p.left - 1, p.waiters⟩ :: l, []) := rfl

@[simp] theorem total_nil : total ([] : DeltaQueue T) = 0 := rfl

@[simp] theorem total_cons (p : Pending T) (l : DeltaQueue T) :
    total (p :: l) = p.left + total l := rfl

section Basic

variable {t : T} {d : Nat} {l : DeltaQueue T}

/-- The delays that join an entry are the sums of the first entries. -/
theorem joins_iff : Joins d l ↔ ∃ a b, l = a ++ b ∧ a ≠ [] ∧ total a = d := by
  induction l generalizing d with
  | nil =>
    refine iff_of_false id (fun h => ?_)
    rcases h with ⟨a, b, hab, hne, -⟩
    exact hne (List.append_eq_nil_iff.mp hab.symm).1
  | cons p l ih =>
    constructor
    · intro h
      rcases h with heq | ⟨hlt, hjoins⟩
      · exact ⟨[p], l, rfl, List.cons_ne_nil p [], heq.symm⟩
      · rcases ih.mp hjoins with ⟨a, b, rfl, -, hsum⟩
        refine ⟨p :: a, b, rfl, List.cons_ne_nil p a, ?_⟩
        rw [total_cons]
        omega
    · intro h
      rcases h with ⟨a, b, hab, hne, hsum⟩
      rcases List.exists_cons_of_ne_nil hne with ⟨q, a', rfl⟩
      rcases List.cons.inj hab with ⟨rfl, rfl⟩
      rw [total_cons] at hsum
      by_cases hz : total a' = 0
      · exact Or.inl (by omega)
      · right
        refine ⟨by omega, ih.mpr ⟨a', b, rfl, ?_, by omega⟩⟩
        rintro rfl
        exact hz rfl

theorem length_tick_le : (tick l).1.length ≤ l.length := by
  cases l with
  | nil => exact le_rfl
  | cons p l =>
    rw [tick_cons]
    split
    · exact Nat.le_succ _
    · exact le_rfl

theorem Distinct.tick (hdist : Distinct l) : Distinct (tick l).1 := by
  cases l with
  | nil => exact hdist
  | cons p l =>
    rw [tick_cons]
    split
    · unfold Distinct at hdist ⊢
      rw [List.flatMap_cons, List.nodup_append] at hdist
      exact hdist.2.1
    · exact hdist

theorem nodup_tick (hdist : Distinct l) : (tick l).2.Nodup := by
  cases l with
  | nil => exact List.nodup_nil
  | cons p l =>
    rw [tick_cons]
    split
    · unfold Distinct at hdist
      rw [List.flatMap_cons, List.nodup_append] at hdist
      exact hdist.1
    · exact List.nodup_nil

theorem length_sleep_le : (sleep t d l).length ≤ l.length + 1 := by
  induction l generalizing d with
  | nil => exact le_rfl
  | cons p l ih =>
    rw [sleep_cons]
    split
    · exact le_rfl
    · split
      · exact Nat.le_succ _
      · exact Nat.succ_le_succ ih

theorem waiters_sleep_perm :
    ((sleep t d l).flatMap Pending.waiters).Perm (t :: l.flatMap Pending.waiters) := by
  induction l generalizing d with
  | nil => exact List.Perm.refl _
  | cons p l ih =>
    rw [sleep_cons]
    split
    · exact List.Perm.refl _
    · split
      · show (p.waiters ++ [t] ++ l.flatMap Pending.waiters).Perm _
        rw [List.append_assoc]
        exact List.perm_middle
      · show (p.waiters ++ (sleep t (d - p.left) l).flatMap Pending.waiters).Perm _
        exact (ih.append_left p.waiters).trans List.perm_middle

end Basic

/-! ## When a waiter is due -/

variable [DecidableEq T]

/-- The number of the tick that takes a waiter out. -/
def dueIn (u : T) : DeltaQueue T → Option Nat
  | [] => none
  | p :: l => if u ∈ p.waiters then some (p.left + 1) else (dueIn u l).map (· + (p.left + 1))

@[simp] theorem dueIn_nil (u : T) : dueIn u [] = none := rfl

theorem dueIn_cons (u : T) (p : Pending T) (l : DeltaQueue T) :
    dueIn u (p :: l) =
      if u ∈ p.waiters then some (p.left + 1) else (dueIn u l).map (· + (p.left + 1)) := rfl

theorem dueIn_eq_none {u : T} {l : DeltaQueue T} : dueIn u l = none ↔ ∀ p ∈ l, u ∉ p.waiters := by
  induction l with
  | nil => simp
  | cons p l ih =>
    rw [dueIn_cons]
    split
    · rename_i hmem
      exact iff_of_false nofun (fun h => h p List.mem_cons_self hmem)
    · rename_i hmem
      rw [Option.map_eq_none_iff, ih, List.forall_mem_cons]
      exact (and_iff_right hmem).symm

theorem dueIn_pos {u : T} {l : DeltaQueue T} {k : Nat} (h : dueIn u l = some k) : 0 < k := by
  cases l with
  | nil => exact nomatch h
  | cons p l =>
    rw [dueIn_cons] at h
    split at h
    · cases h
      exact Nat.succ_pos _
    · rcases Option.map_eq_some_iff.mp h with ⟨j, -, rfl⟩
      omega

/-! ## Ticks -/

section Tick

variable {u : T} {l : DeltaQueue T} {k : Nat}

theorem mem_tick_iff : u ∈ (tick l).2 ↔ dueIn u l = some 1 := by
  cases l with
  | nil => exact iff_of_false nofun nofun
  | cons p l =>
    rw [tick_cons, dueIn_cons]
    by_cases hz : p.left = 0
    · rw [hz]
      by_cases hmem : u ∈ p.waiters
      · rw [if_pos hmem]
        exact iff_of_true hmem rfl
      · rw [if_neg hmem]
        refine iff_of_false hmem (fun h => ?_)
        rcases Option.map_eq_some_iff.mp h with ⟨j, hj, hone⟩
        have hpos := dueIn_pos hj
        omega
    · rw [if_neg hz]
      refine iff_of_false List.not_mem_nil (fun h => hz ?_)
      split at h
      · have hone := Option.some.inj h
        omega
      · rcases Option.map_eq_some_iff.mp h with ⟨j, -, hone⟩
        omega

theorem dueIn_tick (h : dueIn u l = some (k + 2)) : dueIn u (tick l).1 = some (k + 1) := by
  cases l with
  | nil => exact nomatch h
  | cons p l =>
    rw [tick_cons]
    rw [dueIn_cons] at h
    by_cases hz : p.left = 0
    · rw [if_pos hz]
      split at h
      · have hone := Option.some.inj h
        omega
      · rcases Option.map_eq_some_iff.mp h with ⟨j, hj, hone⟩
        rw [hj]
        congr 1
        omega
    · rw [if_neg hz]
      show dueIn u (⟨p.left - 1, p.waiters⟩ :: l) = _
      rw [dueIn_cons]
      split
      · rename_i hmem
        rw [if_pos hmem] at h
        have hone := Option.some.inj h
        show some (p.left - 1 + 1) = _
        congr 1
        omega
      · rename_i hmem
        rw [if_neg hmem] at h
        rcases Option.map_eq_some_iff.mp h with ⟨j, hj, hone⟩
        rw [hj]
        show some (j + (p.left - 1 + 1)) = _
        congr 1
        omega

theorem dueIn_tick_none (h : dueIn u l = none) : dueIn u (tick l).1 = none := by
  rw [dueIn_eq_none] at h ⊢
  cases l with
  | nil => exact h
  | cons p l =>
    rw [List.forall_mem_cons] at h
    rw [tick_cons]
    split
    · exact h.2
    · show ∀ q ∈ ⟨p.left - 1, p.waiters⟩ :: l, _
      rw [List.forall_mem_cons]
      exact h

theorem dueIn_tick_one (hdist : Distinct l) (h : dueIn u l = some 1) :
    dueIn u (tick l).1 = none := by
  have hmem := mem_tick_iff.mpr h
  cases l with
  | nil => exact nomatch h
  | cons p l =>
    rw [tick_cons] at hmem ⊢
    split at hmem
    · rename_i hz
      rw [if_pos hz, dueIn_eq_none]
      intro q hq hu
      unfold Distinct at hdist
      rw [List.flatMap_cons, List.nodup_append] at hdist
      exact hdist.2.2 u hmem u (List.mem_flatMap.mpr ⟨q, hq, hu⟩) rfl
    · cases hmem

end Tick

/-! ## New waiters -/

section Sleep

variable {t u : T} {d : Nat} {l : DeltaQueue T}

/-- A new waiter leaves the others where they are, or puts them off by one
tick. -/
theorem dueIn_sleep (hne : u ≠ t) :
    dueIn u (sleep t d l) = dueIn u l ∨ dueIn u (sleep t d l) = (dueIn u l).map (· + 1) := by
  have hsing : u ∉ [t] := by
    rw [List.mem_singleton]
    exact hne
  induction l generalizing d with
  | nil =>
    left
    unfold sleep
    rw [dueIn_cons, if_neg hsing]
    rfl
  | cons p l ih =>
    rw [sleep_cons]
    by_cases hlt : d < p.left
    · right
      rw [if_pos hlt, dueIn_cons, if_neg hsing, dueIn_cons, dueIn_cons]
      split
      · show some (p.left - d + 1 + (d + 1)) = some (p.left + 1 + 1)
        congr 1
        omega
      · rw [Option.map_map, Option.map_map]
        congr 1
        funext j
        show j + (p.left - d + 1) + (d + 1) = j + (p.left + 1) + 1
        omega
    · rw [if_neg hlt]
      by_cases heq : d = p.left
      · left
        rw [if_pos heq, dueIn_cons, dueIn_cons]
        simp only [List.mem_append, hsing, or_false]
      · rw [if_neg heq, dueIn_cons, dueIn_cons]
        split
        · exact Or.inl rfl
        · rcases ih (d := d - p.left) with h | h
          · exact Or.inl (by rw [h])
          · right
            rw [h, Option.map_map, Option.map_map]
            congr 1
            funext j
            show j + 1 + (p.left + 1) = j + (p.left + 1) + 1
            omega

/-- The new waiter is due one tick after its delay, and one more for every entry
that it is put behind. -/
theorem dueIn_sleep_self (hnone : dueIn t l = none) :
    ∃ i ≤ l.length, dueIn t (sleep t d l) = some (d + i + 1) := by
  induction l generalizing d with
  | nil =>
    refine ⟨0, le_rfl, ?_⟩
    unfold sleep
    rw [dueIn_cons, if_pos (List.mem_singleton_self t)]
  | cons p l ih =>
    have hp : t ∉ p.waiters := dueIn_eq_none.mp hnone p List.mem_cons_self
    have hl : dueIn t l = none :=
      dueIn_eq_none.mpr (fun q hq => dueIn_eq_none.mp hnone q (List.mem_cons_of_mem p hq))
    rw [sleep_cons]
    by_cases hlt : d < p.left
    · refine ⟨0, Nat.zero_le _, ?_⟩
      rw [if_pos hlt, dueIn_cons, if_pos (List.mem_singleton_self t)]
    · rw [if_neg hlt]
      by_cases heq : d = p.left
      · refine ⟨0, Nat.zero_le _, ?_⟩
        rw [if_pos heq, dueIn_cons, if_pos (List.mem_append_right _ (List.mem_singleton_self t)),
          heq]
      · rw [if_neg heq, dueIn_cons, if_neg hp]
        rcases ih (d := d - p.left) hl with ⟨i, hi, hdue⟩
        refine ⟨i + 1, Nat.succ_le_succ hi, ?_⟩
        rw [hdue]
        show some (d - p.left + i + 1 + (p.left + 1)) = _
        congr 1
        omega

theorem Distinct.sleep (hdist : Distinct l) (hnone : dueIn t l = none) :
    Distinct (sleep t d l) := by
  unfold Distinct at hdist ⊢
  rw [waiters_sleep_perm.nodup_iff, List.nodup_cons]
  refine ⟨?_, hdist⟩
  intro hmem
  rcases List.mem_flatMap.mp hmem with ⟨p, hp, ht⟩
  exact dueIn_eq_none.mp hnone p hp ht

end Sleep

end DeltaQueue

end SysLib
