import Mathlib

/-!
# Two-level tables

A map from pairs of indices to values that is kept in two levels.  A directory
entry is valid or not, and names a table; the value of a pair is the entry of the
table that the first index names, when the directory entry is valid.

`map` puts a value and makes the directory entry valid, and `unmap` takes an entry
out.  Neither looks at the rest of the table, nor at who else uses it.  What they
do to the other pairs is their frame, and `map_frame_iff` and `unmap_frame_iff`
say exactly when there is none: no other valid directory entry may name the same
table with another entry in that place, and a directory entry that becomes valid
must name a table that is empty.
-/

namespace SysLib

/-- A two-level table.  `entry d` is the table that the directory entry `d` names;
directory entries that name the same table have the same entries. -/
@[ext] structure TwoLevel (D I T F : Type) where
  valid : D → Bool
  table : D → T
  entry : D → I → Option F

namespace TwoLevel

variable {D I T F : Type}

def lookup (t : TwoLevel D I T F) (d : D) (i : I) : Option F :=
  if t.valid d then t.entry d i else none

/-- No value but that of one pair is different. -/
def SameBut (d : D) (i : I) (t t' : TwoLevel D I T F) : Prop :=
  ∀ d' j, ¬(d' = d ∧ j = i) → t'.lookup d' j = t.lookup d' j

/-- Another valid directory entry names the same table. -/
def Shared (t : TwoLevel D I T F) (d d' : D) : Prop :=
  d' ≠ d ∧ t.valid d' = true ∧ t.table d' = t.table d

instance [DecidableEq D] [DecidableEq T] (t : TwoLevel D I T F) (d d' : D) :
    Decidable (t.Shared d d') :=
  inferInstanceAs (Decidable (d' ≠ d ∧ t.valid d' = true ∧ t.table d' = t.table d))

theorem lookup_of_valid {t : TwoLevel D I T F} {d : D} (h : t.valid d = true) (i : I) :
    t.lookup d i = t.entry d i := if_pos h

theorem lookup_of_not_valid {t : TwoLevel D I T F} {d : D} (h : ¬t.valid d = true) (i : I) :
    t.lookup d i = none := if_neg h

section Ops

variable [DecidableEq I] [DecidableEq T] {t : TwoLevel D I T F} {d : D} {i : I}

variable {d' : D} {j : I}

/-- Change one entry of the table that `d` names. -/
def setEntry (d : D) (i : I) (v : Option F) (t : TwoLevel D I T F) : D → I → Option F :=
  fun d' j => if t.table d' = t.table d ∧ j = i then v else t.entry d' j

def unmap (d : D) (i : I) (t : TwoLevel D I T F) : TwoLevel D I T F :=
  { t with entry := t.setEntry d i none }

theorem setEntry_self (v : Option F) : t.setEntry d i v d i = v := if_pos ⟨rfl, rfl⟩

theorem setEntry_of_ne (v : Option F) (hj : j ≠ i) :
    t.setEntry d i v d' j = t.entry d' j := if_neg (fun h => hj h.2)

theorem lookup_unmap_self : (t.unmap d i).lookup d i = none := by
  by_cases hv : t.valid d = true
  · exact (lookup_of_valid (t := t.unmap d i) hv i).trans (setEntry_self none)
  · exact lookup_of_not_valid (t := t.unmap d i) hv i

theorem lookup_unmap_of_ne (hj : j ≠ i) : (t.unmap d i).lookup d j = t.lookup d j := by
  by_cases hv : t.valid d = true
  · rw [lookup_of_valid hv]
    exact (lookup_of_valid (t := t.unmap d i) hv j).trans (setEntry_of_ne none hj)
  · rw [lookup_of_not_valid hv]
    exact lookup_of_not_valid (t := t.unmap d i) hv j

variable [DecidableEq D]

theorem setEntry_other (v : Option F) (hd : d' ≠ d) (hv : t.valid d' = true) (j : I) :
    t.setEntry d i v d' j = if t.Shared d d' ∧ j = i then v else t.lookup d' j := by
  unfold setEntry
  rw [lookup_of_valid hv]
  by_cases hs : t.table d' = t.table d ∧ j = i
  · rw [if_pos hs, if_pos ⟨⟨hd, hv, hs.1⟩, hs.2⟩]
  · rw [if_neg hs, if_neg (fun h => hs ⟨h.1.2.2, h.2⟩)]

theorem lookup_unmap_other (hd : d' ≠ d) (j : I) :
    (t.unmap d i).lookup d' j = if t.Shared d d' ∧ j = i then none else t.lookup d' j := by
  by_cases hv : t.valid d' = true
  · exact (lookup_of_valid (t := t.unmap d i) hv j).trans (setEntry_other none hd hv j)
  · rw [if_neg (fun h => hv h.1.2.1), lookup_of_not_valid hv]
    exact lookup_of_not_valid (t := t.unmap d i) hv j

theorem unmap_frame_iff :
    t.SameBut d i (t.unmap d i) ↔ ∀ d', t.Shared d d' → t.lookup d' i = none := by
  constructor
  · intro h d' hs
    have hsame := h d' i (fun h => hs.1 h.1)
    rw [lookup_unmap_other hs.1, if_pos ⟨hs, rfl⟩] at hsame
    exact hsame.symm
  · intro h d' j hne
    by_cases hd : d' = d
    · subst hd
      exact lookup_unmap_of_ne (fun hj => hne ⟨rfl, hj⟩)
    · rw [lookup_unmap_other hd]
      split
      · rename_i hs
        rw [hs.2, h d' hs.1]
      · rfl

/-- Put a value, and make the directory entry valid. -/
def map (d : D) (i : I) (v : F) (t : TwoLevel D I T F) : TwoLevel D I T F :=
  { t with valid := Function.update t.valid d true, entry := t.setEntry d i (some v) }

theorem map_valid_self (v : F) : (t.map d i v).valid d = true := Function.update_self ..

theorem map_valid_other (v : F) (hd : d' ≠ d) : (t.map d i v).valid d' = t.valid d' :=
  Function.update_of_ne hd ..

theorem lookup_map_self (v : F) : (t.map d i v).lookup d i = some v :=
  (lookup_of_valid (map_valid_self v) i).trans (setEntry_self (some v))

theorem lookup_map_of_ne (v : F) (hj : j ≠ i) : (t.map d i v).lookup d j = t.entry d j :=
  (lookup_of_valid (map_valid_self v) j).trans (setEntry_of_ne (some v) hj)

theorem lookup_map_other (v : F) (hd : d' ≠ d) (j : I) :
    (t.map d i v).lookup d' j = if t.Shared d d' ∧ j = i then some v else t.lookup d' j := by
  have hsame : (t.map d i v).valid d' = t.valid d' := map_valid_other v hd
  by_cases hv : t.valid d' = true
  · exact (lookup_of_valid (hsame.trans hv) j).trans (setEntry_other (some v) hd hv j)
  · rw [if_neg (fun h => hv h.1.2.1), lookup_of_not_valid hv]
    exact lookup_of_not_valid (hsame ▸ hv) j

theorem map_frame_iff (v : F) : t.SameBut d i (t.map d i v) ↔
      (t.valid d = true ∨ ∀ j, j ≠ i → t.entry d j = none) ∧
        ∀ d', t.Shared d d' → t.lookup d' i = some v := by
  constructor
  · intro h
    constructor
    · by_cases hv : t.valid d = true
      · exact Or.inl hv
      · right
        intro j hj
        have hsame := h d j (fun h => hj h.2)
        rw [lookup_map_of_ne v hj, lookup_of_not_valid hv] at hsame
        exact hsame
    · intro d' hs
      have hsame := h d' i (fun h => hs.1 h.1)
      rw [lookup_map_other v hs.1, if_pos ⟨hs, rfl⟩] at hsame
      exact hsame.symm
  · intro h d' j hne
    rcases h with ⟨hclean, hshared⟩
    by_cases hd : d' = d
    · subst hd
      have hj : j ≠ i := fun hj => hne ⟨rfl, hj⟩
      rw [lookup_map_of_ne v hj]
      by_cases hv : t.valid d' = true
      · rw [lookup_of_valid hv]
      · rw [lookup_of_not_valid hv]
        exact hclean.resolve_left hv j hj
    · rw [lookup_map_other v hd]
      split
      · rename_i hs
        rw [hs.2, hshared d' hs.1]
      · rfl

end Ops

end TwoLevel

end SysLib
