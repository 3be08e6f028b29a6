import Mathlib

/-!
# Conflicts of configuration options

A model of `process_konfig` of `konfig/ktree.c`, and of `kopt_isset` and `kopt_setval` of
`konfig/konfigure.c`.  The table `KOPT` is a list of options, and `ARRSIZE` of a list of
conflicts is its length.  What is printed on the way is left out.

`process_konfig` goes through the table once, and unsets by name what is in conflict with
an option that is set.

* In a table with different names a search by name finds the option
  (`TableOk.koptIsset_pos_iff`), and so one round changes every option by itself
  (`TableOk.processOption_eq`).
* A change is always from set to `N` (`Lowers`), and what is unset stays so.
* An option that is still set after its round has no conflict that is set
  (`checked_processOption`), in this round and in all the later ones (`Checked.map`).

`processKonfig_spec` puts this together.
-/

namespace Koowaldah

variable {t : List Koption}

/-- The type of an option with its value. -/
inductive KoptValue where
  | bool (v : UInt8)
  | tristate (v : UInt8)
  | int (v : BitVec 32)
  | string (v : List UInt8)
deriving DecidableEq, Repr

structure Koption where
  name : List UInt8
  conflicts : List (List UInt8)
  value : KoptValue
  userSet : Nat
deriving DecidableEq, Repr

/-- The string `"OPT_"`. -/
def OPT_TAG : List UInt8 := [0x4f, 0x50, 0x54, 0x5f]

/-- The string `"N"`. -/
def NO : List UInt8 := [0x4e]

/-- The name without `"OPT_"` in front. -/
def stripOpt (name : List UInt8) : List UInt8 :=
  if name.take 4 = OPT_TAG then name.drop 4 else name

def atoi (val : List UInt8) : Int :=
  let s := val.dropWhile (fun c => c = 0x20 ∨ 0x09 ≤ c ∧ c ≤ 0x0d)
  let number := fun s : List UInt8 =>
    ((s.takeWhile (fun c => 0x30 ≤ c ∧ c ≤ 0x39)).foldl (fun n c => 10 * n + (c.toNat - 0x30)) 0 :
      Nat)
  match s with
  | 0x2d :: s => -number s
  | 0x2b :: s => number s
  | s => number s

namespace Koption

/-- The value that `kopt_setval` gives to an option it has found. -/
def setval (val : List UInt8) (o : Koption) : Koption :=
  { o with
    value := match o.value with
      | .bool _ => .bool (val.headD 0)
      | .tristate _ => .tristate (val.headD 0)
      | .int _ => .int (BitVec.ofInt 32 (atoi val))
      | .string _ => .string val
    userSet := o.userSet + 1 }

/-- The number for a value that is a character: 2 for `M`, 1 for `Y`. -/
def issetChar (v : UInt8) : Int := if v = 0x4d then 2 else if v = 0x59 then 1 else 0

/-- The value that `kopt_isset` returns for an option it has found. -/
def isset (o : Koption) : Int :=
  match o.value with
  | .bool v => issetChar v
  | .tristate v => issetChar v
  | _ => -1

def IsSet (o : Koption) : Prop := 0 < o.isset

instance (o : Koption) : Decidable o.IsSet := inferInstanceAs (Decidable (0 < o.isset))

end Koption

def koptIsset (t : List Koption) (name : List UInt8) : Int :=
  match t.find? (fun o => o.name = stripOpt name) with
  | none => -1
  | some o => o.isset

/-- The loop of `kopt_setval`. -/
def koptSetvalLoop (name val : List UInt8) : List Koption → List Koption × Int
  | [] => ([], -1)
  | o :: os =>
    if o.name = name then (o.setval val :: os, 0)
    else
      let (os, ret) := koptSetvalLoop name val os
      (o :: os, ret)

def koptSetval (t : List Koption) (name val : List UInt8) : List Koption × Int :=
  koptSetvalLoop (stripOpt name) val t

/-- The body of the inner loop of `process_konfig`. -/
def unsetConflict (t : List Koption) (c : List UInt8) : List Koption :=
  if koptIsset t c > 0 then (koptSetval t c NO).1 else t

/-- The body of the outer loop of `process_konfig`. -/
def processOption (t : List Koption) (i : Nat) : List Koption :=
  match t[i]? with
  | none => t
  | some o =>
    if koptIsset t o.name > 0 ∧ o.conflicts.length ≠ 0 then o.conflicts.foldl unsetConflict t
    else t

def processKonfig (t : List Koption) : List Koption :=
  (List.range t.length).foldl processOption t

/-! ## One option -/

namespace Koption

variable {o o' o'' : Koption}

theorem IsSet.setval_value (h : o.IsSet) (val : List UInt8) :
    (o.setval val).value = .bool (val.headD 0) ∨
      (o.setval val).value = .tristate (val.headD 0) := by
  unfold IsSet isset at h
  unfold setval
  cases hv : o.value with
  | bool v => exact .inl rfl
  | tristate v => exact .inr rfl
  | int v =>
    rw [hv] at h
    exact absurd (show (0 : Int) < -1 from h) (by decide)
  | string v =>
    rw [hv] at h
    exact absurd (show (0 : Int) < -1 from h) (by decide)

theorem not_isSet_setval (h : o.IsSet) : ¬(o.setval NO).IsSet := by
  unfold IsSet isset
  rcases h.setval_value NO with hv | hv
  · rw [hv]
    decide
  · rw [hv]
    decide

/-- What happens to an option: nothing, or it was set and is unset. -/
def Lowers (o o' : Koption) : Prop := o' = o ∨ (o.IsSet ∧ o' = o.setval NO)

theorem Lowers.trans (h : Lowers o o') (h' : Lowers o' o'') : Lowers o o'' := by
  rcases h with rfl | ⟨hset, rfl⟩
  · exact h'
  · rcases h' with rfl | ⟨hset', -⟩
    · exact .inr ⟨hset, rfl⟩
    · exact absurd hset' (not_isSet_setval hset)

theorem Lowers.same (h : Lowers o o') : o'.name = o.name ∧ o'.conflicts = o.conflicts := by
  rcases h with rfl | ⟨-, rfl⟩
  · exact ⟨rfl, rfl⟩
  · exact ⟨rfl, rfl⟩

theorem Lowers.eq_of_isSet (h : Lowers o o') (hset : o'.IsSet) : o' = o := by
  rcases h with heq | ⟨hold, rfl⟩
  · exact heq
  · exact absurd hset (not_isSet_setval hold)

/-- Unset an option that has the name and is set. -/
def unsetNamed (c : List UInt8) (o : Koption) : Koption :=
  if o.name = stripOpt c ∧ o.IsSet then o.setval NO else o

/-- Unset an option that has one of the names and is set. -/
def unsetAll (cs : List (List UInt8)) (o : Koption) : Koption :=
  cs.foldl (fun o c => unsetNamed c o) o

theorem unsetNamed_lowers (c : List UInt8) (o : Koption) : Lowers o (unsetNamed c o) := by
  unfold unsetNamed
  split
  · rename_i h
    exact .inr ⟨h.2, rfl⟩
  · exact .inl rfl

theorem unsetAll_lowers (cs : List (List UInt8)) (o : Koption) : Lowers o (unsetAll cs o) := by
  induction cs generalizing o with
  | nil => exact .inl rfl
  | cons c cs ih => exact (unsetNamed_lowers c o).trans (ih (unsetNamed c o))

theorem not_isSet_unsetAll {cs : List (List UInt8)} {c : List UInt8} (hc : c ∈ cs)
    (hname : o.name = stripOpt c) : ¬(unsetAll cs o).IsSet := by
  induction cs generalizing o with
  | nil => cases hc
  | cons d cs ih =>
    intro hset
    have hsame := (unsetNamed_lowers d o).same.1
    rcases List.mem_cons.mp hc with rfl | hc
    · -- after the first round it is unset, and stays so
      have heq : unsetAll cs (unsetNamed c o) = unsetNamed c o :=
        (unsetAll_lowers cs _).eq_of_isSet hset
      have hset' : (unsetNamed c o).IsSet := heq ▸ hset
      have hsame' := (unsetNamed_lowers c o).eq_of_isSet hset'
      rw [hsame'] at hset'
      unfold unsetNamed at hsame'
      rw [if_pos ⟨hname, hset'⟩] at hsame'
      exact not_isSet_setval hset' (hsame'.symm ▸ hset')
    · exact ih hc (hsame.trans hname) hset

theorem unsetAll_eq_self {cs : List (List UInt8)}
    (h : ∀ c ∈ cs, o.name = stripOpt c → ¬o.IsSet) : unsetAll cs o = o := by
  induction cs with
  | nil => rfl
  | cons c cs ih =>
    have hsame : unsetNamed c o = o := by
      unfold unsetNamed
      rw [if_neg]
      intro hc
      exact h c List.mem_cons_self hc.1 hc.2
    show unsetAll cs (unsetNamed c o) = o
    rw [hsame]
    exact ih (fun d hd => h d (List.mem_cons_of_mem c hd))

end Koption

open Koption

/-! ## The table -/

/-- The names are different, and none begins with `"OPT_"`. -/
structure TableOk (t : List Koption) : Prop where
  nodup : (t.map Koption.name).Nodup
  plain : ∀ o ∈ t, o.name.take 4 ≠ OPT_TAG

namespace TableOk

variable {t : List Koption} (ht : TableOk t)
include ht

theorem map {f : Koption → Koption} (hf : ∀ o, Lowers o (f o)) : TableOk (t.map f) := by
  constructor
  · have hnames : t.map (Koption.name ∘ f) = t.map Koption.name :=
      List.map_congr_left (fun o _ => (hf o).same.1)
    rw [List.map_map, hnames]
    exact ht.nodup
  · intro o ho
    rcases List.mem_map.mp ho with ⟨x, hx, rfl⟩
    rw [(hf x).same.1]
    exact ht.plain x hx

theorem eq_of_name {o o' : Koption} (ho : o ∈ t) (ho' : o' ∈ t) (h : o.name = o'.name) : o = o' :=
  List.inj_on_of_nodup_map ht.nodup ho ho' h

theorem koptIsset_pos_iff (name : List UInt8) :
    0 < koptIsset t name ↔ ∃ o ∈ t, o.name = stripOpt name ∧ o.IsSet := by
  unfold koptIsset
  constructor
  · intro hpos
    split at hpos
    · exact absurd hpos (by decide)
    · rename_i o hfind
      exact ⟨o, List.mem_of_find?_eq_some hfind, by simpa using List.find?_some hfind, hpos⟩
  · intro h
    rcases h with ⟨o, ho, hname, hset⟩
    cases hfind : t.find? (fun o => decide (o.name = stripOpt name)) with
    | none =>
      have hne := List.find?_eq_none.mp hfind o ho
      exact absurd (decide_eq_true hname) hne
    | some x =>
      have hx : x.name = stripOpt name := by simpa using List.find?_some hfind
      rw [ht.eq_of_name (List.mem_of_find?_eq_some hfind) ho (hx.trans hname.symm)]
      exact hset

theorem koptSetvalLoop_eq (name val : List UInt8) :
    (koptSetvalLoop name val t).1 = t.map (fun o => if o.name = name then o.setval val else o) := by
  have hnodup := ht.nodup
  clear ht
  induction t with
  | nil => rfl
  | cons o os ih =>
    rw [List.map_cons, List.nodup_cons] at hnodup
    unfold koptSetvalLoop
    rw [List.map_cons]
    by_cases hname : o.name = name
    · rw [if_pos hname, if_pos hname]
      have hrest : os.map (fun o => if o.name = name then o.setval val else o) = os := by
        rw [List.map_congr_left (g := id), List.map_id]
        intro x hx
        rw [if_neg, id]
        intro hx'
        exact hnodup.1 (List.mem_map.mpr ⟨x, hx, hx'.trans hname.symm⟩)
      rw [hrest]
    · rw [if_neg hname, if_neg hname]
      dsimp only
      rw [ih hnodup.2]

theorem unsetConflict_eq (c : List UInt8) : unsetConflict t c = t.map (unsetNamed c) := by
  unfold unsetConflict koptSetval
  by_cases hpos : koptIsset t c > 0
  · rw [if_pos hpos, ht.koptSetvalLoop_eq]
    rcases (ht.koptIsset_pos_iff c).mp hpos with ⟨x, hx, hname, hset⟩
    apply List.map_congr_left
    intro o ho
    unfold unsetNamed
    by_cases hname' : o.name = stripOpt c
    · rw [ht.eq_of_name ho hx (hname'.trans hname.symm), if_pos hname, if_pos ⟨hname, hset⟩]
    · rw [if_neg hname', if_neg (fun h => hname' h.1)]
  · rw [if_neg hpos, List.map_congr_left (g := id), List.map_id]
    intro o ho
    unfold unsetNamed
    rw [if_neg, id]
    intro h
    exact hpos ((ht.koptIsset_pos_iff c).mpr ⟨o, ho, h.1, h.2⟩)

theorem foldl_unsetConflict (cs : List (List UInt8)) :
    cs.foldl unsetConflict t = t.map (unsetAll cs) := by
  induction cs generalizing t with
  | nil => exact (List.map_id t).symm
  | cons c cs ih =>
    rw [List.foldl_cons, ht.unsetConflict_eq, ih (ht.map (unsetNamed_lowers c)), List.map_map]
    rfl

/-- A round on an option that is set unsets its conflicts, and any other round does
nothing. -/
theorem processOption_eq {i : Nat} {o : Koption} (hi : t[i]? = some o) :
    processOption t i = if o.IsSet then t.map (unsetAll o.conflicts) else t := by
  have ho := List.mem_of_getElem? hi
  have hname : stripOpt o.name = o.name := if_neg (ht.plain o ho)
  have hpos : koptIsset t o.name > 0 ↔ o.IsSet := by
    constructor
    · intro h
      rcases (ht.koptIsset_pos_iff _).mp h with ⟨x, hx, hx', hset⟩
      rw [← ht.eq_of_name hx ho (hx'.trans hname)]
      exact hset
    · intro h
      exact (ht.koptIsset_pos_iff _).mpr ⟨o, ho, hname.symm, h⟩
  unfold processOption
  rw [hi]
  dsimp only
  by_cases hset : o.IsSet
  · rw [if_pos hset]
    by_cases hlen : o.conflicts.length = 0
    · rw [if_neg (fun h => h.2 hlen), List.eq_nil_of_length_eq_zero hlen]
      exact (List.map_id t).symm
    · rw [if_pos ⟨hpos.mpr hset, hlen⟩, ht.foldl_unsetConflict]
  · rw [if_neg hset, if_neg (fun h => hset (hpos.mp h.1))]

theorem processOption_cases (i : Nat) :
    ∃ f, (∀ o, Lowers o (f o)) ∧ processOption t i = t.map f := by
  cases hi : t[i]? with
  | none =>
    refine ⟨id, fun o => .inl rfl, ?_⟩
    unfold processOption
    rw [hi, List.map_id]
  | some o =>
    rw [ht.processOption_eq hi]
    split
    · exact ⟨_, unsetAll_lowers o.conflicts, rfl⟩
    · exact ⟨id, fun o => .inl rfl, (List.map_id t).symm⟩

end TableOk

/-! ## The pass -/

/-- If option `i` is set then none of its conflicts is. -/
def Checked (t : List Koption) (i : Nat) : Prop :=
  ∀ o, t[i]? = some o → o.IsSet → ∀ c ∈ o.conflicts, ∀ x ∈ t, x.name = stripOpt c → ¬x.IsSet

theorem Checked.map {i : Nat} (h : Checked t i) {f : Koption → Koption} (hf : ∀ o, Lowers o (f o)) :
    Checked (t.map f) i := by
  intro o ho hset c hc x hx hname hxset
  rw [List.getElem?_map] at ho
  rcases Option.map_eq_some_iff.mp ho with ⟨o₀, ho₀, rfl⟩
  rcases List.mem_map.mp hx with ⟨x₀, hx₀, rfl⟩
  have heq := (hf o₀).eq_of_isSet hset
  have heqx := (hf x₀).eq_of_isSet hxset
  rw [heq] at hset hc
  rw [heqx] at hname hxset
  exact h o₀ ho₀ hset c hc x₀ hx₀ hname hxset

theorem checked_processOption (ht : TableOk t) (i : Nat) : Checked (processOption t i) i := by
  cases hi : t[i]? with
  | none =>
    have hsame : processOption t i = t := by
      unfold processOption
      rw [hi]
    rw [hsame]
    intro o ho
    rw [hi] at ho
    cases ho
  | some o =>
    rw [ht.processOption_eq hi]
    by_cases hset : o.IsSet
    · rw [if_pos hset]
      intro o' ho' hset' c hc x hx hname
      rw [List.getElem?_map, hi, Option.map_some, Option.some.injEq] at ho'
      rcases List.mem_map.mp hx with ⟨x₀, -, rfl⟩
      rw [← ho', (unsetAll_lowers _ o).same.2] at hc
      rw [(unsetAll_lowers _ x₀).same.1] at hname
      exact not_isSet_unsetAll hc hname
    · rw [if_neg hset]
      intro o' ho' hset'
      rw [hi] at ho'
      exact absurd (Option.some.inj ho' ▸ hset') hset

/-- What holds after the first `k` rounds. -/
structure PassInv (t₀ t : List Koption) (k : Nat) : Prop where
  ok : TableOk t
  lowers : ∃ f, (∀ o, Lowers o (f o)) ∧ t = t₀.map f
  checked : ∀ i < k, Checked t i

theorem PassInv.step {t₀ : List Koption} {k : Nat} (h : PassInv t₀ t k) :
    PassInv t₀ (processOption t k) (k + 1) := by
  rcases h.ok.processOption_cases k with ⟨f, hf, heq⟩
  rcases h.lowers with ⟨g, hg, hgt⟩
  constructor
  case ok =>
    rw [heq]
    exact h.ok.map hf
  case lowers =>
    refine ⟨f ∘ g, fun o => (hg o).trans (hf (g o)), ?_⟩
    rw [heq, hgt, List.map_map]
  case checked =>
    intro i hi
    rcases Nat.lt_succ_iff_lt_or_eq.mp hi with hi | rfl
    · rw [heq]
      exact (h.checked i hi).map hf
    · exact checked_processOption h.ok i

theorem passInv_range (ht : TableOk t) (k : Nat) :
    PassInv t ((List.range k).foldl processOption t) k := by
  induction k with
  | zero => exact ⟨ht, ⟨id, fun o => .inl rfl, (List.map_id t).symm⟩, nofun⟩
  | succ k ih =>
    rw [List.range_succ, List.foldl_append]
    exact ih.step

theorem processKonfig_of_checked (ht : TableOk t) (h : ∀ i < t.length, Checked t i) :
    processKonfig t = t := by
  have hround : ∀ i < t.length, processOption t i = t := by
    intro i hi
    have hget := List.getElem?_eq_getElem hi
    rw [ht.processOption_eq hget]
    split
    · rename_i hset
      rw [List.map_congr_left (g := id), List.map_id]
      intro x hx
      exact unsetAll_eq_self (fun c hc hname => h i hi _ hget hset c hc x hx hname)
    · rfl
  have hrange : ∀ is : List Nat, (∀ i ∈ is, i < t.length) → is.foldl processOption t = t := by
    intro is his
    induction is with
    | nil => rfl
    | cons i is ih =>
      rw [List.foldl_cons, hround i (his i List.mem_cons_self)]
      exact ih (fun j hj => his j (List.mem_cons_of_mem i hj))
  exact hrange _ (fun i hi => List.mem_range.mp hi)

/-- No option that is set has a conflict that is set. -/
def ConflictFree (t : List Koption) : Prop :=
  ∀ o ∈ t, o.IsSet → ∀ c ∈ o.conflicts, ∀ x ∈ t, x.name = stripOpt c → ¬x.IsSet

/-- An option is what it was, or it was set and has the value `N`. -/
def OnlyUnset (o o' : Koption) : Prop :=
  o'.name = o.name ∧ o'.conflicts = o.conflicts ∧
    (o'.value = o.value ∨
      (o.IsSet ∧ (o'.value = .bool 0x4e ∨ o'.value = .tristate 0x4e)))

theorem Koption.Lowers.onlyUnset {o o' : Koption} (h : Lowers o o') : OnlyUnset o o' := by
  refine ⟨h.same.1, h.same.2, ?_⟩
  rcases h with rfl | ⟨hset, rfl⟩
  · exact .inl rfl
  · exact .inr ⟨hset, hset.setval_value NO⟩

/-- After `process_konfig` no option that is set has a conflict that is set, the values that
changed went from set to `N`, and a second pass changes nothing. -/
theorem processKonfig_spec {t : List Koption} (ht : TableOk t) :
    ConflictFree (processKonfig t) ∧ List.Forall₂ OnlyUnset t (processKonfig t) ∧
      (processKonfig (processKonfig t)).map Koption.value =
        (processKonfig t).map Koption.value := by
  have hpass : PassInv t (processKonfig t) t.length := passInv_range ht t.length
  rcases hpass.lowers with ⟨f, hf, heq⟩
  have hlen : (processKonfig t).length = t.length := by rw [heq, List.length_map]
  refine ⟨?_, ?_, ?_⟩
  · intro o ho
    rcases List.mem_iff_getElem?.mp ho with ⟨i, hi⟩
    have hlt := (List.getElem?_eq_some_iff.mp hi).1
    exact hpass.checked i (hlen ▸ hlt) o hi
  · rw [heq, List.forall₂_map_right_iff, List.forall₂_same]
    exact fun o _ => (hf o).onlyUnset
  · rw [processKonfig_of_checked hpass.ok (fun i hi => hpass.checked i (hlen ▸ hi))]

/-- Two options that are set, of which the first is in conflict with itself and the
second. -/
def sampleTable : List Koption :=
  [⟨[0x41], [[0x42], [0x41]], .bool 0x59, 0⟩,
    ⟨[0x42], [[0x4f, 0x50, 0x54, 0x5f, 0x41]], .tristate 0x4d, 0⟩]

theorem processKonfig_sampleTable : ConflictFree (processKonfig sampleTable) ∧
      (processKonfig sampleTable).map Koption.value = [.bool 0x4e, .tristate 0x4e] :=
  ⟨(processKonfig_spec ⟨by decide, by decide⟩).1, by decide⟩

end Koowaldah
