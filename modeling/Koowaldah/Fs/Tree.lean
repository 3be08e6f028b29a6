import Koowaldah.Fs.Namespace
import Koowaldah.Lib.Walk

/-!
# The tree of names

A normalized path is a list of parts (`PathName`), and `spell` is its string.  This module
says what `lookup_path` does with one.

* `lookupPath_spell_eq`: the loop goes along the parts, one call of `lookup_direntry`
  for each (`walk`).
* `RootTree` is the invariant of the root file system, and `child` the entry that a
  directory has under a name.  The entries are a tree with the names as labels
  (`RootTree.isTree`).
* `RootTree.lookupPath_spell`: in a tree the result is where the parts lead to.  A part
  in front of the last one that does not fit in the buffer stops the walk there
  (`lookupResult`).
-/

namespace Koowaldah

open SysLib

/-! ## Paths -/

/-- The string `".."`. -/
def DOTDOT : List UInt8 := [0x2e, 0x2e]

/-- A part of a normalized path. -/
structure PartOk (c : List UInt8) : Prop where
  ne_nil : c ≠ []
  slash : SLASH ∉ c
  nul : 0 ∉ c
  ne_dot : c ≠ DOT
  ne_dotdot : c ≠ DOTDOT

/-- A normalized path: its parts, and whether a slash is in front. -/
structure PathName where
  abs : Bool
  comps : List (List UInt8)
  comps_ok : ∀ c ∈ comps, PartOk c

def joined (cs : List (List UInt8)) : List UInt8 := List.intercalate [SLASH] cs

namespace PathName

def spell (p : PathName) : List UInt8 :=
  (if p.abs then [SLASH] else []) ++ joined p.comps

def parent (p : PathName) : PathName where
  abs := p.abs
  comps := p.comps.dropLast
  comps_ok := fun c hc => p.comps_ok c (List.mem_of_mem_dropLast hc)

def last (p : PathName) : List UInt8 := p.comps.getLastD []

end PathName

@[simp] theorem joined_nil : joined [] = [] := rfl

@[simp] theorem joined_singleton (c : List UInt8) : joined [c] = c := by
  simp [joined]

theorem joined_cons_cons (c d : List UInt8) (cs : List (List UInt8)) :
    joined (c :: d :: cs) = c ++ SLASH :: joined (d :: cs) := by
  simp [joined]

theorem joined_concat {cs : List (List UInt8)} (hne : cs ≠ []) (c : List UInt8) :
    joined (cs ++ [c]) = joined cs ++ SLASH :: c := by
  induction cs with
  | nil => exact absurd rfl hne
  | cons a cs ih =>
    cases cs with
    | nil => simp [joined_cons_cons]
    | cons b cs =>
      rw [List.cons_append, List.cons_append, joined_cons_cons, joined_cons_cons,
        ← List.cons_append, ih (List.cons_ne_nil b cs), List.append_assoc, List.cons_append]

theorem slash_ne_zero : SLASH ≠ 0 := by decide

theorem dropWhile_joined {cs : List (List UInt8)} (hok : ∀ c ∈ cs, PartOk c) :
    (joined cs).dropWhile (· == SLASH) = joined cs := by
  cases cs with
  | nil => rfl
  | cons c cs =>
    have hc := hok c List.mem_cons_self
    obtain ⟨x, c', rfl⟩ := List.exists_cons_of_ne_nil hc.ne_nil
    have hx : x ≠ SLASH := fun h => hc.slash (h ▸ List.mem_cons_self)
    have hhead : ∃ l, joined ((x :: c') :: cs) = x :: l := by
      cases cs with
      | nil => exact ⟨c', joined_singleton _⟩
      | cons d cs => exact ⟨_, joined_cons_cons _ _ _⟩
    rcases hhead with ⟨l, hl⟩
    rw [hl, List.dropWhile_cons_of_neg (by simpa using hx)]

theorem PathName.dropWhile_spell (p : PathName) :
    p.spell.dropWhile (· == SLASH) = joined p.comps := by
  unfold spell
  split
  · rw [List.singleton_append, List.dropWhile_cons_of_pos (by simp),
      dropWhile_joined p.comps_ok]
  · rw [List.nil_append, dropWhile_joined p.comps_ok]

theorem joined_eq_nil_iff {cs : List (List UInt8)} (hok : ∀ c ∈ cs, PartOk c) :
    joined cs = [] ↔ cs = [] := by
  cases cs with
  | nil => simp
  | cons c cs =>
    have hc := (hok c List.mem_cons_self).ne_nil
    cases cs with
    | nil => simpa using hc
    | cons d cs => simp [joined_cons_cons]

namespace FsState

/-! ## The walk of `lookup_path` -/

/-- The parts of a path, looked up one after the other from a directory. -/
def walk (s : FsState) : Nat → List (List UInt8) → Option (Option Nat)
  | _, [] => none
  | i, [c] => s.lookupDirentry c i
  | i, c :: d :: cs =>
    if c.length < FILENAME_MAX then
      match s.lookupDirentry c i with
      | none => none
      | some none => some none
      | some (some e) => s.walk (s.enter (s.dents e).dInode) (d :: cs)
    else none

theorem walk_cons_eq_some {s : FsState} {i x : Nat} {c d : List UInt8} {cs : List (List UInt8)} :
    s.walk i (c :: d :: cs) = some (some x) ↔ c.length < FILENAME_MAX ∧
      ∃ e, s.lookupDirentry c i = some (some e) ∧
        s.walk (s.enter (s.dents e).dInode) (d :: cs) = some (some x) := by
  rw [walk]
  rcases s.lookupDirentry c i with - | - | e <;> simp

theorem lookupPathLoop_joined (s : FsState) (c : List UInt8) (cs : List (List UInt8))
    (hok : ∀ x ∈ c :: cs, SLASH ∉ x) (i n : Nat) (hn : (joined (c :: cs)).length < n) :
    s.lookupPathLoop n (joined (c :: cs)) i = s.walk i (c :: cs) := by
  induction cs generalizing c i n with
  | nil =>
    cases n with
    | zero => cases hn
    | succ n =>
      rw [joined_singleton, lookupPathLoop_succ, kstrchr_eq_none (hok c List.mem_cons_self)]
      rfl
  | cons d cs ih =>
    cases n with
    | zero => cases hn
    | succ n =>
      rw [joined_cons_cons] at hn ⊢
      rw [lookupPathLoop_succ, kstrchr_append (hok c List.mem_cons_self), walk]
      dsimp only
      split
      · rw [List.take_left, ← List.drop_drop, List.drop_left]
        rw [List.length_append, List.length_cons] at hn
        have hstep := ih d (fun x hx => hok x (List.mem_cons_of_mem c hx))
        cases s.lookupDirentry c i with
        | none => rfl
        | some r =>
          cases r with
          | none => rfl
          | some e => exact hstep _ n (by omega)
      · rfl

theorem lookupPath_spell_eq (s : FsState) (p : PathName) :
    s.lookupPath p.spell =
      if p.comps = [] then some (some s.nDent) else s.walk s.nInode p.comps := by
  rw [lookupPath_eq, p.dropWhile_spell]
  simp only [joined_eq_nil_iff p.comps_ok]
  cases hcs : p.comps with
  | nil => rfl
  | cons c cs =>
    apply lookupPathLoop_joined
    · intro x hx
      exact (p.comps_ok x (hcs ▸ hx)).slash
    · exact Nat.lt_succ_self _

/-! ## The tree -/

def inodeOf (s : FsState) (d : Nat) : FsInode := s.inodes (s.dents d).dInode

/-- The entry that a directory has under a name. -/
def child (s : FsState) (d : Nat) (c : List UInt8) : Option Nat :=
  if d < s.ndents ∧ S_ISDIR (s.inodeOf d).iMode then
    (s.inodeOf d).iChildren.find? (fun e => cstring (s.dents e).dName == some c)
  else none

/-- A tree of the root file system.  Every entry but the root is in one directory, and
every inode has one entry.  Nothing is mounted, and the names are strings. -/
structure RootTree (s : FsState) : Prop where
  nDent_lt : s.nDent < s.ndents
  root : (s.dents s.nDent).dInode = s.nInode
  dInode_lt : ∀ d < s.ndents, (s.dents d).dInode < s.ninodes
  dInode_inj : ∀ d < s.ndents, ∀ e < s.ndents, (s.dents d).dInode = (s.dents e).dInode → d = e
  child_lt : ∀ i < s.ninodes, ∀ d ∈ (s.inodes i).iChildren, d < s.ndents
  child_ne : ∀ i < s.ninodes, ∀ d ∈ (s.inodes i).iChildren, d ≠ s.nDent
  child_inj : ∀ i < s.ninodes, ∀ j < s.ninodes, ∀ d ∈ (s.inodes i).iChildren,
    d ∈ (s.inodes j).iChildren → i = j
  name : ∀ d < s.ndents, (cstring (s.dents d).dName).isSome ∧
    (s.dents d).dName.length ≤ FILENAME_MAX
  plain : ∀ i < s.ninodes, (s.inodes i).iMount = none ∧ (s.inodes i).iLookup = genericLookup

end FsState

theorem cstring_eq_some {l nm : List UInt8} (h : cstring l = some nm) :
    0 ∉ nm ∧ nm.length < l.length := by
  induction l generalizing nm with
  | nil => cases h
  | cons x l ih =>
    unfold cstring at h
    split at h
    · cases h
      exact ⟨List.not_mem_nil, Nat.succ_pos _⟩
    · rename_i hx
      rcases Option.map_eq_some_iff.mp h with ⟨nm', hnm', rfl⟩
      rcases ih hnm' with ⟨hnul, hlen⟩
      refine ⟨?_, Nat.succ_lt_succ hlen⟩
      rw [List.mem_cons, not_or]
      exact ⟨Ne.symm hx, hnul⟩

theorem cstring_append {l str : List UInt8} (h : cstring l = some str) (r : List UInt8) :
    cstring (l ++ r) = some str := by
  induction l generalizing str with
  | nil => cases h
  | cons x l ih =>
    rw [cstring] at h
    rw [List.cons_append, cstring]
    split at h
    case isTrue hx => rw [if_pos hx, h]
    case isFalse hx =>
      obtain ⟨str', hstr, rfl⟩ := Option.map_eq_some_iff.mp h
      rw [if_neg hx, ih hstr]
      rfl

theorem cstring_append_zero {nm : List UInt8} (h : 0 ∉ nm) (r : List UInt8) :
    cstring (nm ++ 0 :: r) = some nm := by
  induction nm with
  | nil => rfl
  | cons x nm ih =>
    rw [List.mem_cons, not_or] at h
    rw [List.cons_append, cstring, if_neg (Ne.symm h.1), ih h.2]
    rfl

theorem cstring_eq_none {l : List UInt8} (h : 0 ∉ l) : cstring l = none := by
  induction l with
  | nil => rfl
  | cons x l ih =>
    rw [List.mem_cons, not_or] at h
    rw [cstring, if_neg (Ne.symm h.1), ih h.2]
    rfl

namespace FsState

variable {s : FsState}

theorem scanDents_eq {name : List UInt8} (hname : 0 ∉ name) {ds : List Nat}
    (hds : ∀ d ∈ ds, (cstring (s.dents d).dName).isSome) :
    s.scanDents name ds = some (ds.find? (fun d => cstring (s.dents d).dName == some name)) := by
  induction ds with
  | nil => rfl
  | cons d ds ih =>
    rcases Option.isSome_iff_exists.mp (hds d List.mem_cons_self) with ⟨nm, hnm⟩
    have hiff := kstrcmp_eq_zero_iff (cstring_eq_some hnm).1 hname
    rw [scanDents, List.find?_cons, hnm]
    dsimp only
    by_cases heq : nm = name
    · rw [if_pos (hiff.mpr heq), heq, beq_self_eq_true]
    · rw [if_neg (fun h => heq (hiff.mp h)), ih (fun e he => hds e (List.mem_cons_of_mem d he)),
        beq_eq_false_iff_ne.mpr (fun h => heq (Option.some.inj h))]

namespace RootTree

variable (hs : s.RootTree)
include hs

theorem lookupDirentry_eq {d : Nat} (hd : d < s.ndents) {c : List UInt8} (hc : 0 ∉ c) :
    s.lookupDirentry c (s.dents d).dInode = some (s.child d c) := by
  have hi := hs.dInode_lt d hd
  unfold lookupDirentry child inodeOf
  rw [scanDents_eq hc (fun e he => (hs.name e (hs.child_lt _ hi e he)).1),
    (hs.plain _ hi).2]
  by_cases hdir : S_ISDIR (s.inodes (s.dents d).dInode).iMode = true
  · rw [if_pos hdir, if_pos ⟨hd, hdir⟩]
    split
    · rename_i heq
      cases heq
    · rename_i heq
      exact heq.symm
    · rename_i heq
      rw [Option.some.inj heq]
      rfl
  · rw [if_neg hdir, if_neg (fun h => hdir h.2)]

theorem child_eq_some {d k : Nat} {c : List UInt8} (h : s.child d c = some k) :
    d < s.ndents ∧ k ∈ (s.inodeOf d).iChildren ∧ k < s.ndents ∧
      cstring (s.dents k).dName = some c := by
  unfold child at h
  split at h
  · rename_i hd
    have hmem := List.mem_of_find?_eq_some h
    exact ⟨hd.1, hmem, hs.child_lt _ (hs.dInode_lt d hd.1) k hmem,
      by simpa using List.find?_some h⟩
  · cases h

theorem isTree : IsTree s.child s.nDent := by
  constructor
  · intro i j k c d hi hj
    rcases hs.child_eq_some hi with ⟨hi, himem, -, hc⟩
    rcases hs.child_eq_some hj with ⟨hj, hjmem, -, hd⟩
    refine ⟨hs.dInode_inj i hi j hj ?_, Option.some.inj (hc.symm.trans hd)⟩
    exact hs.child_inj _ (hs.dInode_lt i hi) _ (hs.dInode_lt j hj) k himem hjmem
  · intro i c h
    rcases hs.child_eq_some h with ⟨hi, hmem, -, -⟩
    exact hs.child_ne _ (hs.dInode_lt i hi) _ hmem rfl

theorem follow_lt {d e : Nat} (hd : d < s.ndents) {cs : List (List UInt8)}
    (h : follow s.child d cs = some e) : e < s.ndents := by
  rcases follow_eq_some_cases h with ⟨-, rfl⟩ | ⟨ds, c, j, -, -, hj⟩
  · exact hd
  · exact (hs.child_eq_some hj).2.2.1

theorem length_lt_of_follow {d e : Nat} {cs : List (List UInt8)}
    (h : follow s.child d cs = some e) : ∀ c ∈ cs, c.length < FILENAME_MAX := by
  induction cs generalizing d with
  | nil => nofun
  | cons c cs ih =>
    rw [follow_cons] at h
    rcases Option.bind_eq_some_iff.mp h with ⟨j, hj, hrest⟩
    rcases hs.child_eq_some hj with ⟨-, -, hlt, hname⟩
    intro x hx
    rcases List.mem_cons.mp hx with rfl | hx
    · exact Nat.lt_of_lt_of_le (cstring_eq_some hname).2 (hs.name j hlt).2
    · exact ih hrest x hx

end RootTree

/-- The result of `lookup_path`, when `r` says where the parts of a path lead to.  A part
that is not the last has to fit in a buffer. -/
def lookupResult (r : List (List UInt8) → Option Nat) (cs : List (List UInt8)) :
    Option (Option Nat) :=
  if cs.dropLast.all (·.length < FILENAME_MAX) then some (r cs)
  else if (r (cs.takeWhile (·.length < FILENAME_MAX))).isSome then none
  else some none

theorem RootTree.walk_eq (hs : s.RootTree) {d : Nat} (hd : d < s.ndents) (c : List UInt8)
    (cs : List (List UInt8)) (hok : ∀ x ∈ c :: cs, 0 ∉ x) :
    s.walk (s.dents d).dInode (c :: cs) = lookupResult (follow s.child d) (c :: cs) := by
  induction cs generalizing c d with
  | nil =>
    rw [walk, hs.lookupDirentry_eq hd (hok c List.mem_cons_self)]
    unfold lookupResult
    rw [follow_cons]
    cases s.child d c <;> rfl
  | cons e cs ih =>
    have hok' : ∀ x ∈ e :: cs, 0 ∉ x := fun x hx => hok x (List.mem_cons_of_mem c hx)
    rw [walk, hs.lookupDirentry_eq hd (hok c List.mem_cons_self)]
    unfold lookupResult
    rw [List.dropLast_cons_cons, List.all_cons]
    by_cases hc : c.length < FILENAME_MAX
    · rw [List.takeWhile_cons_of_pos (by simpa using hc), follow_cons, follow_cons]
      simp only [hc]
      cases hchild : s.child d c with
      | none => simp
      | some k =>
        have hk := (hs.child_eq_some hchild).2.2.1
        have henter : s.enter (s.dents k).dInode = (s.dents k).dInode := by
          unfold enter
          rw [(hs.plain _ (hs.dInode_lt k hk)).1]
          rfl
        dsimp only
        rw [henter, ih hk e hok']
        rfl
    · simp [hc]

theorem RootTree.lookupPath_spell (hs : s.RootTree) (p : PathName) :
    s.lookupPath p.spell = lookupResult (follow s.child s.nDent) p.comps := by
  rw [lookupPath_spell_eq]
  cases hcs : p.comps with
  | nil => rfl
  | cons c cs =>
    rw [← hs.root]
    apply hs.walk_eq hs.nDent_lt
    intro x hx
    exact (p.comps_ok x (hcs ▸ hx)).nul

end FsState

end Koowaldah
