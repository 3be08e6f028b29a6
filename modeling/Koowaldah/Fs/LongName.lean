import Koowaldah.Fs.Insert

/-!
# Names that fill the buffer

An entry whose name fills `d_name` has no NUL behind it, and a search that comes to it
reads past the end of the array.  This module says that nothing repairs a directory with
such an entry in it.

* `Shape` is what is left of `RootTree` when a name may be too long.
* `Unreachable` is kept by all the calls on relative paths
  (`Unreachable.fsInsertEntry`), and the path does not resolve while it holds
  (`Unreachable.lookupPath_ne`).
-/

namespace Koowaldah

open SysLib

namespace FsState

variable {i parent : Nat} {name : List UInt8}

/-- What holds of the entries when names may be too long. -/
structure Shape (s : FsState) : Prop where
  nInode_lt : s.nInode < s.ninodes
  dInode_lt : ∀ d < s.ndents, (s.dents d).dInode < s.ninodes
  child_lt : ∀ i < s.ninodes, ∀ d ∈ (s.inodes i).iChildren, d < s.ndents
  plain : ∀ i < s.ninodes, (s.inodes i).iMount = none ∧ (s.inodes i).iLookup = genericLookup

variable {s s' : FsState}

theorem RootTree.shape (hs : s.RootTree) : s.Shape :=
  ⟨hs.root ▸ hs.dInode_lt _ hs.nDent_lt, hs.dInode_lt, hs.child_lt, hs.plain⟩

theorem Shape.enter_eq (hs : s.Shape) (hi : i < s.ninodes) : s.enter i = i := by
  unfold enter
  rw [(hs.plain i hi).1]
  rfl

theorem Added.shape {mode dev : Nat} (h : Added s s' parent name mode dev) (hs : s.Shape)
    (hparent : parent < s.ninodes) : s'.Shape := by
  constructor
  case nInode_lt =>
    rw [h.nInode, h.ninodes]
    exact Nat.lt_succ_of_lt hs.nInode_lt
  case dInode_lt => exact h.dInode_lt hs.dInode_lt
  case child_lt => exact h.child_lt hparent hs.child_lt
  case plain => exact h.plain hparent hs.plain

/-! ## Searches -/

theorem mem_of_scanDents {ds : List Nat} {d : Nat} (h : s.scanDents name ds = some (some d)) :
    d ∈ ds := by
  induction ds with
  | nil => cases h
  | cons x ds ih =>
    unfold scanDents at h
    split at h
    · cases h
    · split at h
      · rw [← Option.some.inj (Option.some.inj h)]
        exact List.mem_cons_self
      · exact List.mem_cons_of_mem x (ih h)

theorem Added.scanDents_of_lt {mode dev : Nat} (h : Added s s' parent name mode dev)
    (c : List UInt8) {ds : List Nat} (hds : ∀ d ∈ ds, d < s.ndents) :
    s'.scanDents c ds = s.scanDents c ds := by
  induction ds with
  | nil => rfl
  | cons d ds ih =>
    rw [scanDents, scanDents, h.dents_of_lt (hds d List.mem_cons_self),
      ih (fun x hx => hds x (List.mem_cons_of_mem d hx))]

namespace Shape

variable (hs : s.Shape)

variable {i : Nat}

include hs

theorem lookupDirentry_dir (hi : i < s.ninodes) (hdir : S_ISDIR (s.inodes i).iMode = true)
    (c : List UInt8) : s.lookupDirentry c i = s.scanDents c (s.inodes i).iChildren := by
  unfold lookupDirentry
  rw [if_pos hdir, (hs.plain i hi).2]
  cases s.scanDents c (s.inodes i).iChildren with
  | none => rfl
  | some r => cases r <;> rfl

theorem lookupDirentry_lt {d : Nat} {c : List UInt8} (hi : i < s.ninodes)
    (h : s.lookupDirentry c i = some (some d)) : d < s.ndents := by
  by_cases hdir : S_ISDIR (s.inodes i).iMode = true
  · rw [hs.lookupDirentry_dir hi hdir] at h
    exact hs.child_lt i hi d (mem_of_scanDents h)
  · unfold lookupDirentry at h
    rw [if_neg hdir] at h
    cases h

/-- A search that found an entry or went wrong does not find another one when an entry is
added, to a directory where the search for its name came to an end. -/
theorem lookupDirentry_added {parent mode dev : Nat} {name c : List UInt8}
    (h : Added s s' parent name mode dev) (hparent : parent < s.ninodes) (hnul : 0 ∉ name)
    (hc : 0 ∉ c) (hend : s.lookupDirentry name parent = some none) (hi : i < s.ninodes)
    (hr : s.lookupDirentry c i ≠ some none) :
    s'.lookupDirentry c i = s.lookupDirentry c i ∨ s'.lookupDirentry c i = none := by
  have hs' := h.shape hs hparent
  have hi' : i < s'.ninodes := by
    rw [h.ninodes]
    exact Nat.lt_succ_of_lt hi
  have hscan := h.scanDents_of_lt c (hs.child_lt i hi)
  have hdir : S_ISDIR (s.inodes i).iMode = true := by
    by_contra hdir
    apply hr
    unfold lookupDirentry
    rw [if_neg hdir]
  by_cases hp : i = parent
  · subst hp
    have hdir' : S_ISDIR (s'.inodes i).iMode = true := by
      rw [h.inodes_parent]
      exact hdir
    rw [hs'.lookupDirentry_dir hi' hdir', h.inodes_parent, scanDents, h.dents_new]
    rw [cstring_storedName hnul, hscan, hs.lookupDirentry_dir hi hdir]
    by_cases hlen : name.length < FILENAME_MAX
    · -- the new entry is not the one that is searched for
      have hne : kstrcmp name c ≠ 0 := by
        intro hcmp
        rw [(kstrcmp_eq_zero_iff hnul hc).mp hcmp] at hend
        exact hr hend
      left
      rw [if_pos hlen]
      dsimp only
      rw [if_neg hne]
    · right
      rw [if_neg hlen]
  · have hinode := h.inodes_old i (Nat.ne_of_lt hi) hp
    left
    rw [hs'.lookupDirentry_dir hi' (by rw [hinode]; exact hdir), hinode, hscan,
      hs.lookupDirentry_dir hi hdir]

/-! ## Walks -/

theorem walk_added {parent mode dev : Nat} {name : List UInt8} {cs : List (List UInt8)}
    (h : Added s s' parent name mode dev) (hparent : parent < s.ninodes) (hnul : 0 ∉ name)
    (hcs : ∀ c ∈ cs, 0 ∉ c) (hend : s.lookupDirentry name parent = some none) (hi : i < s.ninodes)
    (hr : s.walk i cs ≠ some none) : s'.walk i cs = s.walk i cs ∨ s'.walk i cs = none := by
  have hs' := h.shape hs hparent
  induction cs generalizing i with
  | nil => exact .inl rfl
  | cons c cs ih =>
    have hc := hcs c List.mem_cons_self
    cases cs with
    | nil => exact hs.lookupDirentry_added h hparent hnul hc hend hi hr
    | cons d cs =>
      rw [walk] at hr
      rw [walk, walk]
      by_cases hlen : c.length < FILENAME_MAX
      · rw [if_pos hlen] at hr
        rw [if_pos hlen, if_pos hlen]
        have hne : s.lookupDirentry c i ≠ some none := by
          intro heq
          rw [heq] at hr
          exact hr rfl
        rcases hs.lookupDirentry_added h hparent hnul hc hend hi hne with heq | hnone
        · rw [heq]
          cases hlook : s.lookupDirentry c i with
          | none => exact .inl rfl
          | some r =>
            cases r with
            | none => exact absurd hlook hne
            | some x =>
              have hx := hs.lookupDirentry_lt hi hlook
              have hinode := hs.dInode_lt x hx
              rw [hlook] at hr
              dsimp only at hr ⊢
              rw [hs.enter_eq hinode] at hr
              rw [h.dents_of_lt hx, hs.enter_eq hinode,
                hs'.enter_eq (h.ninodes ▸ Nat.lt_succ_of_lt hinode)]
              exact ih (fun y hy => hcs y (List.mem_cons_of_mem c hy)) hinode hr
        · rw [hnone]
          exact .inr rfl
      · rw [if_neg hlen, if_neg hlen]
        exact .inl rfl

theorem walk_lt {e : Nat} {cs : List (List UInt8)} (hi : i < s.ninodes)
    (h : s.walk i cs = some (some e)) : e < s.ndents := by
  induction cs generalizing i with
  | nil => cases h
  | cons c cs ih =>
    cases cs with
    | nil => exact hs.lookupDirentry_lt hi h
    | cons d cs =>
      rcases walk_cons_eq_some.mp h with ⟨-, x, hlook, hrest⟩
      have hinode := hs.dInode_lt x (hs.lookupDirentry_lt hi hlook)
      rw [hs.enter_eq hinode] at hrest
      exact ih hinode hrest

end Shape

theorem walk_concat {cs : List (List UInt8)} {e : Nat} {c : List UInt8} {r : Option Nat}
    (h : s.walk i cs = some (some e)) (hr : s.walk i (cs ++ [c]) = some r) :
    s.lookupDirentry c (s.enter (s.dents e).dInode) = some r := by
  induction cs generalizing i with
  | nil => cases h
  | cons a cs ih =>
    cases cs with
    | nil =>
      have ha : s.lookupDirentry a i = some (some e) := h
      rw [List.singleton_append, walk, ha] at hr
      split at hr
      · exact hr
      · cases hr
    | cons b cs =>
      rcases walk_cons_eq_some.mp h with ⟨hlen, x, ha, hrest⟩
      rw [List.cons_append, List.cons_append, walk, if_pos hlen, ha] at hr
      exact ih hrest hr

/-! ## Calls -/

variable {p : PathName} {mode dev : Nat} {buf : Option Nat} {len : Nat}

theorem exists_dir_of_fsInsertEntry (hne : p.comps ≠ []) (hnested : p.parent.comps ≠ [])
    (hnew : s.lookupPath p.spell = some none)
    (h : s.fsInsertEntry p.spell mode dev buf len = some s') :
    ∃ e, s.lookupPath p.parent.spell = some (some e) := by
  obtain ⟨k, hk⟩ := Nat.exists_eq_succ_of_ne_zero (parent_spell_length_ne_zero hnested)
  have htake : (p.parent.spell ++ SLASH :: p.last).take (k + 1) = p.parent.spell :=
    List.take_left' hk
  unfold fsInsertEntry insertTarget at h
  rw [PathOps.insertTarget_result, if_neg (PathName.kstrcmp_dot_ne hne), run_lookupPath, hnew] at h
  rw [PathName.spell_of_nested hne hnested,
    kstrrchr_append slash_ne_zero (PathName.last_ok hne).slash, hk] at h
  dsimp only [Option.map_some] at h
  rw [htake, run_lookupPath] at h
  cases hlook : s.lookupPath p.parent.spell with
  | none => simp [hlook] at h
  | some r =>
    cases r with
    | none => simp [hlook] at h
    | some e => exact ⟨e, rfl⟩

/-- A call on a relative path adds nothing, or adds an entry to a directory where the
search for its name came to an end. -/
theorem Shape.fsInsertEntry_cases (hs : s.Shape) (hrel : p.abs = false) (hne : p.comps ≠ [])
    (h : s.fsInsertEntry p.spell mode dev buf len = some s') :
    s' = s ∨ ∃ parent < s.ninodes, Added s s' parent p.last mode dev ∧
      s.lookupDirentry p.last parent = some none := by
  cases hlook : s.lookupPath p.spell with
  | none =>
    unfold fsInsertEntry insertTarget at h
    rw [PathOps.insertTarget_result, if_neg (PathName.kstrcmp_dot_ne hne), run_lookupPath,
      hlook] at h
    cases h
  | some r =>
    cases r with
    | some d =>
      rw [fsInsertEntry_of_found hlook] at h
      exact .inl (Option.some.inj h).symm
    | none =>
      right
      by_cases htop : p.parent.comps = []
      · have hspell : p.spell = p.last := by
          rw [PathName.spell_of_top hne htop, hrel]
          rfl
        rw [fsInsertEntry_of_top hne htop hlook, hspell] at h
        rw [lookupPath_of_top hne htop] at hlook
        exact ⟨s.nInode, hs.nInode_lt, insertAt_added hs.nInode_lt h, hlook⟩
      · rcases exists_dir_of_fsInsertEntry hne htop hlook h with ⟨e, he⟩
        rw [fsInsertEntry_of_nested hne htop hlook he] at h
        rw [lookupPath_spell_eq, if_neg htop] at he
        rw [lookupPath_spell_eq, if_neg hne, PathName.comps_eq hne] at hlook
        have hinode := hs.dInode_lt e (hs.walk_lt hs.nInode_lt he)
        have hend := walk_concat he hlook
        rw [hs.enter_eq hinode] at hend
        split at h
        · exact ⟨_, hinode, insertAt_added hinode h, hend⟩
        · cases h

/-- The directory of `p` is the inode `i`, if a walk still comes to it. -/
def DirAt (s : FsState) (p : PathName) (i : Nat) : Prop :=
  (p.parent.comps = [] ∧ i = s.nInode) ∨
    (p.parent.comps ≠ [] ∧ (s.walk s.nInode p.parent.comps = none ∨
      ∃ e < s.ndents, s.walk s.nInode p.parent.comps = some (some e) ∧ (s.dents e).dInode = i))

theorem DirAt.added (h : s.DirAt p i) (hs : s.Shape) (hadd : Added s s' parent name mode dev)
    (hparent : parent < s.ninodes) (hnul : 0 ∉ name)
    (hend : s.lookupDirentry name parent = some none) : s'.DirAt p i := by
  unfold DirAt
  rw [hadd.nInode]
  rcases h with htop | ⟨hnested, hdir⟩
  · exact .inl htop
  · have hnuls : ∀ c ∈ p.parent.comps, 0 ∉ c := fun c hc => (p.parent.comps_ok c hc).nul
    have hwalk := hs.walk_added hadd hparent hnul hnuls hend hs.nInode_lt
    refine .inr ⟨hnested, ?_⟩
    rcases hdir with hnone | ⟨e, he, hsome, hi⟩
    · rw [hnone, or_self] at hwalk
      exact .inl (hwalk nofun)
    · rw [hsome] at hwalk
      rcases hwalk nofun with hsame | hnone
      · refine .inr ⟨e, ?_, hsame, ?_⟩
        · rw [hadd.ndents]
          exact Nat.lt_succ_of_lt he
        · rw [hadd.dents_of_lt he, hi]
      · exact .inl hnone

/-- The search for the name of `p` in its directory goes wrong. -/
structure Unreachable (s : FsState) (p : PathName) (i : Nat) : Prop where
  shape : s.Shape
  inode_lt : i < s.ninodes
  search : s.lookupDirentry p.last i = none
  dir : s.DirAt p i

theorem Unreachable.lookupPath_ne (h : s.Unreachable p i) (hne : p.comps ≠ []) (d : Nat) :
    s.lookupPath p.spell ≠ some (some d) := by
  intro hd
  rcases h.dir with ⟨htop, hi⟩ | ⟨hnested, hdir⟩
  · rw [lookupPath_of_top hne htop, ← hi, h.search] at hd
    cases hd
  · rw [lookupPath_spell_eq, if_neg hne, PathName.comps_eq hne] at hd
    rcases walk_concat_inv hnested hd with ⟨x, hx, hlast⟩
    rcases hdir with hnone | ⟨e, -, he, hi⟩
    · rw [hnone] at hx
      cases hx
    · obtain rfl := Option.some.inj (Option.some.inj (hx.symm.trans he))
      rw [hi, h.shape.enter_eq h.inode_lt, h.search] at hlast
      cases hlast

theorem Unreachable.added (h : s.Unreachable p i) (hne : p.comps ≠ [])
    (hadd : Added s s' parent name mode dev) (hparent : parent < s.ninodes) (hnul : 0 ∉ name)
    (hend : s.lookupDirentry name parent = some none) : s'.Unreachable p i := by
  constructor
  case shape => exact hadd.shape h.shape hparent
  case inode_lt =>
    rw [hadd.ninodes]
    exact Nat.lt_succ_of_lt h.inode_lt
  case search =>
    have hr : s.lookupDirentry p.last i ≠ some none := by
      rw [h.search]
      nofun
    have hlook := h.shape.lookupDirentry_added hadd hparent hnul (PathName.last_ok hne).nul hend
      h.inode_lt hr
    rw [h.search, or_self] at hlook
    exact hlook
  case dir => exact h.dir.added h.shape hadd hparent hnul hend

theorem Unreachable.fsInsertEntry {q : PathName} (h : s.Unreachable p i) (hne : p.comps ≠ [])
    (hrel : q.abs = false) (hq : q.comps ≠ [])
    (hcall : s.fsInsertEntry q.spell mode dev buf len = some s') : s'.Unreachable p i := by
  rcases h.shape.fsInsertEntry_cases hrel hq hcall with rfl | ⟨parent, hparent, hadd, hend⟩
  · exact h
  · exact h.added hne hadd hparent (PathName.last_ok hq).nul hend

theorem RootTree.unreachable_of_added {e : Nat} (hs : s.RootTree) (hne : p.comps ≠ [])
    (hparent : s.lookupPath p.parent.spell = some (some e)) (hdir : S_ISDIR (s.inodeOf e).iMode)
    (hnew : s.lookupPath p.spell = some none) (hadd : Added s s' (s.dents e).dInode p.last mode dev)
    (hlen : ¬p.last.length < FILENAME_MAX) : s'.Unreachable p (s.dents e).dInode := by
  have hnul := (PathName.last_ok hne).nul
  have he := hs.follow_lt hs.nDent_lt (hs.follow_parent hparent)
  have hinode := hs.dInode_lt e he
  have hend : s.lookupDirentry p.last (s.dents e).dInode = some none := by
    rw [hs.lookupDirentry_eq he hnul, hs.child_last_eq_none hne hparent hnew]
  constructor
  case shape => exact hadd.shape hs.shape hinode
  case inode_lt =>
    rw [hadd.ninodes]
    exact Nat.lt_succ_of_lt hinode
  case search => rw [hadd.lookupDirentry_parent hs he hdir hnul hnul, if_neg hlen]
  case dir =>
    apply DirAt.added _ hs.shape hadd hinode hnul hend
    rw [lookupPath_spell_eq] at hparent
    by_cases htop : p.parent.comps = []
    · rw [if_pos htop, Option.some.injEq, Option.some.injEq] at hparent
      exact .inl ⟨htop, by rw [← hparent, hs.root]⟩
    · rw [if_neg htop] at hparent
      exact .inr ⟨htop, .inr ⟨e, he, hparent, rfl⟩⟩

end FsState

end Koowaldah
