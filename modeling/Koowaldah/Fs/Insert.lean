import Koowaldah.Fs.Tree

/-!
# Inserting an entry

`fs_insert_entry` splits a path at its last slash, and `lookup_path` at every one.  This
module compares the two.

`Added` is all that an insertion does to the names.  It keeps the tree (`Added.rootTree`) and
adds a leaf to it (`Added.addLeaf`).

A path that is a name behind a single slash goes wrong.  The last slash is the first
character, and the entry is stored under a name with the slash in it.  No lookup finds it
(`insert_absolute_not_found`).
-/

namespace Koowaldah

open Function SysLib

/-! ## Pages for a file -/

/-- The zone has `n` pages to give, one after the other. -/
def Zone.CanAlloc : Nat → Zone → Prop
  | 0, _ => True
  | n + 1, z => (rawAllocPages z 0).2.isSome ∧ CanAlloc n (rawAllocPages z 0).1

theorem stuffLoop_isSome_iff (n : Nat) {z : Zone} {mem : ByteMem} {pages : List Nat}
    {src left : Nat} : (stuffLoop n z mem pages src left).isSome ↔
      (n = 0 ∨ pages.length + n ≤ INODE_PAGES) ∧ z.CanAlloc n := by
  induction n generalizing z mem pages src left with
  | zero => simp [stuffLoop, Zone.CanAlloc]
  | succ n ih =>
    rw [stuffLoop, Zone.CanAlloc]
    by_cases hroom : pages.length < INODE_PAGES
    · rw [if_pos hroom]
      cases hpg : (rawAllocPages z 0).2 with
      | none => simp [hpg]
      | some pg =>
        simp only [hpg]
        rw [ih, List.length_append, List.length_singleton]
        simp only [Option.isSome_some, true_and]
        constructor
        · intro h
          exact ⟨.inr (by omega), h.2⟩
        · intro h
          exact ⟨by omega, h.2⟩
    · rw [if_neg hroom]
      simp only [Option.isSome_none, Bool.false_eq_true, false_iff]
      omega

namespace FsState

def Stuffs (mode : Nat) (buf : Option Nat) (len : Nat) : Prop :=
  buf.isSome ∧ S_ISREG mode ∧ len ≠ 0

/-- There are pages for the contents.  `fs_stuff_inode` takes one page more than a
length that is a multiple of the page size needs. -/
def HasPages (s : FsState) (mode : Nat) (buf : Option Nat) (len : Nat) : Prop :=
  Stuffs mode buf len →
    len / PAGE_SIZE < INODE_PAGES ∧ s.zone.CanAlloc (len / PAGE_SIZE + 1)

/-! ## One more entry -/

/-- The bytes that `new_direntry` stores of a name. -/
def storedName (name : List UInt8) : List UInt8 :=
  (name ++ [0]).take (min FILENAME_MAX (kstrlen name + 1))

/-- The state `s'` is `s` with a new inode and its entry, in the directory `parent`. -/
structure Added (s s' : FsState) (parent : Nat) (name : List UInt8) (mode dev : Nat) :
    Prop where
  ndents : s'.ndents = s.ndents + 1
  ninodes : s'.ninodes = s.ninodes + 1
  nDent : s'.nDent = s.nDent
  nInode : s'.nInode = s.nInode
  dents_old : ∀ d, d ≠ s.ndents → s'.dents d = s.dents d
  dents_new : s'.dents s.ndents = ⟨storedName name, s.ninodes, 1⟩
  inodes_old : ∀ i, i ≠ s.ninodes → i ≠ parent → s'.inodes i = s.inodes i
  inodes_parent : s'.inodes parent =
    { s.inodes parent with iChildren := s.ndents :: (s.inodes parent).iChildren }
  mode_new : (s'.inodes s.ninodes).iMode = mode
  dev_new : (s'.inodes s.ninodes).iDev = dev
  children_new : (s'.inodes s.ninodes).iChildren = []
  plain_new : (s'.inodes s.ninodes).iMount = none ∧
    (s'.inodes s.ninodes).iLookup = genericLookup

variable {s s' : FsState} {parent : Nat} {name : List UInt8} {mode dev : Nat}

theorem fsAddEntry_added (hparent : parent < s.ninodes) :
    Added s (s.fsAddEntry parent name mode dev).1 parent name mode dev := by
  have hne := Nat.ne_of_lt hparent
  constructor
  case dents_old =>
    intro d hd
    simp [FsState.fsAddEntry, setInode, setDent, newDirentry, newInode, hd]
  case inodes_old =>
    intro i hi hp
    simp [FsState.fsAddEntry, setInode, setDent, newDirentry, newInode, update_apply,
      hi, hp]
  all_goals
    simp [FsState.fsAddEntry, setInode, setDent, newDirentry, newInode, storedName, hne, hne.symm]

theorem storedName_of_lt (h : name.length < FILENAME_MAX) : storedName name = name ++ [0] := by
  unfold storedName kstrlen
  rw [Nat.min_eq_right (by omega), List.take_of_length_le (by simp)]

theorem storedName_of_le (h : FILENAME_MAX ≤ name.length) :
    storedName name = name.take FILENAME_MAX := by
  unfold storedName kstrlen
  rw [Nat.min_eq_left (by omega), List.take_append_of_le_length h]

theorem cstring_storedName (hnul : 0 ∉ name) :
    cstring (storedName name) = if name.length < FILENAME_MAX then some name else none := by
  split
  · rename_i h
    rw [storedName_of_lt h, cstring_append_zero hnul]
  · rename_i h
    rw [storedName_of_le (Nat.le_of_not_lt h)]
    exact cstring_eq_none (fun hmem => hnul (List.mem_of_mem_take hmem))

namespace Added

variable (h : Added s s' parent name mode dev)

variable {d : Nat}

include h

theorem dents_of_lt (hd : d < s.ndents) : s'.dents d = s.dents d :=
  h.dents_old d (Nat.ne_of_lt hd)

theorem lt_cases (hd : d < s'.ndents) : d < s.ndents ∨ d = s.ndents := by
  rw [h.ndents] at hd
  omega

theorem find?_of_lt {ds : List Nat} (c : List UInt8) (hds : ∀ d ∈ ds, d < s.ndents) :
    ds.find? (fun d => cstring (s'.dents d).dName == some c) =
      ds.find? (fun d => cstring (s.dents d).dName == some c) := by
  induction ds with
  | nil => rfl
  | cons d ds ih =>
    rw [List.find?_cons, List.find?_cons, h.dents_of_lt (hds d List.mem_cons_self),
      ih (fun x hx => hds x (List.mem_cons_of_mem d hx))]

theorem mem_children (hparent : parent < s.ninodes) {i : Nat} (hi : i < s'.ninodes)
    (hd : d ∈ (s'.inodes i).iChildren) :
    (i = parent ∧ d = s.ndents) ∨ (i < s.ninodes ∧ d ∈ (s.inodes i).iChildren) := by
  by_cases hp : i = parent
  · rw [hp, h.inodes_parent] at hd
    rcases List.mem_cons.mp hd with hd | hd
    · exact .inl ⟨hp, hd⟩
    · exact .inr ⟨hp ▸ hparent, hp ▸ hd⟩
  by_cases hnew : i = s.ninodes
  · rw [hnew, h.children_new] at hd
    cases hd
  · rw [h.inodes_old i hnew hp] at hd
    rw [h.ninodes] at hi
    exact .inr ⟨by omega, hd⟩

theorem dInode_lt (hs : ∀ d < s.ndents, (s.dents d).dInode < s.ninodes) :
    ∀ d < s'.ndents, (s'.dents d).dInode < s'.ninodes := by
  intro d hd
  rw [h.ninodes]
  rcases h.lt_cases hd with hd | rfl
  · rw [h.dents_of_lt hd]
    exact Nat.lt_succ_of_lt (hs d hd)
  · rw [h.dents_new]
    exact Nat.lt_succ_self _

theorem child_lt (hparent : parent < s.ninodes)
    (hs : ∀ i < s.ninodes, ∀ d ∈ (s.inodes i).iChildren, d < s.ndents) :
    ∀ i < s'.ninodes, ∀ d ∈ (s'.inodes i).iChildren, d < s'.ndents := by
  intro i hi d hd
  rw [h.ndents]
  rcases h.mem_children hparent hi hd with ⟨-, rfl⟩ | ⟨hi, hd⟩
  · exact Nat.lt_succ_self _
  · exact Nat.lt_succ_of_lt (hs i hi d hd)

theorem plain (hparent : parent < s.ninodes) (hs : ∀ i < s.ninodes,
      (s.inodes i).iMount = none ∧ (s.inodes i).iLookup = genericLookup) : ∀ i < s'.ninodes,
      (s'.inodes i).iMount = none ∧ (s'.inodes i).iLookup = genericLookup := by
  intro i hi
  rw [h.ninodes] at hi
  by_cases hp : i = parent
  · rw [hp, h.inodes_parent]
    exact hs parent hparent
  by_cases hnew : i = s.ninodes
  · rw [hnew]
    exact h.plain_new
  · rw [h.inodes_old i hnew hp]
    exact hs i (by omega)

theorem rootTree (hs : s.RootTree) (hparent : parent < s.ninodes) (hnul : 0 ∉ name)
    (hlen : name.length < FILENAME_MAX) : s'.RootTree := by
  constructor
  case nDent_lt =>
    rw [h.nDent, h.ndents]
    exact Nat.lt_succ_of_lt hs.nDent_lt
  case root => rw [h.nDent, h.dents_of_lt hs.nDent_lt, hs.root, h.nInode]
  case dInode_lt => exact h.dInode_lt hs.dInode_lt
  case dInode_inj =>
    intro d hd e he heq
    rcases h.lt_cases hd with hd | rfl <;> rcases h.lt_cases he with he | rfl
    · rw [h.dents_of_lt hd, h.dents_of_lt he] at heq
      exact hs.dInode_inj d hd e he heq
    · rw [h.dents_of_lt hd, h.dents_new] at heq
      exact absurd heq (Nat.ne_of_lt (hs.dInode_lt d hd))
    · rw [h.dents_of_lt he, h.dents_new] at heq
      exact absurd heq.symm (Nat.ne_of_lt (hs.dInode_lt e he))
    · rfl
  case child_lt => exact h.child_lt hparent hs.child_lt
  case child_ne =>
    intro i hi d hd
    rw [h.nDent]
    rcases h.mem_children hparent hi hd with ⟨-, rfl⟩ | ⟨hi, hd⟩
    · exact (Nat.ne_of_lt hs.nDent_lt).symm
    · exact hs.child_ne i hi d hd
  case child_inj =>
    intro i hi j hj d hdi hdj
    rcases h.mem_children hparent hi hdi with ⟨hip, hdn⟩ | ⟨hi, hdi⟩
    · rcases h.mem_children hparent hj hdj with ⟨hjp, -⟩ | ⟨hj, hdj⟩
      · exact hip.trans hjp.symm
      · exact absurd (hdn ▸ hs.child_lt j hj d hdj) (Nat.lt_irrefl _)
    · rcases h.mem_children hparent hj hdj with ⟨-, hdn⟩ | ⟨hj, hdj⟩
      · exact absurd (hdn ▸ hs.child_lt i hi d hdi) (Nat.lt_irrefl _)
      · exact hs.child_inj i hi j hj d hdi hdj
  case name =>
    intro d hd
    rcases h.lt_cases hd with hd | rfl
    · rw [h.dents_of_lt hd]
      exact hs.name d hd
    · rw [h.dents_new]
      rw [cstring_storedName hnul, if_pos hlen, storedName_of_lt hlen, List.length_append]
      exact ⟨rfl, hlen⟩
  case plain => exact h.plain hparent hs.plain

end Added

theorem Added.addLeaf {e : Nat} (h : Added s s' (s.dents e).dInode name mode dev)
    (hs : s.RootTree) (he : e < s.ndents) (hdir : S_ISDIR (s.inodeOf e).iMode)
    (habsent : s.child e name = none) (hnul : 0 ∉ name) (hlen : name.length < FILENAME_MAX) :
    AddLeaf s.child s'.child s.nDent e name s.ndents := by
  have hnewName : cstring (s'.dents s.ndents).dName = some name := by
    rw [h.dents_new, cstring_storedName hnul, if_pos hlen]
  constructor
  case absent => exact habsent
  case root_ne => exact (Nat.ne_of_lt hs.nDent_lt).symm
  case fresh =>
    intro j d hj
    exact absurd (hs.child_eq_some hj).2.2.1 (Nat.lt_irrefl _)
  case new =>
    have hinode : s'.inodeOf e = { s.inodeOf e with
        iChildren := s.ndents :: (s.inodeOf e).iChildren } := by
      unfold inodeOf
      rw [h.dents_of_lt he, h.inodes_parent]
    unfold child
    rw [hinode, if_pos ⟨by rw [h.ndents]; omega, hdir⟩, List.find?_cons, hnewName,
      beq_self_eq_true]
  case leaf =>
    intro d
    have hinode : (s'.inodeOf s.ndents).iChildren = [] := by
      unfold inodeOf
      rw [h.dents_new]
      exact h.children_new
    unfold child
    rw [hinode, List.find?_nil, ite_self]
  case old =>
    intro j d hj hd
    by_cases hlt : j < s.ndents
    · have hfind := h.find?_of_lt d (hs.child_lt _ (hs.dInode_lt j hlt))
      have hlt' : j < s'.ndents := by
        rw [h.ndents]
        exact Nat.lt_succ_of_lt hlt
      by_cases hp : (s.dents j).dInode = (s.dents e).dInode
      · have hne := hd (hs.dInode_inj j hlt e he hp)
        unfold child inodeOf
        rw [h.dents_of_lt hlt, hp, h.inodes_parent]
        rw [List.find?_cons, hnewName,
          beq_eq_false_iff_ne.mpr (fun h => hne (Option.some.inj h).symm), ← hp, hfind]
        simp only [hlt, hlt']
      · have hnew := Nat.ne_of_lt (hs.dInode_lt j hlt)
        unfold child inodeOf
        rw [h.dents_of_lt hlt, h.inodes_old _ hnew hp, hfind]
        simp only [hlt, hlt']
    · have hlt' : ¬j < s'.ndents := by
        rw [h.ndents]
        omega
      unfold child
      rw [if_neg (fun h => hlt' h.1), if_neg (fun h => hlt h.1)]

/-! ## The call -/

theorem stuffInode_eq_some {inode src len : Nat} (h : s.stuffInode inode src len = some s') :
    ∃ file, fsStuffInode s.zone s.mem (S_ISCHR (s.inodes inode).iMode) src len =
        some (s'.zone, s'.mem, file) ∧
      s'.inodes inode = { s.inodes inode with
        iSize := file.iSize, iPages := file.iPages, iFilled := file.iFilled } ∧
      (∀ i, i ≠ inode → s'.inodes i = s.inodes i) ∧ s'.dents = s.dents ∧
      s'.ndents = s.ndents ∧ s'.ninodes = s.ninodes ∧ s'.nDent = s.nDent ∧
      s'.nInode = s.nInode := by
  rcases Option.map_eq_some_iff.mp h with ⟨⟨z, mem, file⟩, hfile, rfl⟩
  exact ⟨file, hfile, update_self .., fun i hi => update_of_ne hi .., rfl, rfl,
    rfl, rfl, rfl⟩

theorem Added.stuffInode {s₁ : FsState} (h : Added s s₁ parent name mode dev)
    (hparent : parent < s.ninodes) {src len : Nat}
    (hstuff : s₁.stuffInode s.ninodes src len = some s') : Added s s' parent name mode dev := by
  rcases stuffInode_eq_some hstuff with
    ⟨file, -, hself, hothers, hdents, hndents, hninodes, hnDent, hnInode⟩
  constructor
  case ndents => rw [hndents, h.ndents]
  case ninodes => rw [hninodes, h.ninodes]
  case nDent => rw [hnDent, h.nDent]
  case nInode => rw [hnInode, h.nInode]
  case dents_old =>
    intro d hd
    rw [hdents, h.dents_old d hd]
  case dents_new => rw [hdents, h.dents_new]
  case inodes_old =>
    intro i hi hp
    rw [hothers i hi, h.inodes_old i hi hp]
  case inodes_parent => rw [hothers parent (Nat.ne_of_lt hparent), h.inodes_parent]
  all_goals rw [hself]
  case mode_new => exact h.mode_new
  case dev_new => exact h.dev_new
  case children_new => exact h.children_new
  case plain_new => exact h.plain_new

variable {buf : Option Nat} {len : Nat}

theorem insertAt_added (hparent : parent < s.ninodes)
    (h : s.insertAt parent name mode dev buf len = some s') : Added s s' parent name mode dev := by
  have hadded : Added s (s.fsAddEntry parent name mode dev).1 parent name mode dev :=
    fsAddEntry_added hparent
  unfold insertAt at h
  cases buf with
  | none => exact Option.some.inj h ▸ hadded
  | some src =>
    dsimp only at h
    split at h
    · exact hadded.stuffInode hparent h
    · exact Option.some.inj h ▸ hadded

theorem insertAt_isSome_iff :
    (s.insertAt parent name mode dev buf len).isSome ↔ s.HasPages mode buf len := by
  unfold insertAt HasPages Stuffs
  cases buf with
  | none => simp
  | some src =>
    dsimp only
    split
    · rename_i hstuffs
      unfold FsState.stuffInode fsStuffInode
      rw [Option.isSome_map, Option.isSome_map, stuffLoop_isSome_iff]
      simp only [List.length_nil, Option.isSome_some, hstuffs, ne_eq, not_false_eq_true,
        and_self, forall_const]
      constructor
      · intro h
        exact ⟨by omega, h.2⟩
      · intro h
        exact ⟨.inr (by omega), h.2⟩
    · rename_i hstuffs
      simp only [Option.isSome_some, true_and, true_iff]
      intro h
      exact absurd h hstuffs

end FsState

/-! ## The directory and the name of a path -/

namespace PathName

variable {p : PathName}

section

variable (hne : p.comps ≠ [])

include hne

theorem comps_eq : p.comps = p.parent.comps ++ [p.last] := by
  unfold parent last
  rw [List.getLastD_eq_getLast?, List.getLast?_eq_some_getLast hne]
  exact (List.dropLast_append_getLast hne).symm

theorem last_ok : PartOk p.last := by
  apply p.comps_ok
  rw [comps_eq hne]
  exact List.mem_append_right _ (List.mem_singleton_self _)

theorem spell_of_top (htop : p.parent.comps = []) :
    p.spell = (if p.abs then [SLASH] else []) ++ p.last := by
  unfold spell
  rw [comps_eq hne, htop, List.nil_append, joined_singleton]

theorem spell_of_nested (hnested : p.parent.comps ≠ []) :
    p.spell = p.parent.spell ++ SLASH :: p.last := by
  unfold spell
  rw [comps_eq hne, joined_concat hnested, ← List.append_assoc]
  rfl

end

theorem nul_not_mem_joined {cs : List (List UInt8)} (hok : ∀ c ∈ cs, 0 ∉ c) : 0 ∉ joined cs := by
  induction cs with
  | nil => exact List.not_mem_nil
  | cons c cs ih =>
    have hc := hok c List.mem_cons_self
    cases cs with
    | nil => rwa [joined_singleton]
    | cons d cs =>
      rw [joined_cons_cons, List.mem_append, List.mem_cons]
      intro h
      rcases h with h | h | h
      · exact hc h
      · exact slash_ne_zero h.symm
      · exact ih (fun x hx => hok x (List.mem_cons_of_mem c hx)) h

theorem nul_not_mem_spell (p : PathName) : 0 ∉ p.spell := by
  unfold spell
  rw [List.mem_append]
  intro h
  rcases h with h | h
  · split at h
    · exact slash_ne_zero (List.mem_singleton.mp h).symm
    · cases h
  · exact nul_not_mem_joined (fun c hc => (p.comps_ok c hc).nul) h

theorem kstrcmp_dot_ne (hne : p.comps ≠ []) : kstrcmp p.spell DOT ≠ 0 := by
  intro hcmp
  have heq := (kstrcmp_eq_zero_iff p.nul_not_mem_spell (by decide)).mp hcmp
  have hlast := last_ok hne
  by_cases htop : p.parent.comps = []
  · rw [spell_of_top hne htop] at heq
    cases habs : p.abs with
    | false =>
      rw [habs] at heq
      exact hlast.ne_dot heq
    | true =>
      rw [habs] at heq
      exact absurd (List.cons.inj heq).1 (by decide)
  · have hmem : SLASH ∈ p.spell := by
      rw [spell_of_nested hne htop]
      exact List.mem_append_right _ List.mem_cons_self
    rw [heq] at hmem
    exact absurd hmem (by decide)

end PathName

namespace FsState

variable {s : FsState} {p : PathName} {mode dev : Nat} {buf : Option Nat} {len : Nat}

variable {d : Nat} {r : List (List UInt8) → Option Nat} {cs : List (List UInt8)}

theorem fsInsertEntry_of_found {path : List UInt8} (h : s.lookupPath path = some (some d)) :
    s.fsInsertEntry path mode dev buf len = some s := by
  have htarget : s.insertTarget path = some none := by
    unfold insertTarget
    rw [PathOps.insertTarget_result, run_lookupPath, h]
    split <;> rfl
  unfold fsInsertEntry
  rw [htarget]

theorem fsInsertEntry_of_top (hne : p.comps ≠ []) (htop : p.parent.comps = [])
    (hnew : s.lookupPath p.spell = some none) (mode dev : Nat) (buf : Option Nat) (len : Nat) :
    s.fsInsertEntry p.spell mode dev buf len =
      s.insertAt s.nInode p.spell mode dev buf len := by
  unfold fsInsertEntry insertTarget
  rw [PathOps.insertTarget_result, if_neg (PathName.kstrcmp_dot_ne hne), run_lookupPath, hnew]
  have hlast := (PathName.last_ok hne).slash
  rw [PathName.spell_of_top hne htop]
  cases p.abs with
  | false =>
    rw [if_neg (by decide), List.nil_append, kstrrchr_eq_none slash_ne_zero hlast]
    rfl
  | true =>
    have hchr := kstrrchr_append slash_ne_zero hlast []
    rw [List.nil_append] at hchr
    rw [if_pos rfl, List.singleton_append, hchr]
    rfl

theorem parent_spell_length_ne_zero (hnested : p.parent.comps ≠ []) :
    p.parent.spell.length ≠ 0 := by
  intro hzero
  have hnil := List.eq_nil_of_length_eq_zero hzero
  exact hnested ((joined_eq_nil_iff p.parent.comps_ok).mp (List.append_eq_nil_iff.mp hnil).2)

theorem fsInsertEntry_of_nested (hne : p.comps ≠ []) (hnested : p.parent.comps ≠ [])
    (hnew : s.lookupPath p.spell = some none) {e : Nat}
    (hparent : s.lookupPath p.parent.spell = some (some e)) (mode dev : Nat)
    (buf : Option Nat) (len : Nat) :
    s.fsInsertEntry p.spell mode dev buf len =
      if p.parent.spell.length < FILENAME_MAX then
        s.insertAt (s.dents e).dInode p.last mode dev buf len
      else none := by
  unfold fsInsertEntry insertTarget
  rw [PathOps.insertTarget_result, if_neg (PathName.kstrcmp_dot_ne hne), run_lookupPath, hnew]
  obtain ⟨k, hk⟩ := Nat.exists_eq_succ_of_ne_zero (parent_spell_length_ne_zero hnested)
  rw [PathName.spell_of_nested hne hnested,
    kstrrchr_append slash_ne_zero (PathName.last_ok hne).slash, hk]
  dsimp only [Option.map_some]
  have htake : (p.parent.spell ++ SLASH :: p.last).take (k + 1) = p.parent.spell :=
    List.take_left' hk
  have hdrop : (p.parent.spell ++ SLASH :: p.last).drop (k + 2) = p.last := by
    rw [show k + 2 = (k + 1) + 1 from rfl, ← List.drop_drop, List.drop_left' hk]
    rfl
  rw [htake, hdrop, run_lookupPath, hparent]
  by_cases hlen : k + 1 < FILENAME_MAX
  · rw [if_pos hlen, if_pos hlen]
    rfl
  · rw [if_neg hlen, if_neg hlen]
    rfl

/-! ## Insert, then look up -/

/-- The entry and the inode of `d` are what they were, but for the list of children. -/
def SameEntry (s s' : FsState) (d : Nat) : Prop :=
  s'.dents d = s.dents d ∧
    { s'.inodeOf d with iChildren := [] } = { s.inodeOf d with iChildren := [] }

/-- What the call is for: the path resolves to an entry with the mode and the device, the
other paths that are not below it resolve as they did, and a second call changes
nothing. -/
def InsertOk (s : FsState) (p : PathName) (mode dev : Nat) (buf : Option Nat) (len : Nat) :
    Prop :=
  ∃ s', s.fsInsertEntry p.spell mode dev buf len = some s' ∧
    (∃ d, s'.lookupPath p.spell = some (some d) ∧ (s'.inodeOf d).iMode = mode ∧
      (s'.inodeOf d).iDev = dev) ∧
    (∀ q : PathName, ¬p.comps <+: q.comps →
      s'.lookupPath q.spell = s.lookupPath q.spell ∧
        ∀ d, s.lookupPath q.spell = some (some d) → s.SameEntry s' d) ∧
    s'.fsInsertEntry p.spell mode dev buf len = some s'

/-- When the call does what it is for: the path is not a name behind a single slash, its
directory and its name fit in the buffers, and there are pages for the contents. -/
structure InsertFits (s : FsState) (p : PathName) (mode : Nat) (buf : Option Nat)
    (len : Nat) : Prop where
  slash : ¬(p.abs = true ∧ p.parent.comps = [])
  dir_lt : p.parent.spell.length < FILENAME_MAX
  last_lt : p.last.length < FILENAME_MAX
  pages : s.HasPages mode buf len

variable {s' : FsState}

theorem lookupResult_of_some (hcs : ∀ c ∈ cs.dropLast, c.length < FILENAME_MAX)
    (h : r cs = some d) : lookupResult r cs = some (some d) := by
  unfold lookupResult
  rw [if_pos (by simpa using hcs), h]

theorem follow_of_lookupResult (h : lookupResult r cs = some (some d)) : r cs = some d := by
  unfold lookupResult at h
  split at h
  · exact Option.some.inj h
  · split at h
    · cases h
    · cases h

theorem lookupResult_congr {r' : List (List UInt8) → Option Nat}
    (h : ∀ ds, ds <+: cs → r' ds = r ds) : lookupResult r' cs = lookupResult r cs := by
  unfold lookupResult
  rw [h cs (List.prefix_refl cs), h _ (List.takeWhile_prefix _)]

theorem Added.sameEntry {parent : Nat} {name : List UInt8} (h : Added s s' parent name mode dev)
    (hs : s.RootTree) (hd : d < s.ndents) : s.SameEntry s' d := by
  have hinode := Nat.ne_of_lt (hs.dInode_lt d hd)
  refine ⟨h.dents_of_lt hd, ?_⟩
  unfold inodeOf
  rw [h.dents_of_lt hd]
  by_cases hp : (s.dents d).dInode = parent
  · rw [hp, h.inodes_parent]
  · rw [h.inodes_old _ hinode hp]

namespace RootTree

variable (hs : s.RootTree)

variable {e : Nat}

include hs

theorem follow_parent (hparent : s.lookupPath p.parent.spell = some (some e)) :
    follow s.child s.nDent p.parent.comps = some e := by
  rw [hs.lookupPath_spell] at hparent
  exact follow_of_lookupResult hparent

theorem child_last_eq_none (hne : p.comps ≠ [])
    (hparent : s.lookupPath p.parent.spell = some (some e))
    (hnew : s.lookupPath p.spell = some none) : s.child e p.last = none := by
  have hdir := hs.follow_parent hparent
  rw [hs.lookupPath_spell] at hnew
  have hshort : p.comps.dropLast.all (·.length < FILENAME_MAX) = true := by
    rw [List.all_eq_true]
    intro c hc
    exact decide_eq_true (hs.length_lt_of_follow hdir c hc)
  unfold lookupResult at hnew
  rw [if_pos hshort, Option.some.injEq, PathName.comps_eq hne, follow_concat, hdir] at hnew
  exact hnew

theorem insertOk_of_added (hne : p.comps ≠ [])
    (hparent : s.lookupPath p.parent.spell = some (some e)) (hdir : S_ISDIR (s.inodeOf e).iMode)
    (hnew : s.lookupPath p.spell = some none) (hlen : p.last.length < FILENAME_MAX)
    (hadd : Added s s' (s.dents e).dInode p.last mode dev)
    (hcall : s.fsInsertEntry p.spell mode dev buf len = some s') :
    s.InsertOk p mode dev buf len := by
  have hnul := (PathName.last_ok hne).nul
  have hfollow := hs.follow_parent hparent
  have he := hs.follow_lt hs.nDent_lt hfollow
  have hs' := hadd.rootTree hs (hs.dInode_lt e he) hnul hlen
  have hleaf := hadd.addLeaf hs he hdir (hs.child_last_eq_none hne hparent hnew) hnul hlen
  have hfound : s'.lookupPath p.spell = some (some s.ndents) := by
    rw [hs'.lookupPath_spell, hadd.nDent]
    apply lookupResult_of_some
    · intro c hc
      exact hs.length_lt_of_follow hfollow c hc
    · rw [PathName.comps_eq hne]
      exact hleaf.follow_new hfollow
  refine ⟨s', hcall, ⟨s.ndents, hfound, ?_, ?_⟩, ?_, fsInsertEntry_of_found hfound⟩
  · unfold inodeOf
    rw [hadd.dents_new]
    exact hadd.mode_new
  · unfold inodeOf
    rw [hadd.dents_new]
    exact hadd.dev_new
  · intro q hq
    rw [PathName.comps_eq hne] at hq
    constructor
    · rw [hs'.lookupPath_spell, hs.lookupPath_spell, hadd.nDent]
      apply lookupResult_congr
      intro ds hds
      exact hleaf.follow_frame hs.isTree hfollow (fun h => hq (h.trans hds))
    · intro d hd
      rw [hs.lookupPath_spell] at hd
      exact hadd.sameEntry hs (hs.follow_lt hs.nDent_lt (follow_of_lookupResult hd))

end RootTree

/-! ## When it goes wrong -/

theorem Added.lookupDirentry_parent {e : Nat} {name c : List UInt8}
    (h : Added s s' (s.dents e).dInode name mode dev) (hs : s.RootTree) (he : e < s.ndents)
    (hdir : S_ISDIR (s.inodeOf e).iMode) (hnul : 0 ∉ name) (hc : 0 ∉ c) :
    s'.lookupDirentry c (s.dents e).dInode =
      if name.length < FILENAME_MAX then
        if name = c then some (some s.ndents) else some (s.child e c)
      else none := by
  have hi := hs.dInode_lt e he
  have hscan : ∀ ds : List Nat, (∀ d ∈ ds, d < s.ndents) →
      s'.scanDents c ds = some (ds.find? (fun d => cstring (s.dents d).dName == some c)) := by
    intro ds hds
    rw [← h.find?_of_lt c hds]
    apply scanDents_eq hc
    intro d hd
    rw [h.dents_of_lt (hds d hd)]
    exact (hs.name d (hds d hd)).1
  unfold lookupDirentry
  rw [h.inodes_parent]
  rw [if_pos (show S_ISDIR (s.inodes (s.dents e).dInode).iMode = true from hdir), scanDents,
    h.dents_new, hscan _ (hs.child_lt _ hi), (hs.plain _ hi).2]
  rw [cstring_storedName hnul]
  by_cases hlen : name.length < FILENAME_MAX
  · rw [if_pos hlen, if_pos hlen]
    dsimp only
    rw [if_congr (kstrcmp_eq_zero_iff hnul hc) rfl rfl]
    by_cases heq : name = c
    · rw [if_pos heq, if_pos heq]
    · rw [if_neg heq, if_neg heq]
      unfold child inodeOf
      rw [if_pos ⟨he, hdir⟩]
      cases (s.inodes (s.dents e).dInode).iChildren.find?
        (fun d => cstring (s.dents d).dName == some c) <;> rfl
  · rw [if_neg hlen, if_neg hlen]

theorem walk_concat_inv (hne : cs ≠ []) {i : Nat} {c : List UInt8}
    (h : s.walk i (cs ++ [c]) = some (some d)) : ∃ e, s.walk i cs = some (some e) ∧
      s.lookupDirentry c (s.enter (s.dents e).dInode) = some (some d) := by
  induction cs generalizing i with
  | nil => exact absurd rfl hne
  | cons a cs ih =>
    cases cs with
    | nil =>
      rcases walk_cons_eq_some.mp h with ⟨-, e, ha, hlast⟩
      exact ⟨e, ha, hlast⟩
    | cons b cs =>
      rcases walk_cons_eq_some.mp h with ⟨hlen, x, ha, hrest⟩
      rcases ih nofun hrest with ⟨e, he, hlast⟩
      exact ⟨e, walk_cons_eq_some.mpr ⟨hlen, x, ha, he⟩, hlast⟩

theorem comps_ne_nil (hnew : s.lookupPath p.spell = some none) : p.comps ≠ [] := by
  intro hnil
  rw [lookupPath_spell_eq, if_pos hnil] at hnew
  cases hnew

theorem lookupPath_of_top (hne : p.comps ≠ []) (htop : p.parent.comps = []) :
    s.lookupPath p.spell = s.lookupDirentry p.last s.nInode := by
  rw [lookupPath_spell_eq, PathName.comps_eq hne, htop]
  rfl

namespace RootTree

variable (hs : s.RootTree)
include hs

/-- A name that is too long is not found in the directory it was added to. -/
theorem last_lt_of_nested {e d : Nat} (hne : p.comps ≠ []) (hnested : p.parent.comps ≠ [])
    (he : e < s.ndents) (hdir : S_ISDIR (s.inodeOf e).iMode)
    (hadd : Added s s' (s.dents e).dInode p.last mode dev)
    (hparent : s'.lookupPath p.parent.spell = some (some e))
    (hfound : s'.lookupPath p.spell = some (some d)) : p.last.length < FILENAME_MAX := by
  have hnul := (PathName.last_ok hne).nul
  rw [lookupPath_spell_eq, if_neg hnested] at hparent
  rw [lookupPath_spell_eq, if_neg hne, PathName.comps_eq hne] at hfound
  rcases walk_concat_inv hnested hfound with ⟨e', he', hlast⟩
  obtain rfl : e' = e := Option.some.inj (Option.some.inj (he'.symm.trans hparent))
  have henter : s'.enter (s'.dents e').dInode = (s.dents e').dInode := by
    unfold enter
    rw [hadd.dents_of_lt he, hadd.inodes_parent]
    rw [(hs.plain _ (hs.dInode_lt e' he)).1]
    rfl
  rw [henter, hadd.lookupDirentry_parent hs he hdir hnul hnul] at hlast
  by_contra hlen
  rw [if_neg hlen] at hlast
  cases hlast

theorem fits_of_top {d : Nat} (hne : p.comps ≠ []) (htop : p.parent.comps = [])
    (hdir : S_ISDIR (s.inodeOf s.nDent).iMode) (hnew : s.lookupPath p.spell = some none)
    (hadd : Added s s' s.nInode p.spell mode dev) (hfound : s'.lookupPath p.spell = some (some d)) :
    p.abs = false ∧ p.last.length < FILENAME_MAX := by
  have hlast := PathName.last_ok hne
  rw [lookupPath_of_top hne htop, ← hs.root,
    hs.lookupDirentry_eq hs.nDent_lt hlast.nul] at hnew
  rw [← hs.root] at hadd
  rw [lookupPath_of_top hne htop, hadd.nInode, ← hs.root,
    hadd.lookupDirentry_parent hs hs.nDent_lt hdir p.nul_not_mem_spell hlast.nul,
    hnew, PathName.spell_of_top hne htop] at hfound
  cases habs : p.abs with
  | false =>
    refine ⟨rfl, ?_⟩
    by_contra hlen
    simp only [habs, Bool.false_eq_true, if_false, List.nil_append, hlen] at hfound
    cases hfound
  | true =>
    -- the name of the new entry has a slash in it
    have heq : [SLASH] ++ p.last ≠ p.last :=
      fun h => hlast.slash (h ▸ List.mem_cons_self)
    simp only [habs, if_true] at hfound
    split at hfound
    · cases hfound
    · cases hfound

/-- `fs_insert_entry` does what it is for when the call fits, and only then. -/
theorem fsInsertEntry_insertOk_iff (p : PathName) (hnew : s.lookupPath p.spell = some none)
    {e : Nat} (hparent : s.lookupPath p.parent.spell = some (some e))
    (hdir : S_ISDIR (s.inodeOf e).iMode) (mode dev : Nat) (buf : Option Nat) (len : Nat) :
    s.InsertOk p mode dev buf len ↔ s.InsertFits p mode buf len := by
  have hne := comps_ne_nil hnew
  have he := hs.follow_lt hs.nDent_lt (hs.follow_parent hparent)
  have hi := hs.dInode_lt e he
  by_cases htop : p.parent.comps = []
  · -- the directory is the root
    have hroot : s.nDent = e := by
      rw [lookupPath_spell_eq, if_pos htop] at hparent
      exact Option.some.inj (Option.some.inj hparent)
    have hcall := fsInsertEntry_of_top hne htop hnew mode dev buf len
    subst hroot
    rw [hs.root] at hi
    constructor
    · intro hok
      rcases hok with ⟨s', hcall', ⟨d, hfound, -, -⟩, -, -⟩
      rw [hcall] at hcall'
      have hpages := insertAt_isSome_iff.mp (Option.isSome_of_eq_some hcall')
      have hadd := insertAt_added hi hcall'
      rcases hs.fits_of_top hne htop hdir hnew hadd hfound with ⟨hrel, hlen⟩
      refine ⟨fun h => by simp [hrel] at h, ?_, hlen, hpages⟩
      unfold PathName.spell
      rw [htop]
      split <;> decide
    · intro hfits
      have hsome : (s.insertAt s.nInode p.spell mode dev buf len).isSome :=
        insertAt_isSome_iff.mpr hfits.pages
      rcases Option.isSome_iff_exists.mp hsome with ⟨s', hs'⟩
      have hrel : p.abs = false := by
        cases habs : p.abs with
        | false => rfl
        | true => exact absurd ⟨habs, htop⟩ hfits.slash
      have hspell : p.spell = p.last := by
        rw [PathName.spell_of_top hne htop, hrel]
        rfl
      have hadd := insertAt_added hi hs'
      rw [hspell, ← hs.root] at hadd
      exact hs.insertOk_of_added hne hparent hdir hnew hfits.last_lt hadd (hcall.trans hs')
  · have hcall := fsInsertEntry_of_nested hne htop hnew hparent mode dev buf len
    constructor
    · intro hok
      rcases hok with ⟨s', hcall', ⟨d, hfound, -, -⟩, hframe, -⟩
      rw [hcall] at hcall'
      split at hcall'
      · rename_i hdirlen
        have hpages := insertAt_isSome_iff.mp (Option.isSome_of_eq_some hcall')
        have hadd := insertAt_added hi hcall'
        have hprefix : ¬p.comps <+: p.parent.comps := by
          intro hpre
          have hlen := hpre.length_le
          rw [PathName.comps_eq hne, List.length_append, List.length_singleton] at hlen
          exact absurd hlen (by omega)
        have hparent' := (hframe p.parent hprefix).1.trans hparent
        exact ⟨fun h => htop h.2, hdirlen,
          hs.last_lt_of_nested hne htop he hdir hadd hparent' hfound, hpages⟩
      · cases hcall'
    · intro hfits
      rw [if_pos hfits.dir_lt] at hcall
      have hsome : (s.insertAt (s.dents e).dInode p.last mode dev buf len).isSome :=
        insertAt_isSome_iff.mpr hfits.pages
      rcases Option.isSome_iff_exists.mp hsome with ⟨s', hs'⟩
      exact hs.insertOk_of_added hne hparent hdir hnew hfits.last_lt (insertAt_added hi hs')
        (hcall.trans hs')

end RootTree

/-! ## The first tree -/

theorem fsRoot_rootTree (zone : Zone) (mem : ByteMem) : (fsRoot zone mem).RootTree := by
  have hzero : ∀ d < (fsRoot zone mem).ndents, d = 0 := fun d hd => Nat.lt_one_iff.mp hd
  constructor
  case nDent_lt => exact Nat.one_pos
  case root => rfl
  case dInode_lt => exact fun _ _ => Nat.one_pos
  case dInode_inj =>
    intro d hd e he _
    rw [hzero d hd, hzero e he]
  case child_lt => exact fun _ _ => nofun
  case child_ne => exact fun _ _ => nofun
  case child_inj => exact fun _ _ _ _ => nofun
  case name => exact fun _ _ => ⟨rfl, (by decide : [SLASH, 0].length ≤ FILENAME_MAX)⟩
  case plain => exact fun _ _ => ⟨rfl, rfl⟩

theorem RootTree.fsAddEntry (hs : s.RootTree) (parent : Nat) (name : List UInt8) (mode dev : Nat)
    (hparent : parent < s.ninodes) (hnul : 0 ∉ name) (hlen : name.length < FILENAME_MAX) :
    (s.fsAddEntry parent name mode dev).1.RootTree :=
  (fsAddEntry_added hparent).rootTree hs hparent hnul hlen

theorem fsAddEntry_snd (s : FsState) (parent : Nat) (name : List UInt8) (mode dev : Nat) :
    (s.fsAddEntry parent name mode dev).2 = s.ninodes := rfl

theorem fsAddEntry_ninodes (s : FsState) (parent : Nat) (name : List UInt8) (mode dev : Nat) :
    (s.fsAddEntry parent name mode dev).1.ninodes = s.ninodes + 1 := rfl

theorem fsInit_rootTree (zone : Zone) (mem : ByteMem) : (fsInit zone mem).RootTree := by
  unfold fsInit
  simp only [fsAddEntry_snd]
  iterate 7 apply RootTree.fsAddEntry
  case hs => exact fsRoot_rootTree zone mem
  all_goals
    first
    | decide
    | exact Nat.one_pos
    | simp only [fsAddEntry_ninodes]
      omega

/-- The tree of `fs_init` in a memory that has no pages to give. -/
def firstTree : FsState :=
  fsInit ⟨0, 0, 0, fun _ => [], fun _ => 0, fun _ => 0, ⟨id, id⟩⟩ (fun _ => 0)

/-- The path `x` or `/x`. -/
def topPath (abs : Bool) : PathName where
  abs := abs
  comps := [[0x78]]
  comps_ok := by
    intro c hc
    rw [List.mem_singleton.mp hc]
    exact ⟨by decide, by decide, by decide, by decide, by decide⟩

theorem insertOk_relative : firstTree.InsertOk (topPath false) S_IFDIR NODEV none 0 := by
  have hs : firstTree.RootTree := fsInit_rootTree _ _
  apply (hs.fsInsertEntry_insertOk_iff (topPath false) (by decide +kernel) (e := 0)
    (by decide +kernel) (by decide +kernel) S_IFDIR NODEV none 0).mpr
  exact ⟨by decide, by decide, by decide, fun h => absurd h.1 (by decide)⟩

/-- The path `/x` does not resolve after it was inserted, and every call makes another
entry. -/
theorem insert_absolute_not_found : firstTree.lookupPath (topPath true).spell = some none ∧
      firstTree.lookupPath (topPath true).parent.spell = some (some 0) ∧
      S_ISDIR (firstTree.inodeOf 0).iMode = true ∧ firstTree.ndents = 8 ∧
      (firstTree.fsInsertEntry (topPath true).spell S_IFDIR NODEV none 0).map
        (fun s => (s.lookupPath (topPath true).spell, s.ndents,
          (s.fsInsertEntry (topPath true).spell S_IFDIR NODEV none 0).map (·.ndents))) =
        some (some none, 9, some 10) ∧
      ¬firstTree.InsertOk (topPath true) S_IFDIR NODEV none 0 := by
  have hrun : (firstTree.fsInsertEntry (topPath true).spell S_IFDIR NODEV none 0).map
      (fun s => (s.lookupPath (topPath true).spell, s.ndents,
        (s.fsInsertEntry (topPath true).spell S_IFDIR NODEV none 0).map (·.ndents))) =
      some (some none, 9, some 10) := by decide +kernel
  refine ⟨by decide +kernel, by decide +kernel, by decide +kernel, by decide +kernel, hrun, ?_⟩
  intro hok
  rcases hok with ⟨s', hcall, ⟨d, hfound, -⟩, -⟩
  rw [hcall, Option.map_some, hfound] at hrun
  simp at hrun

end FsState

end Koowaldah
