import Koowaldah.Fs.PathWalk

/-!
# The buffers a path goes through

A path that comes from a system call is copied three times without a check of its length:
`lookup_path` copies each name that ends in a slash to `name`, `fs_insert_entry` copies
what is in front of the last slash to `dir`, and `new_direntry` copies a name to `d_name`
and cuts it at the end of the array.  All three arrays have `FILENAME_MAX` bytes.  The stores
are the events that the two functions leave.

A name that is too long for the arrays is looked up all the same when it is the last one.
`Answers` says of the tree when the search for a name in a directory comes to an end: the
directory and its entries are there, and the names that are read have an end.  In `proc` and
`devices` the name is copied once more, to a `struct virtfs_entry`.

`lookupSafe_iff` and `insertSafe_iff` say for a lookup and for an insertion when all of
that is inside the arrays, and `path_buffers_iff` is both.
-/

namespace Koowaldah

open Function SysLib

namespace VfsState

/-! ## The stores -/

def lookupStores (s : VfsState) (path : List UInt8) : List PathStore :=
  ((pathOps.lookupPath path).run s).events

def insertStores (s : VfsState) (path : List UInt8) : List PathStore :=
  ((pathOps.insertTarget path).run s).events

/-- The entries that are new have names that end in a NUL. -/
def NewTerminated (s s' : VfsState) : Prop :=
  ∀ d, s.fs.ndents ≤ d → d < s'.fs.ndents → 0 ∈ (s'.fs.dents d).dName

/-- The path has a name that is as long as the arrays. -/
def HasLong (path : List UInt8) : Prop := ∃ c ∈ pathParts path, FILENAME_MAX ≤ c.length

instance (path : List UInt8) : Decidable (HasLong path) := by
  unfold HasLong
  infer_instance

/-- A lookup stays inside its buffers, and fails for a name that is too long. -/
structure LookupSafe (s : VfsState) (path : List UInt8) : Prop where
  name : ∀ n, .name n ∈ s.lookupStores path → n ≤ FILENAME_MAX
  dName : ∀ s' r, s.lookupPath path = some (s', r) → s.NewTerminated s'
  fails : HasLong path → ∃ s', s.lookupPath path = some (s', none)

/-- The second lookup of `fs_insert_entry`: the state and the directory. -/
def SecondLookup (s : VfsState) (path : List UInt8) (s₁ : VfsState) (dir : List UInt8) : Prop :=
  kstrcmp path DOT ≠ 0 ∧ s.lookupPath path = some (s₁, none) ∧ dir ≠ [] ∧
    dir.length < FILENAME_MAX ∧ ∃ last, SLASH ∉ last ∧ path = dir ++ SLASH :: last

structure InsertSafe (s : VfsState) (path : List UInt8) : Prop where
  first : kstrcmp path DOT ≠ 0 → s.LookupSafe path
  dir : ∀ n, .dir n ∈ s.insertStores path → n ≤ FILENAME_MAX
  second : ∀ s₁ dir, s.SecondLookup path s₁ dir → s₁.LookupSafe dir
  dName : ∀ mode dev buf len s', s.fsInsertEntry path mode dev buf len = some s' →
    s.NewTerminated s'

/-! ## The names and the tree -/

/-- The names that a lookup comes to and that have a slash behind them. -/
def reachedFrom (s : VfsState) (c : List UInt8) :
    List (List UInt8) → Nat → List (List UInt8)
  | [], _ => []
  | c' :: cs, inode =>
    c ::
      if c.length < FILENAME_MAX then
        match s.lookupDirentry c inode with
        | some (s, some d) => s.reachedFrom c' cs (s.fs.enter (s.fs.dents d).dInode)
        | _ => []
      else []

/-- The names that a lookup of a path comes to and that have a slash behind them. -/
def reached (s : VfsState) (path : List UInt8) : List (List UInt8) :=
  match pathParts path with
  | [] => []
  | c :: cs => s.reachedFrom c cs s.fs.nInode

/-- Read the strings of a list up to `name`: one that is `name` has `found`, and if there is
none it is `missing` that holds. -/
def Scan (string : Nat → Option (List UInt8)) (name : List UInt8) (found : Nat → Prop)
    (missing : Prop) : List Nat → Prop
  | [] => missing
  | x :: xs =>
    ∃ str, string x = some str ∧ if str = name then found x else Scan string name found missing xs

/-- `virtfs_lookup` comes to an end, and gives an entry only if `entry` holds.  The functions of
`proc` and `devices` copy the name to a new `struct virtfs_entry`, where the 24 bytes in front of
`ve_inode` are to hold it. -/
def VeAnswers (s : VfsState) (name : List UInt8) (inode : Nat) (entry : Prop) : Prop :=
  let ve := s.iPrivate inode - 1
  ve < s.nves ∧
    match (s.ves ve).veOps with
    | .nop => (s.ves ve).veChild ≠ 0 → Scan (fun v => (s.ves v).string) name
        (fun v => (s.ves v).veInode = 0 ∧ entry) True (s.siblings ((s.ves ve).veChild - 1))
    | _ => name.length ≤ 24 ∧ entry

/-- The search for a name in a directory comes to an end, and gives an entry only if `entry`
holds. -/
def Answers (s : VfsState) (name : List UInt8) (inode : Nat) (entry : Prop) : Prop :=
  inode ∉ s.killed ∧ (S_ISDIR (s.fs.inodes inode).iMode →
    Scan (fun d => if d ∈ s.freed then none else (s.fs.dents d).string) name (fun _ => entry)
      (s.virt inode → s.iPrivate inode ≠ 0 → s.VeAnswers name inode entry)
      (s.fs.inodes inode).iChildren)

/-- The directories on the way answer, and the last one has no entry. -/
def MissesFrom (s : VfsState) (c : List UInt8) : List (List UInt8) → Nat → Prop
  | [], inode => s.Answers c inode False
  | c' :: cs, inode =>
    s.Answers c inode True ∧ ∀ s' d, s.lookupDirentry c inode = some (s', some d) →
      s'.MissesFrom c' cs (s'.fs.enter (s'.fs.dents d).dInode)

def Misses (s : VfsState) (path : List UInt8) : Prop :=
  match pathParts path with
  | [] => False
  | c :: cs => s.MissesFrom c cs s.fs.nInode

/-- The names on the way are short, and in a path with one that is too long the last name is
not in its directory, which is neither `proc` nor `devices`. -/
structure LookupShort (s : VfsState) (path : List UInt8) : Prop where
  reached : ∀ c ∈ s.reached path, c.length < FILENAME_MAX
  misses : HasLong path → s.Misses path

/-- The lookups are short, and so are the directory and the name of the entry. -/
structure InsertShort (s : VfsState) (path : List UInt8) : Prop where
  first : kstrcmp path DOT ≠ 0 → s.LookupShort path
  dir : ∀ s₁ dir last, kstrcmp path DOT ≠ 0 → s.lookupPath path = some (s₁, none) →
    SLASH ∉ last → path = dir ++ SLASH :: last → dir.length ≤ FILENAME_MAX
  second : ∀ s₁ dir, s.SecondLookup path s₁ dir → s₁.LookupShort dir
  name : ∀ s₂ parent name, s.insertTarget path = some (s₂, some (parent, name)) →
    name.length < FILENAME_MAX

variable {s s' : VfsState} {path : List UInt8}

/-! ## The name buffer -/

theorem events_eq_reached {n : Nat} {c p : List UInt8} {cs : List (List UInt8)}
    (hparts : p.splitOn SLASH = c :: cs) (hn : cs.length < n) (s : VfsState) (inode : Nat) :
    ((pathOps.lookupPathLoop n p inode).run s).events =
      (s.reachedFrom c cs inode).map (fun x => PathStore.name (x.length + 1)) := by
  induction cs generalizing n c p s inode with
  | nil =>
    obtain ⟨n, rfl⟩ := Nat.exists_eq_add_one_of_ne_zero (Nat.ne_of_gt hn)
    rw [PathOps.lookupPathLoop_run, (kstrchr_of_splitOn_singleton hparts).1]
    rfl
  | cons c' cs ih =>
    obtain ⟨n, rfl⟩ := Nat.exists_eq_add_one_of_ne_zero (Nat.ne_of_gt (Nat.zero_lt_of_lt hn))
    obtain ⟨hk, htake, hcs⟩ := kstrchr_of_splitOn_cons hparts
    rw [PathOps.lookupPathLoop_run, hk, reachedFrom, List.map_cons]
    dsimp only [pathOps]
    rw [htake]
    split
    · rcases s.lookupDirentry c inode with - | ⟨s₁, - | d⟩
      · rfl
      · rfl
      · exact congrArg (List.cons _) (ih hcs (Nat.lt_of_succ_lt_succ hn) s₁ _)
    · rfl

theorem lookupStores_eq (s : VfsState) (path : List UInt8) :
    s.lookupStores path = (s.reached path).map (fun c => PathStore.name (c.length + 1)) := by
  unfold lookupStores reached
  rw [PathOps.lookupPath_run]
  obtain ⟨hnil, hparts⟩ | ⟨hne, c, cs, hparts, hsplit, hlen⟩ := pathParts_cases path
  · rw [hparts, if_pos hnil]
    rfl
  · rw [hparts, if_neg hne, events_eq_reached hsplit hlen]
    rfl

end VfsState

/-! ## The sizes of the arrays -/

namespace FsState

/-- A directory of the root file system has no names but those in its list. -/
def Generic (s : FsState) : Prop := ∀ i, (s.inodes i).iLookup = genericLookup

variable {s : FsState}

section

variable (hs : s.Generic)

include hs

theorem Generic.newInode : s.newInode.1.Generic := by
  intro i
  show (Function.update s.inodes s.ninodes _ i).iLookup = _
  rw [update_apply]
  split
  · rfl
  · exact hs i

theorem Generic.setInode (inode : Nat) {f : FsInode → FsInode}
    (hf : ∀ i, (f i).iLookup = i.iLookup) : (s.setInode inode f).Generic := by
  intro i
  show (Function.update s.inodes inode _ i).iLookup = _
  rw [update_apply]
  split
  · rw [hf, hs]
  · exact hs i

theorem Generic.newDirentry (name : List UInt8) (inode : Nat) :
    (s.newDirentry name inode).1.Generic := hs

theorem Generic.setDent (dent : Nat) (f : Direntry → Direntry) : (s.setDent dent f).Generic := hs

theorem Generic.fsAddEntry (parent : Nat) (name : List UInt8) (mode dev : Nat) :
    (s.fsAddEntry parent name mode dev).1.Generic := by
  unfold FsState.fsAddEntry
  dsimp only
  refine Generic.setInode ?_ _ (fun _ => rfl)
  refine Generic.setDent (Generic.newDirentry ?_ _ _) _ _
  refine Generic.setInode ?_ _ (fun _ => rfl)
  exact hs.newInode

end

theorem fsInit_generic (zone : Zone) (mem : SysLib.ByteMem) : (fsInit zone mem).Generic := by
  have hroot : (fsRoot zone mem).Generic := fun _ => rfl
  iterate 7 apply Generic.fsAddEntry
  exact hroot

end FsState

namespace VfsState

variable {s s' : VfsState} {path : List UInt8}

variable {inode d : Nat} {name : List UInt8} {r : Option Nat}

structure Sized (s : VfsState) : Prop where
  generic : s.fs.Generic
  veName : ∀ ve, (s.ves ve).veName.length ≤ VE_NAME_MAX

theorem Sized.virtfsCache (hs : s.Sized) (inode : Nat) (name : List UInt8) (ve : Nat) :
    (s.virtfsCache inode name ve).1.Sized := by
  constructor
  case generic =>
    unfold VfsState.virtfsCache
    dsimp only
    refine FsState.Generic.setInode ?_ _ (fun _ => rfl)
    refine FsState.Generic.setDent (FsState.Generic.newDirentry ?_ _ _) _ _
    exact FsState.Generic.setInode hs.generic.newInode _ (fun _ => rfl)
  case veName =>
    intro v
    show (Function.update s.ves ve _ v).veName.length ≤ _
    rw [update_apply]
    split
    · exact hs.veName ve
    · exact hs.veName v

theorem Sized.cached (hs : s.Sized) (h : s.Cached inode name s' d) : s'.Sized := by
  obtain ⟨-, s₁, ve, hs₁, rfl⟩ := h
  refine Sized.virtfsCache ?_ inode name ve
  obtain ⟨rfl, -⟩ | ⟨e, he, rfl⟩ := hs₁
  · exact hs
  · refine ⟨hs.generic, fun v => ?_⟩
    show (Function.update s.ves s.nves e v).veName.length ≤ _
    rw [update_apply]
    split
    · unfold fillVe at he
      split at he
      · cases he
        exact List.length_take_le ..
      · cases he
    · exact hs.veName v

theorem Sized.lookupDirentry (hs : s.Sized) (h : s.lookupDirentry name inode = some (s', r)) :
    s'.Sized := by
  obtain ⟨rfl, -⟩ | ⟨d, -, hcached⟩ := lookupDirentry_cases h
  · exact hs
  · exact hs.cached hcached

theorem Sized.scanVes_length (hs : s.Sized) (hname : 0 ∉ name) {ves : List Nat} {ve : Nat}
    (h : s.scanVes name ves = some (some ve)) : name.length < FILENAME_MAX := by
  induction ves with
  | nil => cases h
  | cons v ves ih =>
    rw [scanVes] at h
    cases hstr : (s.ves v).string with
    | none => simp [hstr] at h
    | some str =>
      rw [hstr] at h
      dsimp only at h
      split at h
      case isTrue hcmp =>
        obtain ⟨hnul, hlen⟩ := cstring_eq_some hstr
        rw [List.length_append] at hlen
        have hve := hs.veName v
        have hword : (wordBytes (s.ves v).veMode).length = 4 := rfl
        rw [(kstrcmp_eq_zero_iff hname hnul).mp hcmp]
        unfold VE_NAME_MAX at hve
        unfold FILENAME_MAX
        omega
      case isFalse => exact ih h

theorem Sized.cached_length (hs : s.Sized) (hname : 0 ∉ name) (h : s.Cached inode name s' d) :
    name.length < FILENAME_MAX := by
  obtain ⟨-, s₁, ve, ⟨-, ves, hscan⟩ | ⟨e, he, -⟩, -⟩ := h
  · exact hs.scanVes_length hname hscan
  · unfold fillVe at he
    split at he
    case isTrue hlt => exact hlt.trans (by decide)
    case isFalse => cases he

/-! ## Answers -/

/-- A lookup returns, and gives an entry only if `entry` holds. -/
def Gives (y : Option (VfsState × Option Nat)) (entry : Prop) : Prop :=
  ∃ s' r, y = some (s', r) ∧ (r ≠ none → entry)

section

variable (hname : 0 ∉ name)

include hname

theorem scan_dents (found : Nat → Prop) (missing : Prop) (ds : List Nat) :
    Scan (fun d => if d ∈ s.freed then none else (s.fs.dents d).string) name found missing ds ↔
      ∃ r, s.scanDents name ds = some r ∧ r.elim missing found := by
  induction ds with
  | nil => simp [Scan, scanDents]
  | cons d ds ih =>
    rw [Scan, scanDents]
    by_cases hfreed : d ∈ s.freed
    · simp [hfreed]
    · cases hstr : (s.fs.dents d).string with
      | none => simp [hfreed]
      | some str =>
        have hcmp := kstrcmp_eq_zero_iff (cstring_eq_some hstr).1 hname
        by_cases heq : str = name
        · subst heq
          simp [hfreed, hcmp]
        · simp [hfreed, hcmp, heq, ih]

theorem scan_ves (found : Nat → Prop) (missing : Prop) (ves : List Nat) :
    Scan (fun v => (s.ves v).string) name found missing ves ↔
      ∃ r, s.scanVes name ves = some r ∧ r.elim missing found := by
  induction ves with
  | nil => simp [Scan, scanVes]
  | cons v ves ih =>
    rw [Scan, scanVes]
    cases hstr : (s.ves v).string with
    | none => simp
    | some str =>
      have hcmp := kstrcmp_eq_zero_iff hname (cstring_eq_some hstr).1
      by_cases heq : str = name
      · subst heq
        simp [hcmp]
      · simp [hcmp, heq, Ne.symm heq, ih]

theorem fillVe_veInode (mode : Nat) :
    (∃ e, fillVe name mode = some e ∧ e.veInode = 0) ↔ name.length ≤ 24 := by
  unfold fillVe SIZEOF_VE
  constructor
  · rintro ⟨e, he, hzero⟩
    split at he
    · cases he
      by_contra hlen
      have hlt : 24 < name.length := by omega
      have hbyte : ((name ++ List.replicate (44 - name.length) 0).getD 24 0).toNat = 0 := by
        change wordAt _ 24 = 0 at hzero
        unfold wordAt at hzero
        omega
      rw [List.getD_append _ _ _ _ hlt, List.getD_eq_getElem _ _ hlt] at hbyte
      exact hname ((UInt8.toNat_inj (b := 0)).mp hbyte ▸ List.getElem_mem hlt)
    · cases he
  · intro hlen
    have hzero : ∀ i, 24 ≤ i → (name ++ List.replicate (44 - name.length) 0).getD i 0 = 0 := by
      intro i hi
      rw [List.getD_append_right _ _ _ _ (by omega)]
      simp
    rw [if_pos (by omega)]
    refine ⟨_, rfl, ?_⟩
    show wordAt _ 24 = 0
    unfold wordAt
    rw [hzero 24 (by omega), hzero 25 (by omega), hzero 26 (by omega), hzero 27 (by omega)]
    rfl

theorem veLookup_answers_iff (entry : Prop) (hpriv : s.iPrivate inode ≠ 0) :
    (∃ s₁ r, s.veLookup inode name = some (s₁, r) ∧
      ∀ ve, r = some ve → (s₁.ves ve).veInode = 0 ∧ entry) ↔ s.VeAnswers name inode entry := by
  -- `proc` and `devices` do the same
  have hhook : (∃ s₁ r, (s.hookLookup name).map (fun x => (x.1, some x.2)) = some (s₁, r) ∧
      ∀ ve, r = some ve → (s₁.ves ve).veInode = 0 ∧ entry) ↔ name.length ≤ 24 ∧ entry := by
    rw [← fillVe_veInode hname S_IFREG]
    unfold hookLookup
    cases fillVe name S_IFREG with
    | none => simp
    | some e => simp [addVe]
  unfold veLookup VeAnswers
  dsimp only
  by_cases hve : s.iPrivate inode - 1 < s.nves
  · rw [if_pos hve, and_iff_right hve]
    cases (s.ves (s.iPrivate inode - 1)).veOps with
    | nop =>
      dsimp only
      unfold virtfsGetEntry
      by_cases hchild : (s.ves (s.iPrivate inode - 1)).veChild = 0
      · simp [hchild]
      · rw [if_neg (by simp [hpriv, hchild]), forall_prop_of_true hchild, scan_ves hname]
        rcases s.scanVes name (s.siblings ((s.ves (s.iPrivate inode - 1)).veChild - 1)) with
          - | - | v
        · simp
        · simp
        · simp
    | proc => exact hhook
    | dev => exact hhook
  · simp [hve]

theorem virtfsLookup_gives_iff (entry : Prop) (hdir : S_ISDIR (s.fs.inodes inode).iMode) :
    Gives (s.virtfsLookup inode name) entry ↔
      (s.iPrivate inode ≠ 0 → s.VeAnswers name inode entry) := by
  unfold virtfsLookup
  rw [if_neg (by simp [hdir])]
  by_cases hpriv : s.iPrivate inode = 0
  · simp [Gives, hpriv]
  · rw [if_neg hpriv, forall_prop_of_true hpriv, ← veLookup_answers_iff hname entry hpriv]
    rcases s.veLookup inode name with - | ⟨s₁, - | ve⟩
    · simp [Gives]
    · simp [Gives]
    · by_cases hinode : (s₁.ves ve).veInode = 0
      · simp [Gives, hinode]
      · simp [Gives, hinode]

end

theorem Sized.lookupDirentry_gives_iff (hs : s.Sized) (hname : 0 ∉ name) (entry : Prop) :
    Gives (s.lookupDirentry name inode) entry ↔ s.Answers name inode entry := by
  unfold VfsState.lookupDirentry Answers
  rw [scan_dents hname]
  by_cases hkilled : inode ∈ s.killed
  · simp [Gives, hkilled]
  · rw [if_neg hkilled]
    by_cases hdir : S_ISDIR (s.fs.inodes inode).iMode
    · rw [if_pos hdir]
      rcases s.scanDents name (s.fs.inodes inode).iChildren with - | - | d
      · simp [Gives, hdir]
      · by_cases hvirt : s.virt inode
        · simp [hkilled, hdir, hvirt, virtfsLookup_gives_iff hname entry hdir]
        · simp [Gives, hkilled, hvirt, hs.generic inode, genericLookup]
      · simp [Gives, hkilled, hdir]
    · simp [Gives, hkilled, hdir]

theorem gives_false {y : Option (VfsState × Option Nat)} :
    Gives y False ↔ ∃ s', y = some (s', none) := by
  constructor
  · rintro ⟨s', r, rfl, hr⟩
    cases r with
    | none => exact ⟨s', rfl⟩
    | some d => cases hr (Option.some_ne_none d)
  · rintro ⟨s', rfl⟩
    exact ⟨s', none, rfl, fun hr => hr rfl⟩

theorem Sized.missesFrom_iff (hs : s.Sized) {n : Nat} {c p : List UInt8} {cs : List (List UInt8)}
    (hparts : p.splitOn SLASH = c :: cs) (hn : cs.length < n) (hp : 0 ∉ p)
    (hreached : ∀ x ∈ s.reachedFrom c cs inode, x.length < FILENAME_MAX) :
    Gives (s.lookupPathLoop n p inode) False ↔ s.MissesFrom c cs inode := by
  induction cs generalizing n c p s inode with
  | nil =>
    obtain ⟨n, rfl⟩ := Nat.exists_eq_add_one_of_ne_zero (Nat.ne_of_gt hn)
    obtain ⟨hk, rfl⟩ := kstrchr_of_splitOn_singleton hparts
    rw [lookupPathLoop_succ, hk]
    exact hs.lookupDirentry_gives_iff hp False
  | cons c' cs ih =>
    obtain ⟨n, rfl⟩ := Nat.exists_eq_add_one_of_ne_zero (Nat.ne_of_gt (Nat.zero_lt_of_lt hn))
    obtain ⟨hk, htake, hcs⟩ := kstrchr_of_splitOn_cons hparts
    rw [reachedFrom, List.forall_mem_cons] at hreached
    obtain ⟨hc, hreached⟩ := hreached
    have hnul : 0 ∉ c := fun h0 => hp (List.mem_of_mem_take (htake.symm ▸ h0))
    rw [if_pos hc] at hreached
    rw [lookupPathLoop_succ, hk, MissesFrom, ← hs.lookupDirentry_gives_iff hnul]
    dsimp only
    rw [if_pos hc, htake]
    rcases hlook : s.lookupDirentry c inode with - | ⟨s₁, - | d⟩
    · simp [Gives]
    · simp [Gives]
    · rw [hlook] at hreached
      have hrest := ih (hs.lookupDirentry hlook) hcs (Nat.lt_of_succ_lt_succ hn)
        (fun h0 => hp (List.mem_of_mem_drop h0)) hreached
      dsimp only
      rw [hrest]
      constructor
      · intro h
        refine ⟨⟨s₁, some d, rfl, fun _ => trivial⟩, fun s' e he => ?_⟩
        cases he
        exact h
      · exact fun h => h.2 s₁ d rfl

theorem not_mem_dropWhile {x : UInt8} (h : x ∉ path) (f : UInt8 → Bool) : x ∉ path.dropWhile f :=
  fun hmem => h ((List.dropWhile_suffix f).subset hmem)

/-- With short names on the way, a lookup fails exactly when the last directory has no entry. -/
theorem Sized.misses_iff (hs : s.Sized) (hpath : 0 ∉ path)
    (hreached : ∀ c ∈ s.reached path, c.length < FILENAME_MAX) :
    (∃ s', s.lookupPath path = some (s', none)) ↔ s.Misses path := by
  rw [← gives_false, lookupPath_eq]
  unfold Misses
  unfold reached at hreached
  obtain ⟨hnil, hparts⟩ | ⟨hne, c, cs, hparts, hsplit, hlen⟩ := pathParts_cases path
  · rw [hparts, if_pos hnil]
    simp [Gives]
  · rw [hparts] at hreached ⊢
    rw [if_neg hne]
    exact hs.missesFrom_iff hsplit hlen (not_mem_dropWhile hpath _) hreached

/-! ## New entries -/

theorem NewTerminated.trans {s₁ : VfsState} (h : s.NewTerminated s₁) (hgrows : s₁.Grows s')
    (h' : s₁.NewTerminated s') : s.NewTerminated s' := by
  intro d hd hd'
  obtain hlt | hge := Nat.lt_or_ge d s₁.fs.ndents
  · rw [hgrows.dents d hlt]
    exact h d hd hlt
  · exact h' d hge hd'

theorem NewTerminated.refl (s : VfsState) : s.NewTerminated s :=
  fun _ hd hd' => absurd hd (Nat.not_le_of_lt hd')

theorem zero_mem_storedName (hname : 0 ∉ name) :
    0 ∈ FsState.storedName name ↔ name.length < FILENAME_MAX := by
  by_cases hlen : name.length < FILENAME_MAX
  · rw [FsState.storedName_of_lt hlen]
    simp [hlen]
  · rw [FsState.storedName_of_le (Nat.le_of_not_lt hlen)]
    exact iff_of_false (fun hmem => hname (List.mem_of_mem_take hmem)) hlen

theorem Sized.lookupDirentry_terminated (hs : s.Sized) (hname : 0 ∉ name)
    (h : s.lookupDirentry name inode = some (s', r)) : s.NewTerminated s' := by
  obtain ⟨rfl, -⟩ | ⟨d, -, hcached⟩ := lookupDirentry_cases h
  · exact .refl _
  · have hlen := hs.cached_length hname hcached
    obtain ⟨s₁, ve, hfs, rfl⟩ := hcached.exists_cache
    intro d hd hd'
    have hnd : (s₁.virtfsCache inode name ve).1.fs.ndents = s₁.fs.ndents + 1 := rfl
    obtain rfl : d = s₁.fs.ndents := by
      rw [hnd, hfs] at hd'
      rw [hfs]
      omega
    rw [virtfsCache_dents, update_self]
    exact (zero_mem_storedName hname).mpr hlen

theorem Sized.lookupPathLoop_terminated (hs : s.Sized) {n : Nat} {p : List UInt8} (hp : 0 ∉ p)
    (h : s.lookupPathLoop n p inode = some (s', r)) : s.NewTerminated s' ∧ s'.Sized := by
  refine lookupPathLoop_induction (motive := fun s p _ s' _ => s.Sized → 0 ∉ p →
    s.NewTerminated s' ∧ s'.Sized) ?_ ?_ ?_ h hs hp
  · exact fun _ hlast hs hp => ⟨hs.lookupDirentry_terminated hp hlast, hs.lookupDirentry hlast⟩
  · intro s s' p inode k _ hmiss hs hp
    have htake : 0 ∉ p.take k := fun h0 => hp (List.mem_of_mem_take h0)
    exact ⟨hs.lookupDirentry_terminated htake hmiss, hs.lookupDirentry hmiss⟩
  · intro s s₁ s' p inode n k d r _ _ hfound hrest ih hs hp
    have htake : 0 ∉ p.take k := fun h0 => hp (List.mem_of_mem_take h0)
    obtain ⟨hterm, hsized⟩ := ih (hs.lookupDirentry hfound)
      (fun h0 => hp (List.mem_of_mem_drop h0))
    exact ⟨(hs.lookupDirentry_terminated htake hfound).trans (lookupPathLoop_grows hrest) hterm,
      hsized⟩

theorem Sized.lookupPath_terminated (hs : s.Sized) (hpath : 0 ∉ path)
    (h : s.lookupPath path = some (s', r)) : s.NewTerminated s' ∧ s'.Sized := by
  obtain ⟨rfl, -⟩ | ⟨n, hloop⟩ := lookupPath_cases h
  · exact ⟨.refl _, hs⟩
  · exact hs.lookupPathLoop_terminated (not_mem_dropWhile hpath _) hloop

/-! ## A lookup -/

/-- A lookup is safe exactly when the names on the way are short, and in a path with one that is
too long the last name is not in its directory. -/
theorem Sized.lookupSafe_iff (hs : s.Sized) (hpath : 0 ∉ path) :
    s.LookupSafe path ↔ s.LookupShort path := by
  constructor
  · intro h
    have hreached : ∀ c ∈ s.reached path, c.length < FILENAME_MAX := by
      intro c hc
      have hstore := h.name (c.length + 1)
      rw [lookupStores_eq] at hstore
      exact hstore (List.mem_map_of_mem hc)
    exact ⟨hreached, fun hlong => (hs.misses_iff hpath hreached).mp (h.fails hlong)⟩
  · intro h
    refine ⟨fun n hn => ?_, fun s' r hlookup => (hs.lookupPath_terminated hpath hlookup).1,
      fun hlong => (hs.misses_iff hpath h.reached).mpr (h.misses hlong)⟩
    rw [lookupStores_eq] at hn
    obtain ⟨c, hc, heq⟩ := List.mem_map.mp hn
    cases heq
    exact h.reached c hc

/-! ## An insertion -/

theorem kstrrchr_cases {c : UInt8} (hc : c ≠ 0) (str : List UInt8) :
    kstrrchr str c = none ∧ c ∉ str ∨
      ∃ l r, str = l ++ c :: r ∧ c ∉ r ∧ kstrrchr str c = some l.length := by
  by_cases hmem : c ∈ str
  · obtain ⟨r, l, hstr, hr⟩ := List.eq_append_cons_of_mem (List.mem_reverse.mpr hmem)
    have hlast : c ∉ r.reverse := fun h => hr (List.mem_reverse.mp h)
    have hsplit : str = l.reverse ++ c :: r.reverse := by
      rw [← List.reverse_reverse str, hstr]
      simp
    exact .inr ⟨l.reverse, r.reverse, hsplit, hlast, hsplit ▸ kstrrchr_append hc hlast _⟩
  · exact .inl ⟨kstrrchr_eq_none hc hmem, hmem⟩

section InsertAt

variable {parent mode dev len : Nat} {name : List UInt8} {buf : Option Nat}

theorem insertAt_frame (h : s.insertAt parent name mode dev buf len = some s') :
    s'.fs.ndents = s.fs.ndents + 1 ∧ s'.ves = s.ves ∧
      s'.fs.dents = (s.fs.fsAddEntry parent name mode dev).1.dents ∧
      ∀ i, (s'.fs.inodes i).iLookup =
        ((s.fs.fsAddEntry parent name mode dev).1.inodes i).iLookup := by
  unfold insertAt at h
  dsimp only at h
  split at h
  · cases h
    exact ⟨rfl, rfl, rfl, fun _ => rfl⟩
  · split at h
    · obtain ⟨fs, hfs, rfl⟩ := Option.map_eq_some_iff.mp h
      obtain ⟨⟨z, mem, file⟩, -, rfl⟩ := Option.map_eq_some_iff.mp hfs
      refine ⟨rfl, rfl, rfl, fun i => ?_⟩
      dsimp only [FsState.setInode]
      rw [update_apply]
      split
      case isTrue heq =>
        subst heq
        rfl
      case isFalse => rfl
    · cases h
      exact ⟨rfl, rfl, rfl, fun _ => rfl⟩

theorem insertAt_dents (h : s.insertAt parent name mode dev buf len = some s') :
    s'.fs.dents = Function.update s.fs.dents s.fs.ndents
      ⟨FsState.storedName name, s.fs.ninodes, 1⟩ := by
  rw [(insertAt_frame h).2.2.1]
  unfold FsState.fsAddEntry FsState.newDirentry FsState.setDent FsState.setInode FsState.newInode
  simp only [update_self, update_idem]
  rfl

theorem Sized.insertAt (hs : s.Sized) (h : s.insertAt parent name mode dev buf len = some s') :
    s'.Sized := by
  obtain ⟨-, hves, -, hlookup⟩ := insertAt_frame h
  have hadd := hs.generic.fsAddEntry parent name mode dev
  exact ⟨fun i => (hlookup i).trans (hadd i), hves ▸ hs.veName⟩

end InsertAt

theorem Sized.insertTarget (hs : s.Sized) (hpath : 0 ∉ path) {t : Option (Nat × List UInt8)}
    (h : s.insertTarget path = some (s', t)) : s'.Sized ∧ s.Grows s' ∧ s.NewTerminated s' ∧
      ∀ parent name, t = some (parent, name) → 0 ∉ name := by
  unfold VfsState.insertTarget at h
  rw [PathOps.insertTarget_result] at h
  split at h
  · cases h
    exact ⟨hs, .refl _, .refl _, nofun⟩
  · split at h
    · cases h
    · rename_i hlookup
      cases h
      obtain ⟨hterm, hsized⟩ := hs.lookupPath_terminated hpath hlookup
      exact ⟨hsized, lookupPath_grows hlookup, hterm, nofun⟩
    · rename_i hlookup
      have hgrows := lookupPath_grows hlookup
      obtain ⟨hterm, hsized⟩ := hs.lookupPath_terminated hpath hlookup
      split at h
      · cases h
        exact ⟨hsized, hgrows, hterm, fun _ _ ht => by cases ht; exact hpath⟩
      · cases h
        exact ⟨hsized, hgrows, hterm, fun _ _ ht => by cases ht; exact hpath⟩
      · split at h
        · split at h
          · cases h
          · cases h
          · rename_i hdir
            cases h
            obtain ⟨hterm', hsized'⟩ := hsized.lookupPath_terminated
              (fun h0 => hpath (List.mem_of_mem_take h0)) hdir
            exact ⟨hsized', hgrows.trans (lookupPath_grows hdir),
              hterm.trans (lookupPath_grows hdir) hterm',
              fun _ _ ht => by cases ht; exact fun h0 => hpath (List.mem_of_mem_drop h0)⟩
        · cases h

theorem Sized.fsInsertEntry (hs : s.Sized) (hpath : 0 ∉ path) {mode dev len : Nat}
    {buf : Option Nat} (h : s.fsInsertEntry path mode dev buf len = some s') : s'.Sized := by
  unfold VfsState.fsInsertEntry at h
  split at h
  · cases h
  · rename_i htarget
    cases h
    exact (hs.insertTarget hpath htarget).1
  · rename_i htarget
    exact (hs.insertTarget hpath htarget).1.insertAt h

theorem dir_mem_insertStores (s : VfsState) (path : List UInt8) (n : Nat) :
    .dir n ∈ s.insertStores path ↔ kstrcmp path DOT ≠ 0 ∧
      ∃ s₁, s.lookupPath path = some (s₁, none) ∧ n = (kstrrchr path SLASH).getD 1 := by
  have hnames : ∀ (s : VfsState) (path : List UInt8),
      .dir n ∉ ((pathOps.lookupPath path).run s).events := by
    intro s path hmem
    have hstores : .dir n ∈ s.lookupStores path := hmem
    rw [lookupStores_eq] at hstores
    simp at hstores
  unfold insertStores PathOps.insertTarget
  by_cases hdot : kstrcmp path DOT = 0
  · rw [if_pos hdot]
    exact ⟨fun hmem => absurd hmem List.not_mem_nil, fun h => absurd hdot h.1⟩
  · rw [if_neg hdot, Traced.events_bind, List.mem_append, or_iff_right (hnames s path),
      and_iff_right hdot]
    unfold lookupPath
    rcases ((pathOps.lookupPath path).run s).result with - | ⟨s₁, - | d⟩
    · simp
    · rcases kstrrchr path SLASH with - | - | k
      · simp [Traced.events_bind, Traced.emit, Traced.read]
      · simp [Traced.events_bind, Traced.emit, Traced.read]
      · simp only [Option.elim_some, Traced.events_bind, Traced.emit, Traced.check]
        by_cases hk : k + 1 < FILENAME_MAX
        · simp only [hk, if_true, Option.elim_some, List.nil_append, List.mem_append,
            hnames s₁ (path.take (k + 1)), false_or]
          rcases ((pathOps.lookupPath (path.take (k + 1))).run s₁).result with - | ⟨s₂, - | d⟩
          · simp
          · simp [Traced.stop]
          · simp [Traced.read]
        · simp [hk]
    · simp [pure, Traced.read]

theorem dirStores_le_iff (s : VfsState) (path : List UInt8) :
    (∀ n, .dir n ∈ s.insertStores path → n ≤ FILENAME_MAX) ↔
      ∀ s₁ dir last, kstrcmp path DOT ≠ 0 → s.lookupPath path = some (s₁, none) →
        SLASH ∉ last → path = dir ++ SLASH :: last → dir.length ≤ FILENAME_MAX := by
  constructor
  · intro h s₁ dir last hdot hlookup hlast hdir
    have hstore := (dir_mem_insertStores s path _).mpr ⟨hdot, s₁, hlookup, rfl⟩
    have hle := h _ hstore
    rw [hdir, kstrrchr_append slash_ne_zero hlast] at hle
    exact hle
  · intro h n hn
    obtain ⟨hdot, s₁, hlookup, rfl⟩ := (dir_mem_insertStores s path n).mp hn
    obtain ⟨hnone, -⟩ | ⟨dir, last, hdir, hlast, hsome⟩ := kstrrchr_cases slash_ne_zero path
    · rw [hnone]
      decide
    · rw [hsome]
      exact h s₁ dir last hdot hlookup hlast hdir

theorem Sized.insert_terminated_iff (hs : s.Sized) (hpath : 0 ∉ path) :
    (∀ mode dev buf len s', s.fsInsertEntry path mode dev buf len = some s' →
      s.NewTerminated s') ↔
      ∀ s₂ parent name, s.insertTarget path = some (s₂, some (parent, name)) →
        name.length < FILENAME_MAX := by
  constructor
  · intro h s₂ parent name htarget
    obtain ⟨-, hgrows, -, hname⟩ := hs.insertTarget hpath htarget
    have hadd : s₂.insertAt parent name 0 0 none 0 =
        some (s₂.fsAddEntry parent name 0 0).1 := rfl
    have hinsert : s.fsInsertEntry path 0 0 none 0 =
        some (s₂.fsAddEntry parent name 0 0).1 := by
      unfold VfsState.fsInsertEntry
      rw [htarget]
      exact hadd
    have hnew := h _ _ _ _ _ hinsert s₂.fs.ndents hgrows.ndents
      (Nat.lt_succ_self _)
    rw [insertAt_dents hadd, update_self] at hnew
    exact (zero_mem_storedName (hname _ _ rfl)).mp hnew
  · intro h mode dev buf len s' hinsert
    unfold VfsState.fsInsertEntry at hinsert
    split at hinsert
    · cases hinsert
    · rename_i htarget
      cases hinsert
      exact (hs.insertTarget hpath htarget).2.2.1
    · rename_i s₂ parent name htarget
      obtain ⟨-, -, hterm, hname⟩ := hs.insertTarget hpath htarget
      have hnd := (insertAt_frame hinsert).1
      intro d hd hd'
      rw [insertAt_dents hinsert, update_apply]
      split
      · exact (zero_mem_storedName (hname _ _ rfl)).mpr (h _ _ _ htarget)
      · exact hterm d hd (by omega)

/-- An insertion is safe exactly when the lookups are and when the directory and the name
are short. -/
theorem Sized.insertSafe_iff (hs : s.Sized) (hpath : 0 ∉ path) :
    s.InsertSafe path ↔ s.InsertShort path := by
  have hsecond : ∀ s₁ dir, s.SecondLookup path s₁ dir →
      (s₁.LookupSafe dir ↔ s₁.LookupShort dir) := by
    rintro s₁ dir ⟨-, hlookup, -, -, last, -, hdir⟩
    refine (hs.lookupPath_terminated hpath hlookup).2.lookupSafe_iff (fun h0 => hpath ?_)
    rw [hdir]
    exact List.mem_append_left _ h0
  constructor
  · intro h
    exact ⟨fun hdot => (hs.lookupSafe_iff hpath).mp (h.first hdot),
      (dirStores_le_iff s path).mp h.dir,
      fun s₁ dir hlook => (hsecond s₁ dir hlook).mp (h.second s₁ dir hlook),
      (hs.insert_terminated_iff hpath).mp h.dName⟩
  · intro h
    exact ⟨fun hdot => (hs.lookupSafe_iff hpath).mpr (h.first hdot),
      (dirStores_le_iff s path).mpr h.dir,
      fun s₁ dir hlook => (hsecond s₁ dir hlook).mpr (h.second s₁ dir hlook),
      (hs.insert_terminated_iff hpath).mpr h.name⟩

/-! ## The first state -/

theorem Sized.virtfsInitInodes (hs : s.Sized) : s.virtfsInitInodes.1.Sized where
  generic := by
    unfold VfsState.virtfsInitInodes
    dsimp only
    exact FsState.Generic.setInode hs.generic.newInode _ (fun _ => rfl)
  veName := hs.veName

theorem Sized.mount0 (hs : s.Sized) (mntpt root : Nat) : (s.mount0 mntpt root).Sized where
  generic := by
    unfold VfsState.mount0
    dsimp only
    refine FsState.Generic.setDent ?_ _ _
    exact FsState.Generic.setInode hs.generic _ (fun _ => rfl)
  veName := hs.veName

theorem veTable_sized (ve : Nat) :
    (veTable.getD ve (veEntry [] 0 0 .nop)).veName.length ≤ VE_NAME_MAX := by
  have htable : ∀ e ∈ veTable, e.veName.length ≤ VE_NAME_MAX := by decide
  rw [List.getD_eq_getElem?_getD]
  cases he : veTable[ve]? with
  | none => decide
  | some e => exact htable e (List.mem_of_getElem? he)

theorem bootVfs_sized : bootVfs.Sized :=
  (Sized.virtfsInitInodes ⟨FsState.fsInit_generic _ _, veTable_sized⟩).mount0 _ _

/-! ## The buffers -/

/-- For every path and every tree, the buffers hold what a lookup and an insertion store,
and a name that is too long makes the lookup fail, exactly when the names in front of a
slash, the directory and the new name are short and the last directory answers and has no
entry for a name that is too long.  The arrays keep their sizes, so this is so for one call
after the other. -/
theorem path_buffers_iff (hs : s.Sized) (hpath : 0 ∉ path) :
    (s.LookupSafe path ↔ s.LookupShort path) ∧ (s.InsertSafe path ↔ s.InsertShort path) ∧
      (∀ s' r, s.lookupPath path = some (s', r) → s'.Sized) ∧
      ∀ mode dev buf len s', s.fsInsertEntry path mode dev buf len = some s' → s'.Sized :=
  ⟨hs.lookupSafe_iff hpath, hs.insertSafe_iff hpath,
    fun _ _ h => (hs.lookupPath_terminated hpath h).2,
    fun _ _ _ _ _ h => hs.fsInsertEntry hpath h⟩

/-- A name that is as long as the arrays. -/
def longName : List UInt8 := List.replicate FILENAME_MAX 0x61

theorem longName_short : bootVfs.LookupShort longName := by
  have hnul : 0 ∉ longName := by decide +kernel
  have hreached : ∀ c ∈ bootVfs.reached longName, c.length < FILENAME_MAX := by decide +kernel
  have hnull : (bootVfs.lookupPath longName).map Prod.snd = some none := by decide +kernel
  obtain ⟨⟨s', r⟩, hs', rfl⟩ := Option.map_eq_some_iff.mp hnull
  refine ⟨hreached, fun _ => ?_⟩
  rw [← bootVfs_sized.misses_iff hnul hreached]
  exact ⟨s', hs'⟩

theorem path_buffers_lol : bootVfs.LookupSafe lolPath ∧ bootVfs.LookupSafe longName ∧
      bootVfs.InsertSafe [0x78] := by
  have hx : bootVfs.LookupShort [0x78] := ⟨by decide +kernel, fun h => absurd h (by decide)⟩
  have hslash : ∀ dir last : List UInt8, [0x78] ≠ dir ++ SLASH :: last := by
    intro dir last h
    have hmem : SLASH ∈ ([0x78] : List UInt8) := h ▸ List.mem_append_right _ List.mem_cons_self
    exact absurd hmem (by decide)
  refine ⟨(path_buffers_iff bootVfs_sized (by decide)).1.mpr ⟨?_, ?_⟩,
    (path_buffers_iff bootVfs_sized (by decide +kernel)).1.mpr longName_short,
    (path_buffers_iff bootVfs_sized (by decide)).2.1.mpr ⟨fun _ => hx, ?_, ?_, ?_⟩⟩
  · decide +kernel
  · exact fun h => absurd h (by decide)
  · exact fun _ dir last _ _ _ hdir => absurd hdir (hslash dir last)
  · exact fun _ dir ⟨_, _, _, _, last, _, hdir⟩ => absurd hdir (hslash dir last)
  · intro s₂ parent name htarget
    cases htarget
    decide

/-- The path `x/x/` and so on, with 130 names. -/
def longDir : List UInt8 := (List.replicate 130 [0x78, SLASH]).flatten

/-- A name that is too long, in `proc`. -/
def procPath : List UInt8 :=
  KOOWALDAH ++ [SLASH, 0x70, 0x72, 0x6f, 0x63, SLASH] ++ longName

/-- The name in front of a slash takes 257 bytes in `name`; the directory takes 259 bytes in
`dir`; the name alone is stored without a NUL, and a name with the byte 1 of `d_refcnt` behind it
is found; the lookup in `proc` leaves the memory of the entry. -/
theorem path_buffers_overflow : 0 ∉ longName ∧ 0 ∉ longDir ∧
      bootVfs.lookupStores (longName ++ [SLASH, 0x62]) = [.name (FILENAME_MAX + 1)] ∧
      ¬bootVfs.LookupSafe (longName ++ [SLASH, 0x62]) ∧
      bootVfs.insertStores (longDir ++ [0x79]) = [.name 2, .dir (FILENAME_MAX + 3)] ∧
      ¬bootVfs.InsertSafe (longDir ++ [0x79]) ∧
      (bootVfs.fsInsertEntry longName S_IFREG NODEV none 0).map
        (fun s' => (s'.fs.ndents, (s'.fs.dents bootVfs.fs.ndents).dName,
          (s'.lookupPath (longName ++ [1])).map Prod.snd)) =
          some (bootVfs.fs.ndents + 1, longName, some (some bootVfs.fs.ndents)) ∧
      ¬bootVfs.InsertSafe longName ∧
      (bootVfs.lookupPath procPath).isNone ∧ ¬bootVfs.LookupSafe procPath := by
  have hnul : 0 ∉ longName := by decide +kernel
  have hname : bootVfs.lookupStores (longName ++ [SLASH, 0x62]) = [.name (FILENAME_MAX + 1)] := by
    decide +kernel
  have hdir : bootVfs.insertStores (longDir ++ [0x79]) = [.name 2, .dir (FILENAME_MAX + 3)] := by
    decide +kernel
  have hinsert : (bootVfs.fsInsertEntry longName S_IFREG NODEV none 0).map
      (fun s' => (s'.fs.ndents, (s'.fs.dents bootVfs.fs.ndents).dName,
        (s'.lookupPath (longName ++ [1])).map Prod.snd)) =
        some (bootVfs.fs.ndents + 1, longName, some (some bootVfs.fs.ndents)) := by
    decide +kernel
  have hproc : (bootVfs.lookupPath procPath).isNone := by decide +kernel
  refine ⟨hnul, by decide +kernel, hname, fun h => ?_, hdir, fun h => ?_, hinsert, fun h => ?_,
    hproc, fun h => ?_⟩
  · exact absurd (h.name _ (hname ▸ List.mem_singleton_self _)) (by decide)
  · exact absurd (h.dir _ (hdir ▸ List.mem_cons_of_mem _ (List.mem_singleton_self _))) (by decide)
  · obtain ⟨s', hs', hnew⟩ := Option.map_eq_some_iff.mp hinsert
    obtain ⟨hnd, hdents⟩ := Prod.mk.inj hnew
    refine hnul ((Prod.mk.inj hdents).1 ▸ h.dName _ _ _ _ s' hs' _ (Nat.le_refl _) ?_)
    rw [hnd]
    exact Nat.lt_succ_self _
  · obtain ⟨s', hs'⟩ := h.fails (by decide +kernel)
    rw [hs'] at hproc
    cases hproc

end VfsState

end Koowaldah
