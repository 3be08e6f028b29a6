import Koowaldah.Fs.PathWalk
import Koowaldah.Fs.VfsFiles

/-!
# Making a named pipe

`mpipe_open` of `kernel/fs/mpipe.c` makes a pipe with a name in `/koowaldah/srv`.  It
looks up the path first: a path that is there is busy.  Otherwise it fills a
`struct virtfs_entry`, links it into the tree, and looks up the path once more, so that
`virtfs_lookup` makes the inode of the pipe.

Two things go wrong.  `lookup_path` hands out no reference, yet the busy path drops one
with `release_direntry`.  And the name is copied to the 12 bytes of `ve_name` whatever
its length is (`mpipeOpen_busy`, `mpipeOpen_new_iff`).
-/

namespace Koowaldah

open Function SysLib

/-- `"<null>"`, which `snprintf` shows for an empty string. -/
def NULL_TEXT : List UInt8 := [0x3c, 0x6e, 0x75, 0x6c, 0x6c, 0x3e]

/-- The path `/koowaldah/srv`. -/
def srvPath : List UInt8 := SLASH :: VfsState.KOOWALDAH ++ SLASH :: VfsState.SRV

/-- What `snprintf` makes of `"/koowaldah/srv/%s"`. -/
def pipePath (name : List UInt8) : List UInt8 :=
  srvPath ++ SLASH :: (if name = [] then NULL_TEXT else name)

/-- The allocations of `mpipe_open`: the first that fails, or `all`. -/
inductive PipeMemory where
  | noVe
  | noFile
  | noCtl
  | all
deriving DecidableEq, Repr

/-- `VE_ADD_SIBLING`, for a new entry: the state and the entry. -/
def VfsState.addSibling (s : VfsState) (list : Nat) (ve : VirtfsEntryFields) : VfsState × Nat :=
  let (s, v) := s.addVe ve
  ({ s with siblings := Function.update s.siblings list (v :: s.siblings list) }, v)

/-- The part of `mpipe_open` that sets up the inode.  `pipe` is the entry of the pipe, and
stands for its control structure too. -/
def VfsState.setPipe (s : VfsState) (inode pipe : Nat) : VfsState :=
  { s with
    fs := s.fs.setInode inode (fun i => { i with iSize := 1 })
    iFops := Function.update s.iFops inode (some .mpipe)
    iCtl := Function.update s.iCtl inode (some pipe) }

/-- `mpipe_open`, by a thread. -/
def VfsSys.mpipeOpen (s : VfsSys) (memory : PipeMemory) (thread : Nat) (name : List UInt8) :
    Option (VfsSys × Int) :=
  -- `pathname` has room for `FILENAME_MAX` characters, and `snprintf` does not look
  if (pipePath name).length < FILENAME_MAX then
    match s.vfs.lookupPath (pipePath name) with
    | none => none
    | some (vfs, some dent) =>
      (vfs.releaseDirentry dent).map (fun vfs => (⟨vfs, s.tables⟩, -EBUSY))
    | some (vfs, none) =>
      if memory = .noVe then some (⟨vfs, s.tables⟩, -ENOMEM)
      else
        match fillVe name S_IFIFO with
        | none => none
        | some ve =>
          if memory = .noFile ∨ memory = .noCtl then
            -- `free_ve` unlinks `ve_sibling`, which is at 36 and may have been overwritten
            if name.length < 36 then some (⟨vfs, s.tables⟩, -ENOMEM) else none
          else
            let (vfs, v) := vfs.addSibling VfsState.virtfsSrv ve
            match vfs.lookupPath (pipePath name) with
            | some (vfs, some dent) =>
              let inode := (vfs.fs.dents dent).dInode
              let (t, fd) := (s.tables thread).mpipeOpen (.ok inode)
              some (⟨vfs.setPipe inode v, Function.update s.tables thread t⟩, fd)
            -- `dent` is used without a check
            | _ => none
  else none

/-! ## A busy call -/

namespace VfsState

variable {s s' : VfsState}

theorem releaseInode_effect {inode : Nat} (h : s.releaseInode inode = some s') :
    s'.fs.dents = s.fs.dents ∧
      ∀ i, (s'.fs.inodes i).iChildren = (s.fs.inodes i).iChildren := by
  have hset : ∀ (count i : Nat), ((s.fs.setInode inode (fun i =>
      { i with iRefcnt := count })).inodes i).iChildren = (s.fs.inodes i).iChildren := by
    intro count i
    show ((Function.update s.fs.inodes inode _) i).iChildren = _
    rw [update_apply]
    split
    case isTrue heq => rw [heq]
    case isFalse => rfl
  unfold releaseInode freeInode at h
  dsimp only at h
  split at h
  · cases h
  · split at h
    · split at h
      · cases h
      · split at h
        · split at h
          all_goals
            cases h
            exact ⟨rfl, hset _⟩
        · cases h
          exact ⟨rfl, hset _⟩
    · cases h
      exact ⟨rfl, hset _⟩

/-- `release_direntry` counts the entry down, and takes nothing from a list of children. -/
theorem releaseDirentry_effect {dent : Nat} (h : s.releaseDirentry dent = some s') :
    (s'.fs.dents dent).dRefcnt = subWord (s.fs.dents dent).dRefcnt 1 ∧
      ∀ i, (s'.fs.inodes i).iChildren = (s.fs.inodes i).iChildren := by
  unfold releaseDirentry freeDirentry at h
  obtain ⟨s₁, hs₁, h⟩ := Option.bind_eq_some_iff.mp h
  have hs₁fs : s₁.fs = s.fs.setDent dent (fun d =>
      { d with dRefcnt := subWord (s.fs.dents dent).dRefcnt 1 }) := by
    split at hs₁
    · split at hs₁
      · cases hs₁
      · exact congrArg VfsState.fs (Option.some.inj hs₁).symm
    · exact congrArg VfsState.fs (Option.some.inj hs₁).symm
  obtain ⟨hdents, hchildren⟩ := releaseInode_effect h
  rw [hs₁fs] at hdents hchildren
  refine ⟨?_, hchildren⟩
  rw [hdents]
  unfold FsState.setDent
  dsimp only
  rw [update_self]

end VfsState

theorem subWord_one_ne (n : Nat) : subWord n 1 ≠ n := by
  unfold subWord WORD_RANGE
  omega

namespace VfsSys

/-- Every count, every list of children and the tree of the virtual file system are as
before. -/
structure Unchanged (s s' : VfsSys) : Prop where
  dRefcnt : ∀ d < s.vfs.fs.ndents, (s'.vfs.fs.dents d).dRefcnt = (s.vfs.fs.dents d).dRefcnt
  iRefcnt : ∀ i < s.vfs.fs.ninodes, (s'.vfs.fs.inodes i).iRefcnt = (s.vfs.fs.inodes i).iRefcnt
  iChildren : ∀ i < s.vfs.fs.ninodes,
    (s'.vfs.fs.inodes i).iChildren = (s.vfs.fs.inodes i).iChildren
  ves : ∀ ve < s.vfs.nves, s'.vfs.ves ve = s.vfs.ves ve
  siblings : ∀ ve < s.vfs.nves, s'.vfs.siblings ve = s.vfs.siblings ve

theorem mpipeOpen_of_found {s : VfsSys} {name : List UInt8} {vfs : VfsState} {dent : Nat}
    (hname : (pipePath name).length < FILENAME_MAX)
    (hfound : s.vfs.lookupPath (pipePath name) = some (vfs, some dent)) (memory : PipeMemory)
    (thread : Nat) : s.mpipeOpen memory thread name =
      (vfs.releaseDirentry dent).map (fun vfs => (⟨vfs, s.tables⟩, -EBUSY)) := by
  unfold mpipeOpen
  rw [if_pos hname, hfound]

def StillCounted (vfs : VfsState) (dent : Nat) : Prop :=
  (vfs.fs.dents dent).dInode ∉ vfs.killed ∧ subWord (vfs.fs.dents dent).dRefcnt 1 ≠ 0 ∧
    subWord (vfs.fs.inodeOf dent).iRefcnt 1 ≠ 0

/-- The state with one reference less on an entry and on its inode. -/
def countDown (vfs : VfsState) (dent : Nat) : VfsState :=
  { vfs with
    fs := (vfs.fs.setDent dent (fun d => { d with dRefcnt := subWord d.dRefcnt 1 })).setInode
      (vfs.fs.dents dent).dInode (fun i => { i with iRefcnt := subWord i.iRefcnt 1 }) }

theorem releaseDirentry_of_stillCounted {vfs : VfsState} {dent : Nat}
    (h : StillCounted vfs dent) : vfs.releaseDirentry dent = some (countDown vfs dent) := by
  obtain ⟨hkilled, hdent, hinode⟩ := h
  unfold VfsState.releaseDirentry
  dsimp only
  rw [if_neg hdent, Option.bind_some]
  unfold VfsState.releaseInode countDown FsState.setDent FsState.setInode
  unfold FsState.inodeOf at hinode
  rw [if_neg hkilled, if_neg hinode]

/-- A busy call never leaves the state as it was.  While neither count is on its last
reference it returns `-EBUSY`, with a reference less on the entry and on its inode. -/
theorem mpipeOpen_busy (s : VfsSys) (memory : PipeMemory) (thread : Nat) (name : List UInt8)
    (vfs : VfsState) (dent : Nat) (hs : s.vfs.Wf)
    (hfound : s.vfs.lookupPath (pipePath name) = some (vfs, some dent)) :
    (∀ s', s.mpipeOpen memory thread name = some (s', -EBUSY) → ¬s.Unchanged s') ∧
      ((pipePath name).length < FILENAME_MAX → StillCounted vfs dent →
        s.mpipeOpen memory thread name = some (⟨countDown vfs dent, s.tables⟩, -EBUSY)) := by
  constructor
  · intro s' hbusy hsame
    have hname : (pipePath name).length < FILENAME_MAX := by
      by_contra hlong
      rw [mpipeOpen, if_neg hlong] at hbusy
      cases hbusy
    rw [mpipeOpen_of_found hname hfound] at hbusy
    obtain ⟨vfs', hrelease, heq⟩ := Option.map_eq_some_iff.mp hbusy
    cases heq
    obtain ⟨hcount, hchildren⟩ := VfsState.releaseDirentry_effect hrelease
    -- the lookup found the entry in a list, or made one
    obtain ⟨-, hlt, rfl | ⟨i, hi, hmore⟩⟩ := hs.lookupPath hfound
    · have hcountSame := hsame.dRefcnt dent (hlt dent rfl)
      rw [hcount] at hcountSame
      exact subWord_one_ne _ hcountSame
    · have hchildrenSame := hsame.iChildren i hi
      rw [hchildren i] at hchildrenSame
      rw [hchildrenSame] at hmore
      exact Nat.lt_irrefl _ hmore
  · intro hname hcounted
    rw [mpipeOpen_of_found hname hfound, releaseDirentry_of_stillCounted hcounted]
    rfl

/-- The name `omg`, of a directory that is in the tree from the beginning. -/
def OMG : List UInt8 := [0x6f, 0x6d, 0x67]

/-- A name that is taken: the call is refused, and the state is not what it was. -/
theorem mpipeOpen_busy_omg : (bootSys.mpipeOpen .all 0 OMG).map (·.2) = some (-EBUSY) ∧
      ∀ s', bootSys.mpipeOpen .all 0 OMG = some (s', -EBUSY) → ¬bootSys.Unchanged s' := by
  have hfound : (bootSys.vfs.lookupPath (pipePath OMG)).map (·.2) = some (some 9) := by
    decide +kernel
  obtain ⟨⟨vfs, dent⟩, hlookup, rfl⟩ := Option.map_eq_some_iff.mp hfound
  refine ⟨by decide +kernel, ?_⟩
  exact (mpipeOpen_busy bootSys .all 0 OMG vfs 9 VfsState.bootVfs_wf hlookup).1

/-- A pipe `a` is made, and then asked for again: the call is refused, both counts go to 0
and the entry is freed.  It is still in the directory, and the next lookup of the name
runs into it. -/
theorem mpipeOpen_busy_twice : ∃ s₁ s₂, bootSys.mpipeOpen .all 0 [0x61] = some (s₁, 0) ∧
    s₁.mpipeOpen .all 0 [0x61] = some (s₂, -EBUSY) ∧
    (s₁.vfs.fs.dents 9).dRefcnt = 1 ∧ (s₂.vfs.fs.dents 9).dRefcnt = 0 ∧
    (s₁.vfs.fs.inodes 10).iRefcnt = 1 ∧ (s₂.vfs.fs.inodes 10).iRefcnt = 0 ∧
    s₂.vfs.freed = [9] ∧ (s₂.vfs.fs.inodes 9).iChildren = [9] ∧
    s₂.vfs.lookupDirentry [0x61] 9 = none ∧ ¬s₁.Unchanged s₂ := by
  have hcalls : (bootSys.mpipeOpen .all 0 [0x61]).bind (fun r =>
      (r.1.mpipeOpen .all 0 [0x61]).map (fun r' => ([r.2, r'.2],
        [(r.1.vfs.fs.dents 9).dRefcnt, (r'.1.vfs.fs.dents 9).dRefcnt,
          (r.1.vfs.fs.inodes 10).iRefcnt, (r'.1.vfs.fs.inodes 10).iRefcnt, r.1.vfs.fs.ndents],
        r'.1.vfs.freed, (r'.1.vfs.fs.inodes 9).iChildren,
        (r'.1.vfs.lookupDirentry [0x61] 9).isSome))) =
      some ([0, -EBUSY], [1, 0, 1, 0, 10], [9], [9], false) := by decide +kernel
  obtain ⟨⟨s₁, r₁⟩, hs₁, hmap⟩ := Option.bind_eq_some_iff.mp hcalls
  obtain ⟨⟨s₂, r₂⟩, hs₂, heq⟩ := Option.map_eq_some_iff.mp hmap
  simp only [Prod.mk.injEq, List.cons.injEq, and_true, Option.isSome_eq_false_iff,
    Option.isNone_iff_eq_none] at heq
  obtain ⟨⟨rfl, rfl⟩, ⟨hd₁, hd₂, hi₁, hi₂, hndents⟩, hfreed, hchildren, hlookup⟩ := heq
  refine ⟨s₁, s₂, hs₁, hs₂, hd₁, hd₂, hi₁, hi₂, hfreed, hchildren, hlookup, fun h => ?_⟩
  have hsame := h.dRefcnt 9 (by omega)
  omega

end VfsSys

/-! ## The name in the tree -/

theorem fillVe_string {name : List UInt8} {ve : VirtfsEntryFields} (hnul : 0 ∉ name)
    (h : fillVe name S_IFIFO = some ve) : ve.string = some (name.take VE_NAME_MAX) := by
  unfold fillVe at h
  split at h
  case isFalse => cases h
  case isTrue hlen =>
    cases h
    unfold VirtfsEntryFields.string
    have hnul' : 0 ∉ name.take VE_NAME_MAX := fun hmem => hnul (List.mem_of_mem_take hmem)
    -- the byte behind those characters is 0: it is in the array or the first of the mode
    obtain hle | hlt := Nat.lt_or_ge name.length VE_NAME_MAX
    · obtain ⟨n, hn⟩ : ∃ n, VE_NAME_MAX - name.length = n + 1 :=
        ⟨VE_NAME_MAX - name.length - 1, by omega⟩
      have hsplit : (name ++ List.replicate (SIZEOF_VE - name.length) 0).take VE_NAME_MAX =
          name.take VE_NAME_MAX ++ 0 :: List.replicate n 0 := by
        rw [List.take_append, List.take_replicate, ← List.replicate_succ]
        unfold VE_NAME_MAX at *
        unfold SIZEOF_VE
        congr 2
        omega
      rw [hsplit, List.append_assoc, List.cons_append, cstring_append_zero hnul']
    · have hsplit : (name ++ List.replicate (SIZEOF_VE - name.length) 0).take VE_NAME_MAX =
          name.take VE_NAME_MAX := List.take_append_of_le_length hlt
      have hmode : wordBytes S_IFIFO = [0, 16, 0, 0] := by decide
      rw [hsplit, hmode, cstring_append_zero hnul']

theorem fillVe_isSome {name : List UInt8} (h : name.length ≤ VE_NAME_MAX) :
    ∃ ve, fillVe name S_IFIFO = some ve ∧ ve.veInode = 0 ∧ ve.veMode = S_IFIFO := by
  unfold VE_NAME_MAX at h
  refine ⟨_, if_pos (by unfold SIZEOF_VE; omega), ?_, rfl⟩
  have hzero : ∀ off, 24 ≤ off →
      (name ++ List.replicate (SIZEOF_VE - name.length) 0).getD off 0 = 0 := by
    intro off hoff
    rw [List.getD_append_right _ _ _ _ (by omega), List.getD_eq_getElem?_getD,
      List.getElem?_replicate]
    split <;> rfl
  unfold wordAt
  rw [hzero 24 (by omega), hzero (24 + 1) (by omega), hzero (24 + 2) (by omega),
    hzero (24 + 3) (by omega)]
  rfl

namespace VfsState

variable {s : VfsState} {k r d i : Nat} {name : List UInt8}

variable {s' : VfsState} {c : List UInt8}

theorem scanVes_congr {l : List Nat} (h : ∀ v ∈ l, s'.ves v = s.ves v) :
    s'.scanVes name l = s.scanVes name l := by
  induction l with
  | nil => rfl
  | cons v l ih =>
    rw [scanVes, scanVes, h v List.mem_cons_self, ih (fun w hw => h w (List.mem_cons_of_mem v hw))]

/-- The search for the name of a new entry, which is the first one: it stops there when the
name is in the array as a whole. -/
theorem scanVes_new {v : Nat} {l : List Nat} (hnul : 0 ∉ name)
    (hfill : fillVe name S_IFIFO = some (s.ves v)) :
    s.scanVes name (v :: l) =
      if name.length ≤ VE_NAME_MAX then some (some v) else s.scanVes name l := by
  rw [scanVes, fillVe_string hnul hfill]
  dsimp only
  have hcmp : kstrcmp name (name.take VE_NAME_MAX) = 0 ↔ name.length ≤ VE_NAME_MAX := by
    rw [kstrcmp_eq_zero_iff hnul (fun hmem => hnul (List.mem_of_mem_take hmem)), eq_comm,
      List.take_eq_self_iff]
  rw [if_congr hcmp rfl rfl]

/-! ## The directory of the pipes -/

/-- A name is found in the list of children of a directory. -/
def Finds (s : VfsState) (c : List UInt8) (i d : Nat) : Prop :=
  i ∉ s.killed ∧ S_ISDIR (s.fs.inodes i).iMode = true ∧
    s.scanDents c (s.fs.inodes i).iChildren = some (some d)

instance decidableFinds (s : VfsState) (c : List UInt8) (i d : Nat) : Decidable (s.Finds c i d) :=
  inferInstanceAs (Decidable (_ ∧ _ ∧ _))

theorem Finds.lookup (h : s.Finds c i d) : s.lookupDirentry c i = some (s, some d) := by
  unfold lookupDirentry
  rw [if_neg h.1, if_pos h.2.1, h.2.2]

theorem Finds.not_notDir (h : s.Finds c i d) : ¬s.NotDir i := by
  intro hnot
  rw [NotDir, h.2.1] at hnot
  cases hnot.2

/-- `/koowaldah/srv` is in the lists of children: `k` and `d` are the entries on the way,
`r` the root of the virtual file system and `i` the inode of `srv`. -/
structure SrvAt (s : VfsState) (k r d i : Nat) : Prop where
  kFound : s.Finds KOOWALDAH s.fs.nInode k
  root : s.fs.enter (s.fs.dents k).dInode = r
  dFound : s.Finds SRV r d
  inode : s.fs.enter (s.fs.dents d).dInode = i
  notKilled : i ∉ s.killed
  isDir : S_ISDIR (s.fs.inodes i).iMode = true
  virt : s.virt i = true
  nInode_ne : s.fs.nInode ≠ i
  root_ne : r ≠ i
  iPrivate : s.iPrivate i = srv + 1
  srv_lt : srv < s.nves
  srvOps : (s.ves srv).veOps = .nop
  srvChild : (s.ves srv).veChild = virtfsSrv + 1
  siblings_lt : ∀ v ∈ s.siblings virtfsSrv, v < s.nves
  freed_lt : ∀ e ∈ s.freed, e < s.fs.ndents

/-- A name of a pipe: a part of a path that `pathname` has room for. -/
structure PipeName (name : List UInt8) : Prop where
  ne_nil : name ≠ []
  slash : SLASH ∉ name
  nul : 0 ∉ name
  length_lt : (pipePath name).length < FILENAME_MAX

theorem PipeName.dropWhile (h : PipeName name) : (pipePath name).dropWhile (· == SLASH) =
      KOOWALDAH ++ SLASH :: (SRV ++ SLASH :: name) := by
  unfold pipePath
  rw [if_neg h.ne_nil]
  rfl

theorem PipeName.splitOn (h : PipeName name) :
    ((pipePath name).dropWhile (· == SLASH)).splitOn SLASH = KOOWALDAH :: ([SRV] ++ [name]) := by
  rw [h.dropWhile, List.splitOn_append_cons_self_of_not_mem (by decide),
    List.splitOn_append_cons_self_of_not_mem (by decide), List.splitOn_eq_singleton h.slash]
  rfl

theorem PipeName.lt (h : PipeName name) : name.length < FILENAME_MAX := by
  have hlt := h.length_lt
  unfold pipePath at hlt
  rw [if_neg h.ne_nil, List.length_append, List.length_cons] at hlt
  omega

theorem lookupPath_srv (s : VfsState) :
    s.lookupPath srvPath = s.splitWalkFrom KOOWALDAH [SRV] s.fs.nInode :=
  lookupPath_of_splitOn (by decide) (by decide) (by decide) s

theorem PipeName.lookupPath (h : PipeName name) (s : VfsState) :
    s.lookupPath (pipePath name) =
      match s.lookupPath srvPath with
      | none => none
      | some (s, none) => some (s, none)
      | some (s, some d) =>
        let inode := s.fs.enter (s.fs.dents d).dInode
        if s.NotDir inode then some (s, none) else s.lookupDirentry name inode := by
  have hfits : ∀ x ∈ KOOWALDAH :: ([SRV] ++ [name]), x.length < FILENAME_MAX := by
    intro x hx
    simp only [List.cons_append, List.nil_append, List.mem_cons, List.not_mem_nil, or_false] at hx
    obtain rfl | rfl | rfl := hx
    · decide
    · decide
    · exact h.lt
  have hne : (pipePath name).dropWhile (· == SLASH) ≠ [] := by
    rw [h.dropWhile]
    exact List.append_ne_nil_of_left_ne_nil (by decide) _
  rw [lookupPath_srv]
  exact (lookupPath_of_splitOn hne h.splitOn hfits s).trans (splitWalkFrom_concat ..)

theorem SrvAt.not_notDir (h : s.SrvAt k r d i) : ¬s.NotDir i := by
  intro hnot
  rw [NotDir, h.isDir] at hnot
  cases hnot.2

theorem SrvAt.lookup (h : s.SrvAt k r d i) (hname : PipeName name) :
    s.lookupPath (pipePath name) = s.lookupDirentry name i := by
  have hsrv : s.lookupPath srvPath = some (s, some d) := by
    rw [lookupPath_srv, splitWalkFrom, h.kFound.lookup]
    dsimp only
    rw [h.root, if_neg h.dFound.not_notDir]
    exact h.dFound.lookup
  rw [hname.lookupPath, hsrv]
  dsimp only
  rw [h.inode, if_neg h.not_notDir]

theorem SrvAt.lookupDirentry (h : s.SrvAt k r d i) (name : List UInt8) :
    s.lookupDirentry name i =
      match s.scanDents name (s.fs.inodes i).iChildren with
      | none => none
      | some (some e) => some (s, some e)
      | some none =>
        match s.scanVes name (s.siblings virtfsSrv) with
        | none => none
        | some none => some (s, none)
        | some (some ve) =>
          if (s.ves ve).veInode ≠ 0 then none
          else some ((s.virtfsCache i name ve).1, some s.fs.ndents) := by
  have hpriv : ¬s.iPrivate i = 0 := by
    rw [h.iPrivate]
    omega
  have hve : s.iPrivate i - 1 = srv := by
    rw [h.iPrivate]
    omega
  have hget : s.virtfsGetEntry i name = s.scanVes name (s.siblings virtfsSrv) := by
    have hchild : ¬(s.iPrivate i = 0 ∨ (s.ves srv).veChild = 0) := by
      rw [h.srvChild]
      omega
    unfold virtfsGetEntry
    rw [hve, if_neg hchild, h.srvChild]
    rfl
  have hlookup : s.veLookup i name =
      (s.scanVes name (s.siblings virtfsSrv)).map (fun ve => (s, ve)) := by
    unfold veLookup
    rw [hve, if_pos h.srv_lt, h.srvOps, ← hget]
  unfold VfsState.lookupDirentry
  rw [if_neg h.notKilled, if_pos h.isDir]
  match s.scanDents name (s.fs.inodes i).iChildren with
  | none => rfl
  | some (some e) => rfl
  | some none =>
    rw [if_pos h.virt, virtfsLookup, h.isDir, if_neg hpriv, hlookup]
    match s.scanVes name (s.siblings virtfsSrv) with
    | none => rfl
    | some none => rfl
    | some (some ve) => rfl

theorem scanDents_congr {ds : List Nat} (hdents : ∀ e ∈ ds, s'.fs.dents e = s.fs.dents e)
    (hfreed : s'.freed = s.freed) : s'.scanDents name ds = s.scanDents name ds := by
  induction ds with
  | nil => rfl
  | cons e ds ih =>
    rw [scanDents, scanDents, hfreed, hdents e List.mem_cons_self,
      ih (fun x hx => hdents x (List.mem_cons_of_mem e hx))]

/-- What `SrvAt` depends on: the entries and the inodes that were there, but for the
children of `srv`, and the entry of `srv` in the tree. -/
structure Agrees (s s' : VfsState) (i : Nat) : Prop where
  nInode : s'.fs.nInode = s.fs.nInode
  ndents : s.fs.ndents ≤ s'.fs.ndents
  dents : ∀ e < s.fs.ndents, s'.fs.dents e = s.fs.dents e
  iMode : ∀ j < s.fs.ninodes, (s'.fs.inodes j).iMode = (s.fs.inodes j).iMode
  iMount : ∀ j < s.fs.ninodes, (s'.fs.inodes j).iMount = (s.fs.inodes j).iMount
  iChildren : ∀ j < s.fs.ninodes, j ≠ i →
    (s'.fs.inodes j).iChildren = (s.fs.inodes j).iChildren
  freed : s'.freed = s.freed
  killed : s'.killed = s.killed
  virt : s'.virt i = s.virt i
  iPrivate : s'.iPrivate i = s.iPrivate i
  nves : s.nves ≤ s'.nves
  srv : (s'.ves srv).veOps = (s.ves srv).veOps ∧ (s'.ves srv).veChild = (s.ves srv).veChild
  siblings : ∀ v ∈ s'.siblings virtfsSrv, v ∈ s.siblings virtfsSrv ∨ v < s'.nves

theorem Finds.agrees {j e : Nat} (h : s.Finds c j e) (hs : s.Wf) (hagrees : s.Agrees s' i)
    (hj : j < s.fs.ninodes) (hne : j ≠ i) : s'.Finds c j e := by
  refine ⟨hagrees.killed ▸ h.1, (hagrees.iMode j hj).symm ▸ h.2.1, ?_⟩
  rw [hagrees.iChildren j hj hne, scanDents_congr _ hagrees.freed]
  · exact h.2.2
  · exact fun x hx => hagrees.dents x (hs.children j hj x hx)

theorem SrvAt.root_lt (h : s.SrvAt k r d i) (hs : s.Wf) : k < s.fs.ndents ∧ r < s.fs.ninodes := by
  have hk : k < s.fs.ndents := hs.children _ hs.nInode k (mem_of_scanDents h.kFound.2.2)
  rw [← h.root]
  exact ⟨hk, hs.iMount _ (hs.dInode k hk)⟩

theorem SrvAt.inode_lt (h : s.SrvAt k r d i) (hs : s.Wf) : d < s.fs.ndents ∧ i < s.fs.ninodes := by
  have hd : d < s.fs.ndents := hs.children r (h.root_lt hs).2 d (mem_of_scanDents h.dFound.2.2)
  rw [← h.inode]
  exact ⟨hd, hs.iMount _ (hs.dInode d hd)⟩

theorem SrvAt.agrees (h : s.SrvAt k r d i) (hs : s.Wf) (hagrees : s.Agrees s' i) :
    s'.SrvAt k r d i := by
  obtain ⟨hk, hr⟩ := h.root_lt hs
  obtain ⟨hd, hi⟩ := h.inode_lt hs
  have henter : ∀ e < s.fs.ndents, s'.fs.enter (s'.fs.dents e).dInode =
      s.fs.enter (s.fs.dents e).dInode := by
    intro e he
    unfold FsState.enter
    rw [hagrees.dents e he, hagrees.iMount _ (hs.dInode e he)]
  constructor
  case kFound =>
    rw [hagrees.nInode]
    exact h.kFound.agrees hs hagrees hs.nInode h.nInode_ne
  case root => rw [henter k hk, h.root]
  case dFound => exact h.dFound.agrees hs hagrees hr h.root_ne
  case inode => rw [henter d hd, h.inode]
  case notKilled =>
    rw [hagrees.killed]
    exact h.notKilled
  case isDir =>
    rw [hagrees.iMode i hi]
    exact h.isDir
  case virt => rw [hagrees.virt, h.virt]
  case nInode_ne =>
    rw [hagrees.nInode]
    exact h.nInode_ne
  case root_ne => exact h.root_ne
  case iPrivate => rw [hagrees.iPrivate, h.iPrivate]
  case srv_lt => exact h.srv_lt.trans_le hagrees.nves
  case srvOps => rw [hagrees.srv.1, h.srvOps]
  case srvChild => rw [hagrees.srv.2, h.srvChild]
  case siblings_lt =>
    intro v hv
    obtain hold | hlt := hagrees.siblings v hv
    · exact (h.siblings_lt v hold).trans_le hagrees.nves
    · exact hlt
  case freed_lt =>
    rw [hagrees.freed]
    exact fun e he => (h.freed_lt e he).trans_le hagrees.ndents

theorem addSibling_siblings (h : virtfsSrv < s.nves) (ve : VirtfsEntryFields) :
    (s.addSibling virtfsSrv ve).1.siblings virtfsSrv = s.nves :: s.siblings virtfsSrv := by
  unfold VfsState.addSibling VfsState.addVe
  simp [update_of_ne (Nat.ne_of_lt h)]

theorem SrvAt.addSibling (h : s.SrvAt k r d i) (hs : s.Wf) (ve : VirtfsEntryFields) :
    (s.addSibling virtfsSrv ve).1.SrvAt k r d i := by
  have hsrv : (s.addSibling virtfsSrv ve).1.ves srv = s.ves srv :=
    update_of_ne (Nat.ne_of_lt h.srv_lt) ..
  refine h.agrees hs ⟨rfl, le_rfl, fun _ _ => rfl, fun _ _ => rfl, fun _ _ => rfl,
    fun _ _ _ => rfl, rfl, rfl, rfl, rfl, Nat.le_succ _, ?_, ?_⟩
  · rw [hsrv]
    exact ⟨rfl, rfl⟩
  · intro v hv
    rw [addSibling_siblings (Nat.lt_trans (by decide) h.srv_lt), List.mem_cons] at hv
    obtain rfl | hv := hv
    · exact .inr (Nat.lt_succ_self _)
    · exact .inl hv

theorem Wf.addSibling (hs : s.Wf) (list : Nat) (ve : VirtfsEntryFields) :
    (s.addSibling list ve).1.Wf :=
  ⟨hs.nInode, hs.nDent, hs.children, hs.dInode, hs.iMount, hs.iLookup⟩

theorem SrvAt.virtfsCache (h : s.SrvAt k r d i) (hs : s.Wf) (name : List UInt8) (ve : Nat) :
    (s.virtfsCache i name ve).1.SrvAt k r d i := by
  have hi := (h.inode_lt hs).2
  have hgrows := virtfsCache_grows s i name ve
  obtain ⟨hvirt, hpriv, -⟩ := hgrows.tables i hi
  refine h.agrees hs ⟨rfl, hgrows.ndents, hgrows.dents, ?_, ?_, ?_, rfl, rfl, hvirt, hpriv,
    le_rfl, ?_, fun v hv => .inl hv⟩
  · intro j hj
    obtain ⟨new, -, heq⟩ := hgrows.inodes j hj
    rw [heq]
  · intro j hj
    obtain ⟨new, -, heq⟩ := hgrows.inodes j hj
    rw [heq]
  · intro j hj hne
    rw [virtfsCache_inodes s (Nat.ne_of_lt hi), update_of_ne hne,
      update_of_ne (Nat.ne_of_lt hj)]
  · obtain ⟨inode, heq⟩ := hgrows.ves srv h.srv_lt
    rw [heq]
    exact ⟨rfl, rfl⟩

theorem SrvAt.setPipe (h : s.SrvAt k r d i) (hs : s.Wf) (inode pipe : Nat) :
    (s.setPipe inode pipe).SrvAt k r d i := by
  have hinodes : ∀ j, (s.setPipe inode pipe).fs.inodes j =
      { s.fs.inodes j with iSize := if j = inode then 1 else (s.fs.inodes j).iSize } := by
    intro j
    show Function.update s.fs.inodes inode _ j = _
    rw [update_apply]
    split
    case isTrue heq => rw [heq]
    case isFalse => rfl
  refine h.agrees hs ⟨rfl, le_rfl, fun _ _ => rfl, ?_, ?_, ?_, rfl, rfl, rfl, rfl, le_rfl,
    ⟨rfl, rfl⟩, fun v hv => .inl hv⟩
  all_goals
    intro j
    rw [hinodes]
    simp

/-! ## A new pipe -/

/-- The virtual file system is mounted, and `/koowaldah/srv` is the directory of the
pipes. -/
def SrvMounted (s : VfsState) : Prop :=
  s.Wf ∧ ∃ s₁ k r d i, s.lookupPath srvPath = some (s₁, some d) ∧ s₁.SrvAt k r d i

/-- A name that is not there: the list of children and the tree were both searched, up to
the end. -/
theorem SrvAt.missing {vfs : VfsState} (h : s.SrvAt k r d i)
    (hnew : s.lookupDirentry name i = some (vfs, none)) :
    vfs = s ∧ s.scanDents name (s.fs.inodes i).iChildren = some none ∧
      s.scanVes name (s.siblings virtfsSrv) = some none := by
  rw [h.lookupDirentry] at hnew
  split at hnew
  · cases hnew
  · cases hnew
  · rename_i hscan
    split at hnew
    · cases hnew
    · rename_i hves
      cases hnew
      exact ⟨rfl, hscan, hves⟩
    · split at hnew
      · cases hnew
      · cases hnew

theorem SrvAt.lookup_new (h : s.SrvAt k r d i) (hs : s.Wf) (hname : PipeName name)
    {ve : VirtfsEntryFields} (hfill : fillVe name S_IFIFO = some ve)
    (hscan : s.scanDents name (s.fs.inodes i).iChildren = some none)
    (hves : s.scanVes name (s.siblings virtfsSrv) = some none) :
    (s.addSibling virtfsSrv ve).1.lookupPath (pipePath name) =
      if name.length ≤ VE_NAME_MAX then
        if ve.veInode ≠ 0 then none
        else some (((s.addSibling virtfsSrv ve).1.virtfsCache i name s.nves).1,
          some s.fs.ndents)
      else some ((s.addSibling virtfsSrv ve).1, none) := by
  have hadd := h.addSibling hs ve
  have hve : (s.addSibling virtfsSrv ve).1.ves s.nves = ve := update_self ..
  have hscan' : (s.addSibling virtfsSrv ve).1.scanDents name
      ((s.addSibling virtfsSrv ve).1.fs.inodes i).iChildren = some none := by
    rw [← hscan]
    exact scanDents_congr (fun _ _ => rfl) rfl
  have hves' : (s.addSibling virtfsSrv ve).1.scanVes name (s.siblings virtfsSrv) = some none := by
    rw [← hves]
    exact scanVes_congr (fun v hv => update_of_ne (Nat.ne_of_lt (h.siblings_lt v hv)) ..)
  have hnew : (s.addSibling virtfsSrv ve).1.scanVes name
      ((s.addSibling virtfsSrv ve).1.siblings virtfsSrv) =
      if name.length ≤ VE_NAME_MAX then some (some s.nves) else some none := by
    rw [addSibling_siblings (Nat.lt_trans (by decide) h.srv_lt),
      scanVes_new hname.nul (hve.symm ▸ hfill), hves']
  rw [hadd.lookup hname, hadd.lookupDirentry, hscan', hnew]
  by_cases hlen : name.length ≤ VE_NAME_MAX
  · rw [if_pos hlen, if_pos hlen]
    dsimp only
    rw [hve]
    rfl
  · rw [if_neg hlen, if_neg hlen]

theorem SrvAt.lookup_cached (h : s.SrvAt k r d i) (hs : s.Wf) (hname : PipeName name)
    (ve inode pipe : Nat) :
    let s' := (s.virtfsCache i name ve).1.setPipe inode pipe
    s'.lookupPath (pipePath name) = some (s', some s.fs.ndents) := by
  intro s'
  have hi := (h.inode_lt hs).2
  have hcache := h.virtfsCache hs name ve
  have hwf := hs.virtfsCache hi name ve
  have hat : s'.SrvAt k r d i := hcache.setPipe hwf inode pipe
  have hchildren : (s'.fs.inodes i).iChildren =
      s.fs.ndents :: (s.fs.inodes i).iChildren := by
    have hset : (s'.fs.inodes i).iChildren =
        ((s.virtfsCache i name ve).1.fs.inodes i).iChildren := by
      show (Function.update (s.virtfsCache i name ve).1.fs.inodes inode _ i).iChildren = _
      rw [update_apply]
      split
      case isTrue heq => rw [heq]
      case isFalse => rfl
    rw [hset, virtfsCache_inodes s (Nat.ne_of_lt hi), update_self]
  have hdent : (s'.fs.dents s.fs.ndents).dName = FsState.storedName name := by
    show ((s.virtfsCache i name ve).1.fs.dents s.fs.ndents).dName = _
    rw [virtfsCache_dents, update_self]
  have hfreed : s.fs.ndents ∉ s'.freed := fun hmem => Nat.lt_irrefl _ (h.freed_lt _ hmem)
  have hstring : (s'.fs.dents s.fs.ndents).string = some name := by
    refine cstring_append ?_ _
    rw [hdent, FsState.storedName_of_lt hname.lt]
    exact cstring_append_zero hname.nul []
  have hcmp : kstrcmp name name = 0 := (kstrcmp_eq_zero_iff hname.nul hname.nul).mpr rfl
  rw [hat.lookup hname, hat.lookupDirentry, hchildren, scanDents, if_neg hfreed, hstring]
  dsimp only
  rw [if_pos hcmp]

end VfsState

namespace VfsSys

variable {s : VfsSys} {name : List UInt8} {vfs : VfsState}

/-- A new pipe is under its name: the name and its NUL are stored in `ve_name` and nowhere
else, the call gives the inode of the new entry, and a later lookup finds that inode with
the operations of a pipe. -/
def NewPipe (s : VfsSys) (thread : Nat) (name : List UInt8) : Prop :=
  (∀ off ≤ name.length, off < VE_NAME_MAX) ∧
    ∃ s' fd d v, s.mpipeOpen .all thread name = some (s', fd) ∧ s.vfs.nves ≤ v ∧
      (s'.vfs.ves v).string = some name ∧ (s'.vfs.ves v).veMode = S_IFIFO ∧
      s'.vfs.lookupPath (pipePath name) = some (s'.vfs, some d) ∧
      let inode := (s'.vfs.fs.dents d).dInode
      s'.vfs.iPrivate inode = v + 1 ∧ s'.vfs.iFops inode = some .mpipe ∧
        s'.vfs.iCtl inode = some v ∧
        (s'.tables thread).files.head?.map (·.fInode) = some inode

variable {k r d i : Nat}

theorem mpipeOpen_of_missing (hname : VfsState.PipeName name)
    (hnew : s.vfs.lookupPath (pipePath name) = some (vfs, none)) (thread : Nat) :
    s.mpipeOpen .all thread name =
      match fillVe name S_IFIFO with
      | none => none
      | some ve =>
        match (vfs.addSibling VfsState.virtfsSrv ve).1.lookupPath (pipePath name) with
        | some (vfs', some dent) =>
          let inode := (vfs'.fs.dents dent).dInode
          some (⟨vfs'.setPipe inode vfs.nves, Function.update s.tables thread
            ((s.tables thread).mpipeOpen (.ok inode)).1⟩, (s.tables thread).lastFd)
        | _ => none := by
  unfold mpipeOpen
  rw [if_pos hname.length_lt, hnew]
  rfl

theorem mpipeOpen_of_gt (hat : vfs.SrvAt k r d i) (hwf : vfs.Wf) (hname : VfsState.PipeName name)
    (hnew : s.vfs.lookupPath (pipePath name) = some (vfs, none))
    (hmiss : vfs.lookupDirentry name i = some (vfs, none)) (hlen : VE_NAME_MAX < name.length)
    (thread : Nat) : s.mpipeOpen .all thread name = none := by
  obtain ⟨-, hscan, hves⟩ := hat.missing hmiss
  rw [mpipeOpen_of_missing hname hnew]
  cases hfill : fillVe name S_IFIFO with
  | none => rfl
  | some ve =>
    dsimp only
    rw [hat.lookup_new hwf hname hfill hscan hves, if_neg (by omega)]

theorem mpipeOpen_of_le (hat : vfs.SrvAt k r d i) (hwf : vfs.Wf) (hname : VfsState.PipeName name)
    (hnew : s.vfs.lookupPath (pipePath name) = some (vfs, none))
    (hmiss : vfs.lookupDirentry name i = some (vfs, none)) (hlen : name.length ≤ VE_NAME_MAX)
    (thread : Nat) : ∃ s' fd d, s.mpipeOpen .all thread name = some (s', fd) ∧
      (s'.vfs.ves vfs.nves).string = some name ∧ (s'.vfs.ves vfs.nves).veMode = S_IFIFO ∧
      s'.vfs.lookupPath (pipePath name) = some (s'.vfs, some d) ∧
      let inode := (s'.vfs.fs.dents d).dInode
      s'.vfs.iPrivate inode = vfs.nves + 1 ∧ s'.vfs.iFops inode = some .mpipe ∧
        s'.vfs.iCtl inode = some vfs.nves ∧
        (s'.tables thread).files.head?.map (·.fInode) = some inode := by
  obtain ⟨-, hscan, hves⟩ := hat.missing hmiss
  obtain ⟨ve, hfill, hinode, hmode⟩ := fillVe_isSome hlen
  have hstring := fillVe_string hname.nul hfill
  rw [List.take_of_length_le hlen] at hstring
  -- the state after the second lookup
  generalize hs₂ : (vfs.addSibling VfsState.virtfsSrv ve).1 = s₂
  have hat₂ : s₂.SrvAt k r d i := hs₂ ▸ hat.addSibling hwf ve
  have hwf₂ : s₂.Wf := hs₂ ▸ hwf.addSibling _ ve
  have hndents : s₂.fs.ndents = vfs.fs.ndents := by rw [← hs₂]; rfl
  have hve : s₂.ves vfs.nves = ve := by
    rw [← hs₂]
    exact update_self ..
  have hlookup : s₂.lookupPath (pipePath name) =
      some ((s₂.virtfsCache i name vfs.nves).1, some s₂.fs.ndents) := by
    have hlookup := hat.lookup_new hwf hname hfill hscan hves
    rw [hs₂, if_pos hlen, if_neg (not_not.mpr hinode)] at hlookup
    rw [hlookup, hndents]
  have hdInode : ((s₂.virtfsCache i name vfs.nves).1.fs.dents s₂.fs.ndents).dInode =
      s₂.fs.ninodes := by
    rw [VfsState.virtfsCache_dents, update_self]
  have hopen := mpipeOpen_of_missing hname hnew thread
  rw [hfill] at hopen
  dsimp only at hopen
  rw [hs₂, hlookup] at hopen
  dsimp only at hopen
  rw [hdInode] at hopen
  have hves' : ((s₂.virtfsCache i name vfs.nves).1.ves vfs.nves).string = some name ∧
      ((s₂.virtfsCache i name vfs.nves).1.ves vfs.nves).veMode = S_IFIFO := by
    have heq : (s₂.virtfsCache i name vfs.nves).1.ves vfs.nves =
        { s₂.ves vfs.nves with veInode := s₂.fs.ninodes + 1 } := update_self ..
    rw [heq, hve]
    exact ⟨hstring, hmode⟩
  refine ⟨_, _, s₂.fs.ndents, hopen, hves'.1, hves'.2, hat₂.lookup_cached hwf₂ hname _ _ _, ?_⟩
  dsimp only
  have hdInode' : (((s₂.virtfsCache i name vfs.nves).1.setPipe s₂.fs.ninodes vfs.nves).fs.dents
      s₂.fs.ndents).dInode = s₂.fs.ninodes := hdInode
  rw [hdInode']
  refine ⟨update_self .., update_self .., update_self .., ?_⟩
  rw [update_self]
  rfl

/-- A new pipe is stored and found under its name exactly when the name and its NUL have
room in `ve_name`, and the call returns exactly when the name has. -/
theorem mpipeOpen_new_iff (s : VfsSys) (thread : Nat) (name : List UInt8) (vfs : VfsState)
    (hsrv : s.vfs.SrvMounted) (hname : VfsState.PipeName name)
    (hnew : s.vfs.lookupPath (pipePath name) = some (vfs, none)) :
    (s.NewPipe thread name ↔ name.length < VE_NAME_MAX) ∧
      ((s.mpipeOpen .all thread name).isSome ↔ name.length ≤ VE_NAME_MAX) := by
  obtain ⟨hwf, s₁, k, r, d, i, hsrvPath, hat⟩ := hsrv
  have hwf₁ := (hwf.lookupPath hsrvPath).1
  have hgrows := VfsState.lookupPath_grows hsrvPath
  have hmiss : s₁.lookupDirentry name i = some (vfs, none) := by
    rw [← hnew, hname.lookupPath, hsrvPath]
    dsimp only
    rw [hat.inode, if_neg hat.not_notDir]
  obtain ⟨rfl, -, -⟩ := hat.missing hmiss
  have hle := fun hlen => mpipeOpen_of_le hat hwf₁ hname hnew hmiss hlen thread
  have hgt := fun hlen => mpipeOpen_of_gt hat hwf₁ hname hnew hmiss hlen thread
  refine ⟨⟨fun h => h.1 name.length le_rfl, fun hlen => ⟨fun off hoff => by omega, ?_⟩⟩,
    ⟨fun h => ?_, fun hlen => ?_⟩⟩
  · obtain ⟨s', fd, e, hopen, hrest⟩ := hle (Nat.le_of_lt hlen)
    exact ⟨s', fd, e, vfs.nves, hopen, hgrows.nves, hrest⟩
  · by_contra hlen
    rw [hgt (by omega)] at h
    cases h
  · obtain ⟨s', fd, e, hopen, -⟩ := hle hlen
    rw [hopen]
    rfl

theorem bootVfs_srvMounted : VfsState.bootVfs.SrvMounted := by
  refine ⟨VfsState.bootVfs_wf, (VfsState.bootVfs.virtfsCache 8 VfsState.SRV VfsState.srv).1,
    7, 8, 8, 9, by with_unfolding_all rfl, ?_⟩
  constructor <;> decide +kernel

theorem mpipeOpen_new_short : bootSys.NewPipe 0 [0x61] := by
  have hnew : (bootSys.vfs.lookupPath (pipePath [0x61])).map (·.2) = some none := by
    decide +kernel
  obtain ⟨⟨vfs, dent⟩, hlookup, rfl⟩ := Option.map_eq_some_iff.mp hnew
  exact (mpipeOpen_new_iff bootSys 0 [0x61] vfs bootVfs_srvMounted
    ⟨by decide, by decide, by decide, by decide⟩ hlookup).1.mpr (by decide)

def longName : List UInt8 := List.replicate 13 0x61

/-- A pipe with a name of 13 characters is not found, and `mpipe_open` uses an entry that
is not there. -/
theorem mpipeOpen_new_long : VfsState.PipeName longName ∧
      (bootSys.vfs.lookupPath (pipePath longName)).map (·.2) = some none ∧
      bootSys.mpipeOpen .all 0 longName = none ∧ ¬bootSys.NewPipe 0 longName := by
  have hopen : (bootSys.mpipeOpen .all 0 longName).isSome = false := by decide +kernel
  rw [Option.isSome_eq_false_iff, Option.isNone_iff_eq_none] at hopen
  refine ⟨⟨by decide, by decide, by decide, by decide⟩, by decide +kernel, hopen, fun h => ?_⟩
  exact absurd (h.1 12 (by decide)) (by decide)

end VfsSys

end Koowaldah
