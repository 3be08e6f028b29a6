import Koowaldah.Fs.Open

/-!
# The virtual file system

A model of `kernel/fs/virtfs.c`, and of the functions of `namespace.c`, `inode.c` and
`mount.c` as they are with it mounted.

The names of the root file system are all in the lists of children.  Those of the virtual
one are in a tree of their own, and come into a list of children when they are looked up:
`virtfs_lookup` makes an inode and an entry for what it finds.  So a lookup changes the
state, and every function that looks up a path hands the state on.

`FsState` has the inodes and the entries of both.  `VfsState` adds what the virtual file
system needs of an inode, the tree, and what was freed.  A pointer that may be `NULL` is a
word: 0, or the number of the object and one.  The model stops (`none`) at a `bug_on`, and
where the code uses memory that was freed or that is not its own.

`d_refcnt` is behind `d_name` in a `struct direntry`, so the string of a name without a NUL
goes on with its bytes (`Direntry.string`).

* `Grows` says all that a lookup does to what was there before, and `lookupPath_grows`
  that it does it.  `Wf.lookupPath` is the converse: a lookup that changes anything
  adds to the children of a directory that was there.
* `Plain.lookupPath` and `Plain.map_fsInsertEntry` say that without virtual inodes the
  functions are those of `Fs/Namespace`, up to a name without a NUL.
-/

namespace Koowaldah

open Function SysLib

def S_IFIFO : Nat := 0o010000

/-- The three `struct virtfs_operations`.  The last two have a `lookup`. -/
inductive VeOps where
  | nop
  | proc
  | dev
deriving DecidableEq, Repr

/-- `struct virtfs_entry`.  `veInode` and `veChild` are words. -/
structure VirtfsEntryFields where
  veName : List UInt8
  veMode : Nat
  veDev : Nat
  veInode : Nat
  veChild : Nat
  veOps : VeOps
deriving DecidableEq, Repr

/-- `sizeof(ve_name)`. -/
def VE_NAME_MAX : Nat := 12

/-- `sizeof(struct virtfs_entry)`. -/
def SIZEOF_VE : Nat := 44

/-- The four bytes of a word in memory. -/
def wordBytes (n : Nat) : List UInt8 :=
  [UInt8.ofNat n, UInt8.ofNat (n / 256), UInt8.ofNat (n / 65536), UInt8.ofNat (n / 16777216)]

/-- The word at an offset of an array of bytes. -/
def wordAt (bytes : List UInt8) (off : Nat) : Nat :=
  (bytes.getD off 0).toNat + 256 * (bytes.getD (off + 1) 0).toNat +
    65536 * (bytes.getD (off + 2) 0).toNat + 16777216 * (bytes.getD (off + 3) 0).toNat

/-- The string that begins in `d_name`.  `d_refcnt` is behind the array. -/
def Direntry.string (d : Direntry) : Option (List UInt8) :=
  cstring (d.dName ++ wordBytes d.dRefcnt)

/-- The string that begins in `ve_name`.  `ve_mode` is behind the array. -/
def VirtfsEntryFields.string (ve : VirtfsEntryFields) : Option (List UInt8) :=
  cstring (ve.veName ++ wordBytes ve.veMode)

/-- An entry that is filled with 0, after the name and its NUL were copied to `ve_name`
and the other fields were set.  The name may run on into `ve_inode` and `ve_child`, which
are at 24 and 28; `none` when it runs out of the entry. -/
def fillVe (name : List UInt8) (mode : Nat) : Option VirtfsEntryFields :=
  if name.length < SIZEOF_VE then
    let bytes := name ++ List.replicate (SIZEOF_VE - name.length) 0
    some ⟨bytes.take VE_NAME_MAX, mode, NODEV, wordAt bytes 24, wordAt bytes 28, .nop⟩
  else none

/-- The `struct file_operations` that `i_fops` may point to. -/
inductive Fops where
  | virtfs
  | mpipe
deriving DecidableEq, Repr

/-- Both file systems.  `virt` are the inodes of the virtual one, `iDent` is the list
`i_dent`, and `siblings` the list whose head is `ve_sibling`.  `freed` and `killed` are
the entries and the inodes that were given back. -/
structure VfsState where
  fs : FsState
  virt : Nat → Bool
  iPrivate : Nat → Nat
  iDent : Nat → List Nat
  iFops : Nat → Option Fops
  iCtl : Nat → Option Nat
  freed : List Nat
  killed : List Nat
  ves : Nat → VirtfsEntryFields
  nves : Nat
  siblings : Nat → List Nat

namespace VfsState

variable {r : Option Nat} {d n : Nat} {p path : List UInt8}

/-! ## The tree of the virtual file system -/

/-- The loop of `virtfs_get_entry`. -/
def scanVes (s : VfsState) (name : List UInt8) : List Nat → Option (Option Nat)
  | [] => some none
  | ve :: ves =>
    match (s.ves ve).string with
    | none => none
    | some str => if kstrcmp name str = 0 then some (some ve) else s.scanVes name ves

def virtfsGetEntry (s : VfsState) (root : Nat) (name : List UInt8) : Option (Option Nat) :=
  if s.iPrivate root = 0 ∨ (s.ves (s.iPrivate root - 1)).veChild = 0 then some none
  else s.scanVes name (s.siblings ((s.ves (s.iPrivate root - 1)).veChild - 1))

/-- A new `struct virtfs_entry`, with no siblings. -/
def addVe (s : VfsState) (ve : VirtfsEntryFields) : VfsState × Nat :=
  ({ s with
      ves := Function.update s.ves s.nves ve
      nves := s.nves + 1
      siblings := Function.update s.siblings s.nves [] }, s.nves)

/-- A `lookup` of `struct virtfs_operations` that takes every name for that of a file. -/
def hookLookup (s : VfsState) (name : List UInt8) : Option (VfsState × Nat) :=
  (fillVe name S_IFREG).map s.addVe

def virtfsProcLookup (s : VfsState) (name : List UInt8) : Option (VfsState × Nat) :=
  s.hookLookup name

def virtfsDevLookup (s : VfsState) (name : List UInt8) : Option (VfsState × Nat) :=
  s.hookLookup name

/-- The part of `virtfs_lookup` that looks for the name in the tree. -/
def veLookup (s : VfsState) (inode : Nat) (name : List UInt8) :
    Option (VfsState × Option Nat) :=
  if s.iPrivate inode - 1 < s.nves then
    match (s.ves (s.iPrivate inode - 1)).veOps with
    | .nop => (s.virtfsGetEntry inode name).map (fun ve => (s, ve))
    | .proc => (s.virtfsProcLookup name).map (fun r => (r.1, some r.2))
    | .dev => (s.virtfsDevLookup name).map (fun r => (r.1, some r.2))
  -- `i_private` does not point to an entry
  else none

/-- The part of `virtfs_lookup` that makes an inode and an entry for what was found. -/
def virtfsCache (s : VfsState) (inode : Nat) (name : List UInt8) (ve : Nat) : VfsState × Nat :=
  let e := s.ves ve
  let (fs, ret) := s.fs.newInode
  let fs := fs.setInode ret (fun i =>
    { i with
      iIno := ve + 1
      iMode := e.veMode
      iSize := if S_ISDIR e.veMode then 0 else 1
      iDev := e.veDev
      iRefcnt := i.iRefcnt + 1 })
  let (fs, dent) := fs.newDirentry name ret
  let fs := fs.setDent dent (fun d => { d with dRefcnt := d.dRefcnt + 1 })
  let fs := fs.setInode inode (fun i => { i with iChildren := dent :: i.iChildren })
  ({ s with
      fs := fs
      virt := Function.update s.virt ret (s.virt inode)
      iPrivate := Function.update s.iPrivate ret (ve + 1)
      iDent := Function.update s.iDent ret [dent]
      iFops := Function.update s.iFops ret (some .virtfs)
      iCtl := Function.update s.iCtl ret none
      ves := Function.update s.ves ve { e with veInode := ret + 1 } }, dent)

def virtfsLookup (s : VfsState) (inode : Nat) (name : List UInt8) :
    Option (VfsState × Option Nat) :=
  if S_ISDIR (s.fs.inodes inode).iMode = false then some (s, none)
  else if s.iPrivate inode = 0 then some (s, none)
  else
    match s.veLookup inode name with
    | none => none
    | some (s, none) => some (s, none)
    | some (s, some ve) =>
      -- `bug_on(ve->ve_inode)`
      if (s.ves ve).veInode ≠ 0 then none
      else
        let (s, dent) := s.virtfsCache inode name ve
        some (s, some dent)

/-! ## Looking up -/

/-- The loop of `lookup_direntry`.  An entry that was freed is still in the list. -/
def scanDents (s : VfsState) (name : List UInt8) : List Nat → Option (Option Nat)
  | [] => some none
  | d :: ds =>
    if d ∈ s.freed then none
    else
      match (s.fs.dents d).string with
      | none => none
      | some dName => if kstrcmp dName name = 0 then some (some d) else s.scanDents name ds

def lookupDirentry (s : VfsState) (name : List UInt8) (inode : Nat) :
    Option (VfsState × Option Nat) :=
  if inode ∈ s.killed then none
  else if S_ISDIR (s.fs.inodes inode).iMode then
    match s.scanDents name (s.fs.inodes inode).iChildren with
    | none => none
    | some (some d) => some (s, some d)
    | some none =>
      if s.virt inode then s.virtfsLookup inode name
      else some (s, (s.fs.inodes inode).iLookup name)
  else some (s, none)

/-- The paths of both file systems. -/
def pathOps : PathOps VfsState where
  nInode s := s.fs.nInode
  nDent s := s.fs.nDent
  dInode s d := (s.fs.dents d).dInode
  enter s := s.fs.enter
  lookupDirentry := lookupDirentry

def lookupPathLoop (s : VfsState) (n : Nat) (p : List UInt8) (inode : Nat) :
    Option (VfsState × Option Nat) :=
  ((pathOps.lookupPathLoop n p inode).run s).result

def lookupPath (s : VfsState) (pathname : List UInt8) : Option (VfsState × Option Nat) :=
  ((pathOps.lookupPath pathname).run s).result

@[inherit_doc PathOps.insertTarget]
def insertTarget (s : VfsState) (pathname : List UInt8) :
    Option (VfsState × Option (Nat × List UInt8)) :=
  ((pathOps.insertTarget pathname).run s).result

theorem lookupPathLoop_succ (s : VfsState) (n : Nat) (p : List UInt8) (inode : Nat) :
    s.lookupPathLoop (n + 1) p inode =
      match kstrchr SLASH p with
      | none => s.lookupDirentry p inode
      | some k =>
        if k < FILENAME_MAX then
          match s.lookupDirentry (p.take k) inode with
          | none => none
          | some (s, none) => some (s, none)
          | some (s, some d) =>
            s.lookupPathLoop n (p.drop (k + 1)) (s.fs.enter (s.fs.dents d).dInode)
        else none := by
  unfold lookupPathLoop
  rw [PathOps.lookupPathLoop_run]
  cases kstrchr SLASH p with
  | none => rfl
  | some k =>
    dsimp only [pathOps]
    split
    · rcases s.lookupDirentry (p.take k) inode with - | ⟨s₁, - | d⟩
      · rfl
      · rfl
      · rfl
    · rfl

theorem lookupPath_eq (s : VfsState) (path : List UInt8) : s.lookupPath path =
      if path.dropWhile (· == SLASH) = [] then some (s, some s.fs.nDent)
      else s.lookupPathLoop ((path.dropWhile (· == SLASH)).length + 1)
        (path.dropWhile (· == SLASH)) s.fs.nInode := by
  unfold lookupPath
  rw [PathOps.lookupPath_run]
  split
  · rfl
  · rfl

/-! ## Adding and dropping -/

/-- `fs_add_entry`.  `i_private` is left as it was found in memory. -/
def fsAddEntry (s : VfsState) (parent : Nat) (name : List UInt8) (mode dev : Nat) :
    VfsState × Nat :=
  let dent := s.fs.ndents
  let (fs, inode) := s.fs.fsAddEntry parent name mode dev
  ({ s with
      fs := fs
      virt := Function.update s.virt inode (s.virt parent)
      iDent := Function.update s.iDent inode [dent]
      iFops := Function.update s.iFops inode none
      iCtl := Function.update s.iCtl inode none }, inode)

/-- The part of `fs_insert_entry` behind the search for the directory. -/
def insertAt (s : VfsState) (parent : Nat) (name : List UInt8) (mode dev : Nat)
    (buf : Option Nat) (len : Nat) : Option VfsState :=
  let (s, inode) := s.fsAddEntry parent name mode dev
  match buf with
  | none => some s
  | some src =>
    if S_ISREG mode ∧ len ≠ 0 then
      (s.fs.stuffInode inode src len).map (fun fs => { s with fs := fs })
    else some s

def fsInsertEntry (s : VfsState) (pathname : List UInt8) (mode dev : Nat) (buf : Option Nat)
    (len : Nat) : Option VfsState :=
  match s.insertTarget pathname with
  | none => none
  | some (s, none) => some s
  | some (s, some (parent, name)) => s.insertAt parent name mode dev buf len

/-- `free_direntry`.  The entry is taken off `i_dent`, and stays in the list of children. -/
def freeDirentry (s : VfsState) (dent : Nat) : Option VfsState :=
  if (s.fs.dents dent).dRefcnt ≠ 0 then none
  else some { s with iDent := fun i => (s.iDent i).erase dent, freed := dent :: s.freed }

/-- `free_inode`.  It does not come to an end on an inode that has a name. -/
def freeInode (s : VfsState) (inode : Nat) : Option VfsState :=
  if s.iDent inode ≠ [] then none
  else if s.virt inode then
    -- `virtfs_kill_inode`
    if s.iPrivate inode = 0 then some s
    else
      let ve := s.iPrivate inode - 1
      some { s with ves := Function.update s.ves ve { s.ves ve with veInode := 0 } }
  else some { s with killed := inode :: s.killed }

def releaseInode (s : VfsState) (inode : Nat) : Option VfsState :=
  if inode ∈ s.killed then none
  else
    let count := subWord (s.fs.inodes inode).iRefcnt 1
    let s := { s with fs := s.fs.setInode inode (fun i => { i with iRefcnt := count }) }
    if count = 0 then s.freeInode inode else some s

def releaseDirentry (s : VfsState) (dent : Nat) : Option VfsState :=
  let inode := (s.fs.dents dent).dInode
  let count := subWord (s.fs.dents dent).dRefcnt 1
  let s := { s with fs := s.fs.setDent dent (fun d => { d with dRefcnt := count }) }
  (if count = 0 then s.freeDirentry dent else some s).bind (fun s => s.releaseInode inode)

def mount0 (s : VfsState) (mntpt root : Nat) : VfsState :=
  let fs := s.fs.setInode (s.fs.dents mntpt).dInode (fun i => { i with iMount := some root })
  { s with fs := fs.setDent mntpt (fun d => { d with dInode := root }) }

/-! ## The first state -/

/-- The static entries. -/
def virtfsTree : Nat := 0

@[inherit_doc virtfsTree]
def dot : Nat := 1

@[inherit_doc virtfsTree]
def virtfsSrv : Nat := 2

@[inherit_doc virtfsTree]
def srv : Nat := 3

/-- The string `"srv"`. -/
def SRV : List UInt8 := [0x73, 0x72, 0x76]

/-- The string `"koowaldah"`. -/
def KOOWALDAH : List UInt8 := [0x6b, 0x6f, 0x6f, 0x77, 0x61, 0x6c, 0x64, 0x61, 0x68]

def veEntry (name : List UInt8) (mode child : Nat) (ops : VeOps) : VirtfsEntryFields :=
  ⟨name ++ List.replicate (VE_NAME_MAX - name.length) 0, mode, NODEV, 0, child, ops⟩

/-- The static entries, as `virtfs_init_tree` links them: `virtfs_tree`, `_dot`,
`virtfs_srv`, `srv`, `omg`, `wtf`, `lol`, `proc` and `dev`. -/
def veTable : List VirtfsEntryFields :=
  [veEntry KOOWALDAH S_IFDIR (dot + 1) .nop,
    veEntry [0x2e] S_IFDIR 0 .nop,
    veEntry [0x2e] S_IFDIR 0 .nop,
    veEntry SRV S_IFDIR (virtfsSrv + 1) .nop,
    veEntry [0x6f, 0x6d, 0x67] S_IFDIR 0 .nop,
    veEntry [0x77, 0x74, 0x66] S_IFREG 0 .nop,
    veEntry [0x6c, 0x6f, 0x6c] S_IFREG 0 .nop,
    veEntry [0x70, 0x72, 0x6f, 0x63] S_IFDIR 0 .proc,
    veEntry [0x64, 0x65, 0x76, 0x69, 0x63, 0x65, 0x73] S_IFDIR 0 .dev]

/-- The siblings of the static entries.  A new sibling is the first one. -/
def veSiblings (ve : Nat) : List Nat :=
  if ve = dot then [8, 7, 5, srv] else if ve = virtfsSrv then [6, 4] else []

/-- The root file system alone.  `priv` is what is in memory at `i_private`. -/
def ofFs (fs : FsState) (priv : Nat → Nat) : VfsState where
  fs := fs
  virt := fun _ => false
  iPrivate := priv
  iDent := fun i => (List.range fs.ndents).reverse.filter (fun d => (fs.dents d).dInode = i)
  iFops := fun _ => none
  iCtl := fun _ => none
  freed := []
  killed := []
  ves := fun ve => veTable.getD ve (veEntry [] 0 0 .nop)
  nves := veTable.length
  siblings := veSiblings

/-- `virtfs_init_inodes`, and the `i_private` of the root: the state and the root. -/
def virtfsInitInodes (s : VfsState) : VfsState × Nat :=
  let (fs, root) := s.fs.newInode
  ({ s with
      fs := fs.setInode root (fun i => { i with iIno := ROOT_INO, iMode := S_IFDIR })
      virt := Function.update s.virt root true
      iPrivate := Function.update s.iPrivate root (virtfsTree + 1)
      iDent := Function.update s.iDent root []
      iFops := Function.update s.iFops root (some .virtfs)
      iCtl := Function.update s.iCtl root none }, root)

/-- `fs_init_virtfs`.  It uses the entry that it looks up without a check. -/
def fsInitVirtfs (s : VfsState) : Option VfsState :=
  let (s, root) := s.virtfsInitInodes
  match s.lookupPath (SLASH :: KOOWALDAH) with
  | some (s, some dent) => some (s.mount0 dent root)
  | _ => none

/-! ## What a lookup does -/

/-- What a lookup does to the entries, the inodes and the tree that were there: it puts
new entries in front of the children of a directory, and sets a `ve_inode`. -/
structure Grows (s s' : VfsState) : Prop where
  nInode : s'.fs.nInode = s.fs.nInode
  nDent : s'.fs.nDent = s.fs.nDent
  ndents : s.fs.ndents ≤ s'.fs.ndents
  ninodes : s.fs.ninodes ≤ s'.fs.ninodes
  dents : ∀ d < s.fs.ndents, s'.fs.dents d = s.fs.dents d
  inodes : ∀ i < s.fs.ninodes, ∃ new, (∀ d ∈ new, s.fs.ndents ≤ d) ∧
    s'.fs.inodes i =
      { s.fs.inodes i with iChildren := new ++ (s.fs.inodes i).iChildren }
  tables : ∀ i < s.fs.ninodes, s'.virt i = s.virt i ∧ s'.iPrivate i = s.iPrivate i ∧
    s'.iFops i = s.iFops i ∧ s'.iCtl i = s.iCtl i
  freed : s'.freed = s.freed
  killed : s'.killed = s.killed
  nves : s.nves ≤ s'.nves
  ves : ∀ ve < s.nves, ∃ inode, s'.ves ve = { s.ves ve with veInode := inode }
  siblings : ∀ ve < s.nves, s'.siblings ve = s.siblings ve

theorem Grows.refl (s : VfsState) : s.Grows s where
  nInode := rfl
  nDent := rfl
  ndents := le_rfl
  ninodes := le_rfl
  dents := fun _ _ => rfl
  inodes := fun _ _ => ⟨[], nofun, rfl⟩
  tables := fun _ _ => ⟨rfl, rfl, rfl, rfl⟩
  freed := rfl
  killed := rfl
  nves := le_rfl
  ves := fun _ _ => ⟨_, rfl⟩
  siblings := fun _ _ => rfl

theorem Grows.trans {s₁ s₂ s₃ : VfsState} (h : s₁.Grows s₂) (h' : s₂.Grows s₃) :
    s₁.Grows s₃ where
  nInode := h'.nInode.trans h.nInode
  nDent := h'.nDent.trans h.nDent
  ndents := h.ndents.trans h'.ndents
  ninodes := h.ninodes.trans h'.ninodes
  dents := fun d hd => (h'.dents d (hd.trans_le h.ndents)).trans (h.dents d hd)
  inodes := by
    intro i hi
    obtain ⟨new, hnew, heq⟩ := h.inodes i hi
    obtain ⟨new', hnew', heq'⟩ := h'.inodes i (hi.trans_le h.ninodes)
    refine ⟨new' ++ new, fun d hd => ?_, ?_⟩
    · obtain hd | hd := List.mem_append.mp hd
      · exact h.ndents.trans (hnew' d hd)
      · exact hnew d hd
    · rw [heq', heq, List.append_assoc]
  tables := by
    intro i hi
    obtain ⟨hvirt, hpriv, hfops, hctl⟩ := h'.tables i (hi.trans_le h.ninodes)
    rw [hvirt, hpriv, hfops, hctl]
    exact h.tables i hi
  freed := h'.freed.trans h.freed
  killed := h'.killed.trans h.killed
  nves := h.nves.trans h'.nves
  ves := by
    intro ve hve
    obtain ⟨inode, heq⟩ := h.ves ve hve
    obtain ⟨inode', heq'⟩ := h'.ves ve (hve.trans_le h.nves)
    exact ⟨inode', by rw [heq', heq]⟩
  siblings := fun ve hve => (h'.siblings ve (hve.trans_le h.nves)).trans (h.siblings ve hve)

theorem addVe_grows (s : VfsState) (ve : VirtfsEntryFields) : s.Grows (s.addVe ve).1 :=
  { Grows.refl s with
    nves := Nat.le_succ _
    ves := fun _ hv => ⟨_, update_of_ne (Nat.ne_of_lt hv) ..⟩
    siblings := fun _ hv => update_of_ne (Nat.ne_of_lt hv) .. }

theorem virtfsCache_dents (s : VfsState) (inode : Nat) (name : List UInt8) (ve : Nat) :
    (s.virtfsCache inode name ve).1.fs.dents = Function.update s.fs.dents s.fs.ndents
      ⟨FsState.storedName name, s.fs.ninodes, 1⟩ := by
  unfold virtfsCache FsState.newDirentry FsState.setDent FsState.setInode FsState.newInode
  simp only [update_self, update_idem]
  rfl

def cacheInode (e : VirtfsEntryFields) (ve : Nat) : FsInode :=
  ⟨ve + 1, 1, e.veMode, e.veDev, if S_ISDIR e.veMode then 0 else 1, [], 0, [], none,
    genericLookup⟩

theorem virtfsCache_inodes (s : VfsState) {inode : Nat} (hinode : inode ≠ s.fs.ninodes)
    (name : List UInt8) (ve : Nat) : (s.virtfsCache inode name ve).1.fs.inodes =
      Function.update (Function.update s.fs.inodes s.fs.ninodes (cacheInode (s.ves ve) ve)) inode
        { s.fs.inodes inode with iChildren := s.fs.ndents :: (s.fs.inodes inode).iChildren } := by
  unfold virtfsCache FsState.newDirentry FsState.setDent FsState.setInode FsState.newInode
  simp only [update_self, update_idem, update_of_ne hinode]
  rfl

theorem virtfsCache_grows (s : VfsState) (inode : Nat) (name : List UInt8) (ve : Nat) :
    s.Grows (s.virtfsCache inode name ve).1 where
  nInode := rfl
  nDent := rfl
  ndents := Nat.le_succ _
  ninodes := Nat.le_succ _
  dents := by
    intro d hd
    rw [virtfsCache_dents, update_of_ne (Nat.ne_of_lt hd)]
  inodes := by
    intro i hi
    by_cases heq : i = inode
    · subst heq
      rw [virtfsCache_inodes s (Nat.ne_of_lt hi)]
      exact ⟨[s.fs.ndents], fun d hd => (List.mem_singleton.mp hd).ge, update_self ..⟩
    · refine ⟨[], nofun, ?_⟩
      simp [virtfsCache, FsState.newDirentry, FsState.setDent, FsState.setInode,
        FsState.newInode, update_of_ne heq, update_of_ne (Nat.ne_of_lt hi)]
  tables := fun i hi =>
    have hne : i ≠ s.fs.ninodes := Nat.ne_of_lt hi
    ⟨update_of_ne hne .., update_of_ne hne .., update_of_ne hne .., update_of_ne hne ..⟩
  freed := rfl
  killed := rfl
  nves := le_rfl
  ves := by
    intro v _
    by_cases hv : v = ve
    · subst hv
      exact ⟨_, update_self ..⟩
    · exact ⟨_, update_of_ne hv ..⟩
  siblings := fun _ _ => rfl

variable {s s' : VfsState} {inode : Nat} {name : List UInt8}

theorem veLookup_cases (h : s.veLookup inode name = some (s', r)) :
    s' = s ∧ (∀ ve, r = some ve → ∃ ves, s.scanVes name ves = some (some ve)) ∨
      ∃ e, fillVe name S_IFREG = some e ∧ s' = (s.addVe e).1 ∧ r = some s.nves := by
  unfold veLookup virtfsProcLookup virtfsDevLookup hookLookup at h
  split at h
  case isFalse => cases h
  case isTrue =>
    split at h
    case h_1 =>
      obtain ⟨found, hfound, heq⟩ := Option.map_eq_some_iff.mp h
      cases heq
      refine .inl ⟨rfl, fun ve hve => ?_⟩
      unfold virtfsGetEntry at hfound
      rw [hve] at hfound
      split at hfound
      · cases hfound
      · exact ⟨_, hfound⟩
    all_goals
      obtain ⟨a, ha, heq⟩ := Option.map_eq_some_iff.mp h
      obtain ⟨e, he, rfl⟩ := Option.map_eq_some_iff.mp ha
      cases heq
      exact .inr ⟨e, he, rfl, rfl⟩

/-- `virtfs_lookup` made an inode and an entry for a name in a directory. -/
def Cached (s : VfsState) (inode : Nat) (name : List UInt8) (s' : VfsState) (d : Nat) : Prop :=
  d = s.fs.ndents ∧
    ∃ s₁ ve, (s₁ = s ∧ (∃ ves, s.scanVes name ves = some (some ve)) ∨
        ∃ e, fillVe name S_IFREG = some e ∧ s₁ = (s.addVe e).1) ∧
      s' = (s₁.virtfsCache inode name ve).1

theorem virtfsLookup_cases (h : s.virtfsLookup inode name = some (s', r)) :
    s' = s ∧ r = none ∨ ∃ d, r = some d ∧ s.Cached inode name s' d := by
  unfold virtfsLookup at h
  split at h
  · cases h
    exact .inl ⟨rfl, rfl⟩
  · split at h
    · cases h
      exact .inl ⟨rfl, rfl⟩
    · cases hve : s.veLookup inode name with
      | none => simp [hve] at h
      | some found =>
        obtain ⟨s₁, ve⟩ := found
        have hcases := veLookup_cases hve
        rw [hve] at h
        cases ve with
        | none =>
          cases h
          obtain ⟨rfl, -⟩ | ⟨e, -, -, hnone⟩ := hcases
          · exact .inl ⟨rfl, rfl⟩
          · cases hnone
        | some ve =>
          dsimp only at h
          split at h
          · cases h
          · cases h
            right
            obtain ⟨rfl, hscan⟩ | ⟨e, he, rfl, -⟩ := hcases
            · exact ⟨_, rfl, rfl, _, ve, .inl ⟨rfl, hscan ve rfl⟩, rfl⟩
            · exact ⟨_, rfl, rfl, _, ve, .inr ⟨e, he, rfl⟩, rfl⟩

theorem mem_of_scanDents {ds : List Nat} (h : s.scanDents name ds = some (some d)) : d ∈ ds := by
  induction ds with
  | nil => cases h
  | cons e ds ih =>
    rw [scanDents] at h
    split at h
    · cases h
    · split at h
      · cases h
      · split at h
        · rw [← Option.some.inj (Option.some.inj h)]
          exact List.mem_cons_self
        · exact List.mem_cons_of_mem e (ih h)

theorem lookupDirentry_cases (h : s.lookupDirentry name inode = some (s', r)) :
    s' = s ∧ (∀ d, r = some d → d ∈ (s.fs.inodes inode).iChildren ∨
        (s.fs.inodes inode).iLookup name = some d) ∨
      ∃ d, r = some d ∧ s.Cached inode name s' d := by
  unfold lookupDirentry at h
  split at h
  · cases h
  · split at h
    · cases hfound : s.scanDents name (s.fs.inodes inode).iChildren with
      | none => simp [hfound] at h
      | some found =>
        rw [hfound] at h
        cases found with
        | some d =>
          cases h
          refine .inl ⟨rfl, fun e he => .inl ?_⟩
          cases he
          exact mem_of_scanDents hfound
        | none =>
          dsimp only at h
          split at h
          · obtain ⟨rfl, rfl⟩ | hcached := virtfsLookup_cases h
            · exact .inl ⟨rfl, nofun⟩
            · exact .inr hcached
          · cases h
            exact .inl ⟨rfl, fun d hd => .inr hd⟩
    · cases h
      exact .inl ⟨rfl, nofun⟩

theorem Cached.exists_cache (h : s.Cached inode name s' d) :
    ∃ (s₁ : VfsState) (ve : Nat), s₁.fs = s.fs ∧ s' = (s₁.virtfsCache inode name ve).1 := by
  obtain ⟨-, s₁, ve, ⟨rfl, -⟩ | ⟨e, -, rfl⟩, rfl⟩ := h
  · exact ⟨_, ve, rfl, rfl⟩
  · exact ⟨(s.addVe e).1, ve, rfl, rfl⟩

theorem Cached.grows (h : s.Cached inode name s' d) : s.Grows s' := by
  obtain ⟨-, s₁, ve, hs₁, rfl⟩ := h
  have hcache := virtfsCache_grows s₁ inode name ve
  obtain ⟨rfl, -⟩ | ⟨e, -, rfl⟩ := hs₁
  · exact hcache
  · exact (addVe_grows s e).trans hcache

theorem lookupDirentry_grows (h : s.lookupDirentry name inode = some (s', r)) : s.Grows s' := by
  obtain ⟨rfl, -⟩ | ⟨d, -, hcached⟩ := lookupDirentry_cases h
  · exact .refl _
  · exact hcached.grows

/-- Induction over the rounds of a lookup that returns: the name behind the last slash, a
name on the way that is not there, and one that is. -/
theorem lookupPathLoop_induction
    {motive : VfsState → List UInt8 → Nat → VfsState → Option Nat → Prop}
    (last : ∀ {s s' p inode r}, kstrchr SLASH p = none →
      s.lookupDirentry p inode = some (s', r) → motive s p inode s' r)
    (miss : ∀ {s s' p inode k}, kstrchr SLASH p = some k →
      s.lookupDirentry (p.take k) inode = some (s', none) → motive s p inode s' none)
    (found : ∀ {s s₁ s' p inode n k d r}, kstrchr SLASH p = some k → k < FILENAME_MAX →
      s.lookupDirentry (p.take k) inode = some (s₁, some d) →
      s₁.lookupPathLoop n (p.drop (k + 1)) (s₁.fs.enter (s₁.fs.dents d).dInode) = some (s', r) →
      motive s₁ (p.drop (k + 1)) (s₁.fs.enter (s₁.fs.dents d).dInode) s' r →
      motive s p inode s' r) (h : s.lookupPathLoop n p inode = some (s', r)) :
    motive s p inode s' r := by
  induction n generalizing s p inode with
  | zero => cases h
  | succ n ih =>
    rw [lookupPathLoop_succ] at h
    split at h
    · rename_i hk
      exact last hk h
    · rename_i k hk
      split at h
      case isFalse => cases h
      case isTrue hlt =>
        split at h
        · cases h
        · rename_i hmiss
          cases h
          exact miss hk hmiss
        · rename_i hfound
          exact found hk hlt hfound h (ih h)

theorem lookupPath_cases (h : s.lookupPath path = some (s', r)) :
    s' = s ∧ r = some s.fs.nDent ∨ ∃ n,
      s.lookupPathLoop n (path.dropWhile (· == SLASH)) s.fs.nInode = some (s', r) := by
  rw [lookupPath_eq] at h
  split at h
  · cases h
    exact .inl ⟨rfl, rfl⟩
  · exact .inr ⟨_, h⟩

theorem lookupPathLoop_grows (h : s.lookupPathLoop n p inode = some (s', r)) : s.Grows s' := by
  refine lookupPathLoop_induction (motive := fun s _ _ s' _ => s.Grows s') ?_ ?_ ?_ h
  · exact fun _ hlast => lookupDirentry_grows hlast
  · exact fun _ hmiss => lookupDirentry_grows hmiss
  · exact fun _ _ hfound _ ih => (lookupDirentry_grows hfound).trans ih

theorem lookupPath_grows (h : s.lookupPath path = some (s', r)) : s.Grows s' := by
  obtain ⟨rfl, -⟩ | ⟨n, hloop⟩ := lookupPath_cases h
  · exact .refl _
  · exact lookupPathLoop_grows hloop

/-! ## A lookup that changes something -/

/-- The links of the state lead to entries and inodes that are there, and a directory of
the root file system has no names but those in its list. -/
structure Wf (s : VfsState) : Prop where
  nInode : s.fs.nInode < s.fs.ninodes
  nDent : s.fs.nDent < s.fs.ndents
  children : ∀ i < s.fs.ninodes, ∀ d ∈ (s.fs.inodes i).iChildren, d < s.fs.ndents
  dInode : ∀ d < s.fs.ndents, (s.fs.dents d).dInode < s.fs.ninodes
  iMount : ∀ i < s.fs.ninodes, s.fs.enter i < s.fs.ninodes
  iLookup : ∀ i < s.fs.ninodes, (s.fs.inodes i).iLookup = genericLookup

/-- Some directory that was there has more children. -/
def MoreChildren (s s' : VfsState) : Prop :=
  ∃ i < s.fs.ninodes, (s.fs.inodes i).iChildren.length < (s'.fs.inodes i).iChildren.length

theorem MoreChildren.grows {s₁ : VfsState} (h : s.MoreChildren s₁) (hle : s.Grows s₁)
    (hgrows : s₁.Grows s') : s.MoreChildren s' := by
  obtain ⟨i, hi, hlt⟩ := h
  obtain ⟨new, -, heq⟩ := hgrows.inodes i (hi.trans_le hle.ninodes)
  refine ⟨i, hi, ?_⟩
  rw [heq, List.length_append]
  omega

theorem Cached.moreChildren (h : s.Cached inode name s' d) (hinode : inode < s.fs.ninodes) :
    s.MoreChildren s' := by
  obtain ⟨s₁, ve, hfs, rfl⟩ := h.exists_cache
  have hne : inode ≠ s₁.fs.ninodes := by
    rw [hfs]
    omega
  refine ⟨inode, hinode, ?_⟩
  rw [virtfsCache_inodes s₁ hne, update_self, hfs, List.length_cons]
  omega

/-! ## Links that stay inside -/

section

variable (hs : s.Wf)

include hs

theorem Wf.virtfsCache (hinode : inode < s.fs.ninodes) (name : List UInt8)
    (ve : Nat) : (s.virtfsCache inode name ve).1.Wf := by
  have hdents := virtfsCache_dents s inode name ve
  have hinodes := virtfsCache_inodes s (Nat.ne_of_lt hinode) name ve
  have hnd : (s.virtfsCache inode name ve).1.fs.ndents = s.fs.ndents + 1 := rfl
  -- an inode that was there has the same fields, but for one more child
  have hold : ∀ i < s.fs.ninodes,
      ((s.virtfsCache inode name ve).1.fs.inodes i).iMount = (s.fs.inodes i).iMount ∧
        ((s.virtfsCache inode name ve).1.fs.inodes i).iLookup = (s.fs.inodes i).iLookup := by
    intro i hi
    obtain ⟨new, -, heq⟩ := (virtfsCache_grows s inode name ve).inodes i hi
    rw [heq]
    exact ⟨rfl, rfl⟩
  have hnew : (s.virtfsCache inode name ve).1.fs.inodes s.fs.ninodes =
      cacheInode (s.ves ve) ve := by
    rw [hinodes, update_of_ne (Nat.ne_of_gt hinode), update_self]
  constructor
  case nInode => exact Nat.lt_succ_of_lt hs.nInode
  case nDent => exact Nat.lt_succ_of_lt hs.nDent
  case children =>
    intro i hi d hd
    obtain hlt | rfl := Nat.lt_succ_iff_lt_or_eq.mp hi
    · obtain rfl | hne := eq_or_ne i inode
      · rw [hinodes, update_self, List.mem_cons] at hd
        obtain rfl | hd := hd
        · exact Nat.lt_succ_self _
        · exact Nat.lt_succ_of_lt (hs.children i hlt d hd)
      · rw [hinodes, update_of_ne hne, update_of_ne (Nat.ne_of_lt hlt)] at hd
        exact Nat.lt_succ_of_lt (hs.children i hlt d hd)
    · rw [hnew] at hd
      cases hd
  case dInode =>
    intro d hd
    rw [hnd] at hd
    rw [hdents]
    obtain hlt | rfl := Nat.lt_succ_iff_lt_or_eq.mp hd
    · rw [update_of_ne (Nat.ne_of_lt hlt)]
      exact Nat.lt_succ_of_lt (hs.dInode d hlt)
    · rw [update_self]
      exact Nat.lt_succ_self _
  case iMount =>
    intro i hi
    unfold FsState.enter
    obtain hlt | rfl := Nat.lt_succ_iff_lt_or_eq.mp hi
    · rw [(hold i hlt).1]
      exact Nat.lt_succ_of_lt (hs.iMount i hlt)
    · rw [hnew]
      exact Nat.lt_succ_self _
  case iLookup =>
    intro i hi
    obtain hlt | rfl := Nat.lt_succ_iff_lt_or_eq.mp hi
    · rw [(hold i hlt).2]
      exact hs.iLookup i hlt
    · rw [hnew]
      rfl

theorem Wf.cached (hinode : inode < s.fs.ninodes) (h : s.Cached inode name s' d) :
    s'.Wf ∧ d < s'.fs.ndents := by
  obtain ⟨rfl, s₁, ve, hs₁, rfl⟩ := h
  obtain ⟨rfl, -⟩ | ⟨e, -, rfl⟩ := hs₁
  · exact ⟨hs.virtfsCache hinode name ve, Nat.lt_succ_self _⟩
  · have hadd : (s.addVe e).1.Wf :=
      ⟨hs.nInode, hs.nDent, hs.children, hs.dInode, hs.iMount, hs.iLookup⟩
    exact ⟨hadd.virtfsCache hinode name ve, Nat.lt_succ_self _⟩

theorem Wf.lookupDirentry (hinode : inode < s.fs.ninodes)
    (h : s.lookupDirentry name inode = some (s', r)) :
    s'.Wf ∧ (∀ d, r = some d → d < s'.fs.ndents) ∧ (s' = s ∨ s.MoreChildren s') := by
  obtain ⟨rfl, hfound⟩ | ⟨d, rfl, hcached⟩ := lookupDirentry_cases h
  · refine ⟨hs, fun d hd => ?_, .inl rfl⟩
    obtain hmem | hlookup := hfound d hd
    · exact hs.children inode hinode d hmem
    · rw [hs.iLookup inode hinode] at hlookup
      cases hlookup
  · have hwf := hs.cached hinode hcached
    refine ⟨hwf.1, fun e he => ?_, .inr (hcached.moreChildren hinode)⟩
    cases he
    exact hwf.2

theorem Wf.lookupPathLoop (hinode : inode < s.fs.ninodes)
    (h : s.lookupPathLoop n p inode = some (s', r)) :
    s'.Wf ∧ (∀ d, r = some d → d < s'.fs.ndents) ∧ (s' = s ∨ s.MoreChildren s') := by
  refine lookupPathLoop_induction (motive := fun s _ inode s' r => s.Wf → inode < s.fs.ninodes →
    s'.Wf ∧ (∀ d, r = some d → d < s'.fs.ndents) ∧ (s' = s ∨ s.MoreChildren s')) ?_ ?_ ?_ h hs
    hinode
  · exact fun _ hlast hs hinode => hs.lookupDirentry hinode hlast
  · exact fun _ hmiss hs hinode => hs.lookupDirentry hinode hmiss
  · intro s s₁ s' p inode n k d r _ _ hfound hrest ih hs hinode
    obtain ⟨hs₁, hd, hchanges⟩ := hs.lookupDirentry hinode hfound
    obtain ⟨hs', hd', hchanges'⟩ := ih hs₁ (hs₁.iMount _ (hs₁.dInode d (hd d rfl)))
    refine ⟨hs', hd', ?_⟩
    obtain rfl | hmore := hchanges
    · exact hchanges'
    · exact .inr (hmore.grows (lookupDirentry_grows hfound) (lookupPathLoop_grows hrest))

/-- A lookup keeps the links inside and gives an entry that is there.  It leaves the state as it
is, or it adds to the children of a directory. -/
theorem Wf.lookupPath (h : s.lookupPath path = some (s', r)) :
    s'.Wf ∧ (∀ d, r = some d → d < s'.fs.ndents) ∧ (s' = s ∨ s.MoreChildren s') := by
  obtain ⟨rfl, rfl⟩ | ⟨n, hloop⟩ := lookupPath_cases h
  · refine ⟨hs, fun d hd => ?_, .inl rfl⟩
    cases hd
    exact hs.nDent
  · exact hs.lookupPathLoop hs.nInode hloop

theorem Wf.mount0 (mntpt : Nat) {root : Nat} (hroot : root < s.fs.ninodes) :
    (s.mount0 mntpt root).Wf := by
  have hinodes : (s.mount0 mntpt root).fs.inodes = Function.update s.fs.inodes
      (s.fs.dents mntpt).dInode
      { s.fs.inodes (s.fs.dents mntpt).dInode with iMount := some root } := rfl
  have hdents : (s.mount0 mntpt root).fs.dents = Function.update s.fs.dents mntpt
      { s.fs.dents mntpt with dInode := root } := rfl
  constructor
  case nInode => exact hs.nInode
  case nDent => exact hs.nDent
  case children =>
    intro i hi d hd
    rw [hinodes, update_apply] at hd
    split at hd
    case isTrue heq =>
      subst heq
      exact hs.children _ hi d hd
    case isFalse => exact hs.children i hi d hd
  case dInode =>
    intro d hd
    rw [hdents, update_apply]
    split
    · exact hroot
    · exact hs.dInode d hd
  case iMount =>
    intro i hi
    unfold FsState.enter
    rw [hinodes, update_apply]
    split
    · exact hroot
    · exact hs.iMount i hi
  case iLookup =>
    intro i hi
    rw [hinodes, update_apply]
    split
    case isTrue heq =>
      subst heq
      exact hs.iLookup _ hi
    case isFalse => exact hs.iLookup i hi

theorem Wf.virtfsInitInodes : s.virtfsInitInodes.1.Wf := by
  have hinodes : ∀ i, s.virtfsInitInodes.1.fs.inodes i =
      if i = s.fs.ninodes then
        ⟨ROOT_INO, 0, S_IFDIR, NODEV, 0, [], 0, [], none, genericLookup⟩
      else s.fs.inodes i := by
    intro i
    unfold VfsState.virtfsInitInodes FsState.setInode FsState.newInode
    simp only [update_apply]
    split_ifs <;> rfl
  have hni : s.virtfsInitInodes.1.fs.ninodes = s.fs.ninodes + 1 := rfl
  constructor
  case nInode => exact Nat.lt_succ_of_lt hs.nInode
  case nDent => exact hs.nDent
  case children =>
    intro i hi d hd
    rw [hinodes] at hd
    split at hd
    · cases hd
    · exact hs.children i (by omega) d hd
  case dInode => exact fun d hd => Nat.lt_succ_of_lt (hs.dInode d hd)
  case iMount =>
    intro i hi
    unfold FsState.enter
    rw [hinodes]
    split
    · exact hi
    · exact Nat.lt_succ_of_lt (hs.iMount i (by omega))
  case iLookup =>
    intro i hi
    rw [hinodes]
    split
    · rfl
    · exact hs.iLookup i (by omega)

end

theorem ofFs_wf {fs : FsState} (hfs : fs.RootTree) (priv : Nat → Nat) : (ofFs fs priv).Wf where
  nInode := hfs.root ▸ hfs.dInode_lt _ hfs.nDent_lt
  nDent := hfs.nDent_lt
  children := hfs.child_lt
  dInode := hfs.dInode_lt
  iMount := by
    intro i hi
    have hmount : fs.enter i = i := by
      unfold FsState.enter
      rw [(hfs.plain i hi).1]
      rfl
    exact hmount.symm ▸ hi
  iLookup := fun i hi => (hfs.plain i hi).2

theorem Wf.fsInitVirtfs (hs : s.Wf) (h : s.fsInitVirtfs = some s') : s'.Wf := by
  unfold VfsState.fsInitVirtfs at h
  dsimp only at h
  split at h
  case h_1 s₁ dent hlookup =>
    have hs₁ := (hs.virtfsInitInodes.lookupPath hlookup).1
    cases h
    exact hs₁.mount0 dent ((Nat.lt_succ_self _).trans_le (lookupPath_grows hlookup).ninodes)
  case h_2 => cases h

/-- The state after `fs_init`, with an empty archive. -/
def bootVfs : VfsState :=
  (ofFs FsState.firstTree (fun _ => 0)).virtfsInitInodes.1.mount0 7 8

theorem fsInitVirtfs_boot : (ofFs FsState.firstTree (fun _ => 0)).fsInitVirtfs = some bootVfs := by
  with_unfolding_all rfl

theorem bootVfs_wf : bootVfs.Wf :=
  (ofFs_wf (FsState.fsInit_rootTree _ _) _).fsInitVirtfs fsInitVirtfs_boot

/-! ## Without a virtual file system -/

/-- All inodes are those of the root file system, and nothing was freed. -/
structure Plain (s : VfsState) : Prop where
  virt : ∀ i, s.virt i = false
  freed : s.freed = []
  killed : s.killed = []

/-- All names end in a NUL. -/
def Terminated (s : VfsState) : Prop := ∀ d, (cstring (s.fs.dents d).dName).isSome

/-- A function of both file systems follows that of the root file system, which stops at a name
without a NUL. -/
def Follows {α : Type} (s : VfsState) (x : Option α) (y : Option (VfsState × α)) : Prop :=
  y = x.map (Prod.mk s) ∨ x = none ∧ ¬s.Terminated

theorem Plain.scanDents (hs : s.Plain) (name : List UInt8) (ds : List Nat) :
    s.scanDents name ds = s.fs.scanDents name ds ∨
      s.fs.scanDents name ds = none ∧ ¬s.Terminated := by
  induction ds with
  | nil => exact .inl rfl
  | cons d ds ih =>
    rw [VfsState.scanDents, FsState.scanDents, hs.freed, if_neg List.not_mem_nil]
    cases hstr : cstring (s.fs.dents d).dName with
    | none =>
      refine .inr ⟨rfl, fun hterm => ?_⟩
      simpa [hstr] using hterm d
    | some str =>
      rw [show (s.fs.dents d).string = some str from cstring_append hstr _]
      dsimp only
      split
      · exact .inl rfl
      · exact ih

theorem Plain.lookupDirentry (hs : s.Plain) (name : List UInt8) (inode : Nat) :
    s.Follows (s.fs.lookupDirentry name inode) (s.lookupDirentry name inode) := by
  unfold Follows VfsState.lookupDirentry FsState.lookupDirentry
  rw [hs.killed, if_neg List.not_mem_nil]
  split
  · obtain heq | ⟨hnone, hterm⟩ := hs.scanDents name (s.fs.inodes inode).iChildren
    · rw [heq]
      rcases s.fs.scanDents name (s.fs.inodes inode).iChildren with - | - | d
      · exact .inl rfl
      · exact .inl (by simp [hs.virt inode])
      · exact .inl rfl
    · rw [hnone]
      exact .inr ⟨rfl, hterm⟩
  · exact .inl rfl

theorem Plain.lookupPathLoop (hs : s.Plain) (n : Nat) (p : List UInt8) (inode : Nat) :
    s.Follows (s.fs.lookupPathLoop n p inode) (s.lookupPathLoop n p inode) := by
  induction n generalizing p inode with
  | zero => exact .inl rfl
  | succ n ih =>
    rw [VfsState.lookupPathLoop_succ, FsState.lookupPathLoop_succ]
    cases kstrchr SLASH p with
    | none => exact hs.lookupDirentry p inode
    | some k =>
      dsimp only
      split
      · obtain heq | ⟨hnone, hterm⟩ := hs.lookupDirentry (p.take k) inode
        · rw [heq]
          rcases s.fs.lookupDirentry (p.take k) inode with - | - | d
          · exact .inl rfl
          · exact .inl rfl
          · exact ih _ _
        · rw [hnone]
          exact .inr ⟨rfl, hterm⟩
      · exact .inl rfl

theorem Plain.lookupPath (hs : s.Plain) (path : List UInt8) :
    s.Follows (s.fs.lookupPath path) (s.lookupPath path) := by
  rw [VfsState.lookupPath_eq, FsState.lookupPath_eq]
  split
  · exact .inl rfl
  · exact hs.lookupPathLoop _ _ _

theorem Plain.insertTarget (hs : s.Plain) (path : List UInt8) :
    s.Follows (s.fs.insertTarget path) (s.insertTarget path) := by
  unfold VfsState.insertTarget FsState.insertTarget
  rw [PathOps.insertTarget_result, PathOps.insertTarget_result]
  split
  · exact .inl rfl
  · rw [FsState.run_lookupPath]
    obtain heq | ⟨hnone, hterm⟩ := hs.lookupPath path
    · rw [show ((pathOps.lookupPath path).run s).result = _ from heq]
      rcases s.fs.lookupPath path with - | - | d
      · exact .inl rfl
      · dsimp only [Option.map_some]
        rcases kstrrchr path SLASH with - | - | k
        · exact .inl rfl
        · exact .inl rfl
        · dsimp only
          split
          · rw [FsState.run_lookupPath]
            obtain heq | ⟨hnone, hterm⟩ := hs.lookupPath (path.take (k + 1))
            · rw [show ((pathOps.lookupPath (path.take (k + 1))).run s).result = _ from heq]
              rcases s.fs.lookupPath (path.take (k + 1)) with - | - | d
              · exact .inl rfl
              · exact .inl rfl
              · exact .inl rfl
            · rw [hnone]
              exact .inr ⟨rfl, hterm⟩
          · exact .inl rfl
      · exact .inl rfl
    · rw [hnone]
      exact .inr ⟨rfl, hterm⟩

theorem insertAt_fs (s : VfsState) (parent : Nat) (name : List UInt8) (mode dev : Nat)
    (buf : Option Nat) (len : Nat) : (s.insertAt parent name mode dev buf len).map VfsState.fs =
      s.fs.insertAt parent name mode dev buf len := by
  unfold VfsState.insertAt FsState.insertAt
  cases buf with
  | none => rfl
  | some src =>
    dsimp only [VfsState.fsAddEntry]
    split
    · rw [Option.map_map]
      exact Option.map_id'
    · rfl

/-- `fs_insert_entry` is that of the root file system, which stops at a name without a NUL. -/
theorem Plain.map_fsInsertEntry (hs : s.Plain) (path : List UInt8) (mode dev : Nat)
    (buf : Option Nat) (len : Nat)
    (hnames : s.Terminated ∨ (s.fs.fsInsertEntry path mode dev buf len).isSome) :
    (s.fsInsertEntry path mode dev buf len).map VfsState.fs =
      s.fs.fsInsertEntry path mode dev buf len := by
  unfold FsState.fsInsertEntry at hnames ⊢
  unfold VfsState.fsInsertEntry
  obtain heq | ⟨hnone, hterm⟩ := hs.insertTarget path
  · rw [heq]
    rcases s.fs.insertTarget path with - | - | ⟨parent, name⟩
    · rfl
    · rfl
    · exact insertAt_fs ..
  · rw [hnone] at hnames
    obtain hall | hsome := hnames
    · exact absurd hall hterm
    · cases hsome

theorem ofFs_plain (fs : FsState) (priv : Nat → Nat) : (ofFs fs priv).Plain :=
  ⟨fun _ => rfl, rfl, rfl⟩

theorem map_fsInsertEntry_fsInit : ((ofFs (.fsInit (rawZone 4) (fun _ => 0)) id).fsInsertEntry
      [0x61] S_IFDIR NODEV none 0).map VfsState.fs =
    (FsState.fsInit (rawZone 4) (fun _ => 0)).fsInsertEntry [0x61] S_IFDIR NODEV none 0 :=
  (ofFs_plain _ id).map_fsInsertEntry [0x61] S_IFDIR NODEV none 0 (.inr (by decide +kernel))

end VfsState

end Koowaldah
