import Koowaldah.Fs.Basic
import Koowaldah.Kstr
import Koowaldah.Lib.Traced

/-!
# Names of the root file system

A model of `kernel/fs/namespace.c` (`new_direntry`, `lookup_direntry`,
`lookup_path`), of `new_inode` of `kernel/fs/inode.c`, and of `fs_add_entry`,
`fs_insert_entry` and `fs_init` of `kernel/fs/fs.c`.

A pointer to a `struct inode` or to a `struct direntry` is an index, and the objects
are functions on indices: `gobj_alloc` gives the next index, and finds memory always.
`i_children` is the list of the entries of a directory, first member first;
`klist0_append` puts a new one in front.

`d_name` is the bytes that `new_direntry` copied to it.  There are `FILENAME_MAX` of
them at most, so the name of an entry may have no NUL.  To read such a name is to read
what is behind it; the model stops there (`none`), as it does when `lookup_path` or
`fs_insert_entry` store past the end of a buffer, and at a `bug ()`.

`lookup_path` and the part of `fs_insert_entry` that finds the directory are programs over
the operations of a file system (`PathOps`), which leave a trace of their stores to `name` and
`dir`.  This module runs them on the root file system alone, and `Fs/Virtfs` on both.

The method `lookup` of an inode is a field, `iLookup`.  The superblock of the root file
system has no `s_iops`, so every inode that `new_inode` makes there has
`generic_lookup`.
-/

namespace Koowaldah

open SysLib

def FILENAME_MAX : Nat := 256

def ROOT_INO : Nat := 2

def NODEV : Nat := 0

def DEV_DEVICE (maj min : Nat) : Nat := maj <<< 16 ||| min

def S_IFMT : Nat := 0o170000

def S_IFREG : Nat := 0o100000

def S_IFDIR : Nat := 0o040000

def S_IFCHR : Nat := 0o020000

def S_ISREG (mode : Nat) : Bool := mode &&& S_IFMT == S_IFREG

def S_ISDIR (mode : Nat) : Bool := mode &&& S_IFMT == S_IFDIR

def S_ISCHR (mode : Nat) : Bool := mode &&& S_IFMT == S_IFCHR

/-- The character that separates the parts of a path. -/
def SLASH : UInt8 := 0x2f

/-- The string `"."`. -/
def DOT : List UInt8 := [0x2e]

/-- `generic_lookup`: the answer is `NULL`, whether the inode is a directory or not. -/
def genericLookup (_ : List UInt8) : Option Nat := none

structure FsInode where
  iIno : Nat
  iRefcnt : Nat
  iMode : Nat
  iDev : Nat
  iSize : Nat
  iPages : List Nat
  iFilled : Nat
  iChildren : List Nat
  iMount : Option Nat
  iLookup : List UInt8 → Option Nat

structure Direntry where
  dName : List UInt8
  dInode : Nat
  dRefcnt : Nat
deriving DecidableEq, Repr

/-- The inodes and the entries that are there, `root_ns`, the `ino` of `fs_add_entry`,
and the memory that the pages of the files are in.  `iMount` of an inode is the root of
the file system that is mounted there. -/
structure FsState where
  inodes : Nat → FsInode
  ninodes : Nat
  dents : Nat → Direntry
  ndents : Nat
  ino : Nat
  nInode : Nat
  nDent : Nat
  zone : Zone
  mem : ByteMem

/-- The string in an array of bytes: what is in front of the NUL, and `none` when there
is no NUL in it. -/
def cstring : List UInt8 → Option (List UInt8)
  | [] => none
  | x :: l => if x = 0 then some [] else (cstring l).map (x :: ·)

/-! ## Paths -/

/-- A store of a number of bytes from a path, to `name` of `lookup_path` or to `dir` of
`fs_insert_entry`. -/
inductive PathStore where
  | name (n : Nat)
  | dir (n : Nat)
deriving DecidableEq, Repr

/-- What `lookup_path` and `fs_insert_entry` use of a file system with states `S`. -/
structure PathOps (S : Type) where
  nInode : S → Nat
  nDent : S → Nat
  dInode : S → Nat → Nat
  enter : S → Nat → Nat
  lookupDirentry : S → List UInt8 → Nat → Option (S × Option Nat)

namespace PathOps

variable {S : Type} (ops : PathOps S)

/-- The loop of `lookup_path`, with the rounds left to do. -/
def lookupPathLoop : Nat → List UInt8 → Nat → Traced PathStore S (Option Nat)
  | 0, _, _ => .stop
  | n + 1, p, inode =>
    match kstrchr SLASH p with
    | none => .call (ops.lookupDirentry · p inode)
    | some k => do
      -- the name and its NUL
      .emit (.name (k + 1))
      .check (k < FILENAME_MAX)
      match ← .call (ops.lookupDirentry · (p.take k) inode) with
      | none => pure none
      | some d =>
        let inode ← .read (fun s => ops.enter s (ops.dInode s d))
        lookupPathLoop n (p.drop (k + 1)) inode

/-- `lookup_path`.  Every thread has `root_ns`. -/
def lookupPath (pathname : List UInt8) : Traced PathStore S (Option Nat) :=
  let p := pathname.dropWhile (· == SLASH)
  if p = [] then .read (fun s => some (ops.nDent s))
  else do
    -- every round goes past a slash
    ops.lookupPathLoop (p.length + 1) p (← .read ops.nInode)

/-- `fs_insert_entry` up to `fs_add_entry`: the directory and the name of the new entry. -/
def insertTarget (pathname : List UInt8) : Traced PathStore S (Option (Nat × List UInt8)) :=
  if kstrcmp pathname DOT = 0 then pure none
  else do
    match ← ops.lookupPath pathname with
    | some _ => pure none
    | none =>
      match kstrrchr pathname SLASH with
      | none =>
        -- `dir[0] = '/'`
        .emit (.dir 1)
        .read (fun s => some (ops.nInode s, pathname))
      | some 0 =>
        -- the first character is the last slash, and `p` is `pathname` too
        .emit (.dir 0)
        .read (fun s => some (ops.nInode s, pathname))
      | some (k + 1) =>
        .emit (.dir (k + 1))
        -- `dir` has no NUL if it is full
        .check (k + 1 < FILENAME_MAX)
        match ← ops.lookupPath (pathname.take (k + 1)) with
        | none => .stop
        | some d => .read (fun s => some (ops.dInode s d, pathname.drop (k + 2)))

variable (s : S) (p path : List UInt8) (n inode : Nat)

theorem lookupPathLoop_run : (ops.lookupPathLoop (n + 1) p inode).run s =
      match kstrchr SLASH p with
      | none => ⟨[], ops.lookupDirentry s p inode⟩
      | some k =>
        if k < FILENAME_MAX then
          match ops.lookupDirentry s (p.take k) inode with
          | none => ⟨[.name (k + 1)], none⟩
          | some (s, none) => ⟨[.name (k + 1)], some (s, none)⟩
          | some (s, some d) =>
            let rest := (ops.lookupPathLoop n (p.drop (k + 1)) (ops.enter s (ops.dInode s d))).run s
            ⟨.name (k + 1) :: rest.events, rest.result⟩
        else ⟨[.name (k + 1)], none⟩ := by
  rw [lookupPathLoop]
  cases kstrchr SLASH p with
  | none => rfl
  | some k =>
    dsimp only
    split
    case isTrue hk =>
      simp only [bind, Traced.bind, Traced.emit, Traced.check, Traced.call, hk, if_true]
      rcases ops.lookupDirentry s (p.take k) inode with - | ⟨s₁, - | d⟩
      · rfl
      · rfl
      · rfl
    case isFalse hk => simp [bind, Traced.bind, Traced.emit, Traced.check, hk]

theorem lookupPath_run : (ops.lookupPath path).run s =
      if path.dropWhile (· == SLASH) = [] then ⟨[], some (s, some (ops.nDent s))⟩
      else (ops.lookupPathLoop ((path.dropWhile (· == SLASH)).length + 1)
        (path.dropWhile (· == SLASH)) (ops.nInode s)).run s := by
  unfold lookupPath
  dsimp only
  split
  · rfl
  · rfl

theorem insertTarget_result : ((ops.insertTarget path).run s).result =
      if kstrcmp path DOT = 0 then some (s, none)
      else
        match ((ops.lookupPath path).run s).result with
        | none => none
        | some (s, some _) => some (s, none)
        | some (s, none) =>
          match kstrrchr path SLASH with
          | none => some (s, some (ops.nInode s, path))
          | some 0 => some (s, some (ops.nInode s, path))
          | some (k + 1) =>
            if k + 1 < FILENAME_MAX then
              match ((ops.lookupPath (path.take (k + 1))).run s).result with
              | none => none
              | some (_, none) => none
              | some (s, some d) => some (s, some (ops.dInode s d, path.drop (k + 2)))
            else none := by
  unfold insertTarget
  split
  · rfl
  · rw [Traced.result_bind]
    rcases ((ops.lookupPath path).run s).result with - | ⟨s₁, - | d⟩
    · rfl
    · rw [Option.bind_some]
      rcases kstrrchr path SLASH with - | - | k
      · rfl
      · rfl
      · by_cases hk : k + 1 < FILENAME_MAX
        · simp only [Traced.result_bind, Traced.emit, Traced.check, hk, if_true, Option.bind_some]
          rcases ((ops.lookupPath (path.take (k + 1))).run s₁).result with - | ⟨s₂, - | d⟩
          · rfl
          · rfl
          · rfl
        · simp only [Traced.result_bind, Traced.emit, Traced.check, hk, if_false,
            Option.bind_some, Option.bind_none]
    · rfl

end PathOps

namespace FsState

/-! ## Looking up -/

/-- The loop of `lookup_direntry`. -/
def scanDents (s : FsState) (name : List UInt8) : List Nat → Option (Option Nat)
  | [] => some none
  | d :: ds =>
    match cstring (s.dents d).dName with
    | none => none
    | some dName => if kstrcmp dName name = 0 then some (some d) else s.scanDents name ds

/-- `lookup_direntry`: `some none` is `NULL`. -/
def lookupDirentry (s : FsState) (name : List UInt8) (inode : Nat) : Option (Option Nat) :=
  if S_ISDIR (s.inodes inode).iMode then
    match s.scanDents name (s.inodes inode).iChildren with
    | none => none
    | some (some d) => some (some d)
    | some none => some ((s.inodes inode).iLookup name)
  else some none

/-- The root of the file system that is mounted on an inode, or the inode. -/
def enter (s : FsState) (inode : Nat) : Nat := ((s.inodes inode).iMount).getD inode

/-- The paths of the tree.  A lookup does not change it. -/
def pathOps (s : FsState) : PathOps Unit where
  nInode _ := s.nInode
  nDent _ := s.nDent
  dInode _ d := (s.dents d).dInode
  enter _ := s.enter
  lookupDirentry _ name inode := (s.lookupDirentry name inode).map (Prod.mk ())

def lookupPathLoop (s : FsState) (n : Nat) (p : List UInt8) (inode : Nat) : Option (Option Nat) :=
  ((s.pathOps.lookupPathLoop n p inode).run ()).result.map Prod.snd

def lookupPath (s : FsState) (pathname : List UInt8) : Option (Option Nat) :=
  ((s.pathOps.lookupPath pathname).run ()).result.map Prod.snd

@[inherit_doc PathOps.insertTarget]
def insertTarget (s : FsState) (pathname : List UInt8) : Option (Option (Nat × List UInt8)) :=
  ((s.pathOps.insertTarget pathname).run ()).result.map Prod.snd

theorem lookupPathLoop_succ (s : FsState) (n : Nat) (p : List UInt8) (inode : Nat) :
    s.lookupPathLoop (n + 1) p inode =
      match kstrchr SLASH p with
      | none => s.lookupDirentry p inode
      | some k =>
        if k < FILENAME_MAX then
          match s.lookupDirentry (p.take k) inode with
          | none => none
          | some none => some none
          | some (some d) => s.lookupPathLoop n (p.drop (k + 1)) (s.enter (s.dents d).dInode)
        else none := by
  unfold lookupPathLoop
  rw [PathOps.lookupPathLoop_run]
  cases kstrchr SLASH p with
  | none =>
    show ((s.lookupDirentry p inode).map (Prod.mk ())).map Prod.snd = _
    rw [Option.map_map]
    exact Option.map_id'
  | some k =>
    dsimp only [pathOps]
    split
    · rcases s.lookupDirentry (p.take k) inode with - | - | d
      · rfl
      · rfl
      · rfl
    · rfl

theorem lookupPath_eq (s : FsState) (path : List UInt8) : s.lookupPath path =
      if path.dropWhile (· == SLASH) = [] then some (some s.nDent)
      else s.lookupPathLoop ((path.dropWhile (· == SLASH)).length + 1)
        (path.dropWhile (· == SLASH)) s.nInode := by
  unfold lookupPath
  rw [PathOps.lookupPath_run]
  split
  · rfl
  · rfl

theorem run_lookupPath (s : FsState) (path : List UInt8) :
    ((s.pathOps.lookupPath path).run ()).result = (s.lookupPath path).map (Prod.mk ()) := by
  unfold lookupPath
  rw [Option.map_map]
  exact Option.map_id'.symm

/-! ## Adding entries -/

/-- `new_inode`, for the root file system. -/
def newInode (s : FsState) : FsState × Nat :=
  ({ s with
      inodes := Function.update s.inodes s.ninodes
        { iIno := 0, iRefcnt := 0, iMode := 0, iDev := NODEV, iSize := 0, iPages := [],
          iFilled := 0, iChildren := [], iMount := none, iLookup := genericLookup }
      ninodes := s.ninodes + 1 }, s.ninodes)

def newDirentry (s : FsState) (name : List UInt8) (inode : Nat) : FsState × Nat :=
  ({ s with
      dents := Function.update s.dents s.ndents
        { dName := (name ++ [0]).take (min FILENAME_MAX (kstrlen name + 1))
          dInode := inode
          dRefcnt := 0 }
      ndents := s.ndents + 1 }, s.ndents)

def setInode (s : FsState) (inode : Nat) (f : FsInode → FsInode) : FsState :=
  { s with inodes := Function.update s.inodes inode (f (s.inodes inode)) }

def setDent (s : FsState) (dent : Nat) (f : Direntry → Direntry) : FsState :=
  { s with dents := Function.update s.dents dent (f (s.dents dent)) }

def fsAddEntry (s : FsState) (parent : Nat) (name : List UInt8) (mode dev : Nat) :
    FsState × Nat :=
  let (s, inode) := s.newInode
  let s := { s with ino := s.ino + 1 }
  let s := s.setInode inode (fun i =>
    { i with iIno := s.ino, iMode := mode, iDev := dev, iRefcnt := i.iRefcnt + 1 })
  let (s, dent) := s.newDirentry name inode
  let s := s.setDent dent (fun d => { d with dRefcnt := d.dRefcnt + 1 })
  (s.setInode parent (fun i => { i with iChildren := dent :: i.iChildren }), inode)

/-- `fs_stuff_inode`, on an inode. -/
def stuffInode (s : FsState) (inode src len : Nat) : Option FsState :=
  (fsStuffInode s.zone s.mem (S_ISCHR (s.inodes inode).iMode) src len).map
    (fun (z, mem, file) =>
      { s with zone := z, mem := mem }.setInode inode (fun i =>
        { i with iSize := file.iSize, iPages := file.iPages, iFilled := file.iFilled }))

/-- The part of `fs_insert_entry` behind the search for the directory. -/
def insertAt (s : FsState) (parent : Nat) (name : List UInt8) (mode dev : Nat)
    (buf : Option Nat) (len : Nat) : Option FsState :=
  let (s, inode) := s.fsAddEntry parent name mode dev
  match buf with
  | none => some s
  | some src => if S_ISREG mode ∧ len ≠ 0 then s.stuffInode inode src len else some s

/-- `fs_insert_entry`.  `buf` is `none` for `NULL`. -/
def fsInsertEntry (s : FsState) (pathname : List UInt8) (mode dev : Nat) (buf : Option Nat)
    (len : Nat) : Option FsState :=
  match s.insertTarget pathname with
  | none => none
  | some none => some s
  | some (some (parent, name)) => s.insertAt parent name mode dev buf len

/-! ## The first entries -/

/-- The root inode and its name, as `fs_init_inodes` and `fs_init_namespace` make them,
in the memory that is given. -/
def fsRoot (zone : Zone) (mem : ByteMem) : FsState where
  inodes := fun _ =>
    { iIno := ROOT_INO, iRefcnt := 1, iMode := S_IFDIR, iDev := NODEV, iSize := 0, iPages := [],
      iFilled := 0, iChildren := [], iMount := none, iLookup := genericLookup }
  ninodes := 1
  dents := fun _ => ⟨[SLASH, 0], 0, 0⟩
  ndents := 1
  ino := ROOT_INO
  nInode := 0
  nDent := 0
  zone := zone
  mem := mem

/-- The entries that `fs_init` makes before it reads the archive. -/
def fsInit (zone : Zone) (mem : ByteMem) : FsState :=
  let root := 0
  -- "dev", "tty0", "pckbd", "serial", "initfs", "mnt", "koowaldah"
  let (s, p) := (fsRoot zone mem).fsAddEntry root [0x64, 0x65, 0x76] S_IFDIR NODEV
  let (s, _) := s.fsAddEntry p [0x74, 0x74, 0x79, 0x30] S_IFCHR (DEV_DEVICE 4 0)
  let (s, _) := s.fsAddEntry p [0x70, 0x63, 0x6b, 0x62, 0x64] S_IFCHR (DEV_DEVICE 13 128)
  let (s, _) := s.fsAddEntry p [0x73, 0x65, 0x72, 0x69, 0x61, 0x6c] S_IFCHR (DEV_DEVICE 12 34)
  let (s, _) := s.fsAddEntry root [0x69, 0x6e, 0x69, 0x74, 0x66, 0x73] S_IFDIR NODEV
  let (s, _) := s.fsAddEntry root [0x6d, 0x6e, 0x74] S_IFDIR NODEV
  (s.fsAddEntry root [0x6b, 0x6f, 0x6f, 0x77, 0x61, 0x6c, 0x64, 0x61, 0x68] S_IFDIR NODEV).1

end FsState

end Koowaldah
