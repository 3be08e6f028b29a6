import Koowaldah.Fs.Virtfs

/-!
# Files of both file systems

`open`, `close` and the way from a descriptor to a file, of `kernel/fs/file.c`, with the
virtual file system mounted and with reference counts of 32 bits.

Two kinds of calls are to leave things as they were.  An `open` that fails is one: it
looks up the path, asks for the device and for memory, and counts the file and links it
into `files` before it asks for a descriptor, so what was done is not taken back when
there is none.  A call with a descriptor that was closed is the other: `close` clears the
bit of the descriptor and leaves the file in `files`, where `fd2file` finds it.

* `open_failed_iff` says which failures of `open` change nothing: all but the last one.
* `closed_alive` says that the file of a closed descriptor is found at every later
  moment, by the rule for runs, and `closed_dead_iff` that no closed descriptor is
  refused.
-/

namespace Koowaldah

open Function SysLib

/-- Both file systems, and the descriptor tables of the threads. -/
structure VfsSys where
  vfs : VfsState
  tables : Nat → FdTable

def VfsState.countOpen (s : VfsState) (dent : Nat) : VfsState :=
  let fs := s.fs.setDent dent (fun d => { d with dRefcnt := addWord d.dRefcnt 1 })
  { s with fs := fs.setInode (fs.dents dent).dInode (fun i =>
      { i with iRefcnt := addWord i.iRefcnt 1 }) }

namespace VfsSys

/-- `open`, by a thread.  `devices` are the numbers of the devices that are registered,
and `memory` says whether `new_file` finds any. -/
def fileOpen (s : VfsSys) (devices : List Nat) (memory : Bool) (thread : Nat)
    (name : List UInt8) (flags mode : Nat) : Option (VfsSys × Int) :=
  let created := if flags &&& O_CREAT ≠ 0 then s.vfs.fsInsertEntry name mode NODEV none 0
    else some s.vfs
  created.bind (fun vfs =>
    match vfs.lookupPath name with
    | none => none
    | some (vfs, none) => some (⟨vfs, s.tables⟩, -ENOENT)
    | some (vfs, some dent) =>
      let dev := (vfs.fs.inodeOf dent).iDev
      if (dev ≠ NODEV ∧ flags &&& O_FORCE = 0) ∧ dev ∉ devices then
        some (⟨vfs, s.tables⟩, -ENODEV)
      else if memory = false then some (⟨vfs, s.tables⟩, -ENOMEM)
      else
        let (t, fd) := (s.tables thread).fileOpen (.ok (vfs.fs.dents dent).dInode)
        some (⟨vfs.countOpen dent, Function.update s.tables thread t⟩, fd))

/-- `close`, by a thread. -/
def fileClose (s : VfsSys) (thread : Nat) (fd : Int) : Option (VfsSys × Int) :=
  match (s.tables thread).fd2file fd with
  | none => some (s, -EBADF)
  | some file =>
    (s.vfs.releaseInode file.fInode).bind (fun vfs =>
      match fd with
      | .ofNat fd =>
        let (t, ret) := (s.tables thread).fileClose fd
        some (⟨vfs, Function.update s.tables thread t⟩, ret)
      -- `free_fd` writes in front of the bitmap
      | .negSucc _ => none)

def onFile (s : VfsSys) (thread : Nat) (fd : Int) (op : File → Option (VfsSys × Int)) :
    Option (VfsSys × Int) :=
  match (s.tables thread).fd2file fd with
  | none => some (s, -EBADF)
  | some file => op file

def read (s : VfsSys) (thread : Nat) (fd : Int) (op : File → Option (VfsSys × Int)) :
    Option (VfsSys × Int) :=
  s.onFile thread fd op

def write (s : VfsSys) (thread : Nat) (fd : Int) (op : File → Option (VfsSys × Int)) :
    Option (VfsSys × Int) :=
  s.onFile thread fd op

def readdir (s : VfsSys) (thread : Nat) (fd : Int) (op : File → Option (VfsSys × Int)) :
    Option (VfsSys × Int) :=
  s.onFile thread fd op

/-! ## An `open` that fails -/

/-- The table of the thread and all counters are as before. -/
structure Undisturbed (s s' : VfsSys) (thread : Nat) : Prop where
  files : (s'.tables thread).files = (s.tables thread).files
  fdset : (s'.tables thread).fdset = (s.tables thread).fdset
  lastFd : (s'.tables thread).lastFd = (s.tables thread).lastFd
  dRefcnt : ∀ d < s.vfs.fs.ndents, (s'.vfs.fs.dents d).dRefcnt = (s.vfs.fs.dents d).dRefcnt
  iRefcnt : ∀ i < s.vfs.fs.ninodes, (s'.vfs.fs.inodes i).iRefcnt = (s.vfs.fs.inodes i).iRefcnt

/-- The call fails before it asks for a descriptor: the path is missing, or the device,
or there is no memory for the file. -/
def FailsEarly (s : VfsSys) (devices : List Nat) (memory : Bool) (name : List UInt8)
    (flags : Nat) : Prop :=
  match s.vfs.lookupPath name with
  | some (vfs, some dent) =>
    (((vfs.fs.inodeOf dent).iDev ≠ NODEV ∧ flags &&& O_FORCE = 0) ∧
      (vfs.fs.inodeOf dent).iDev ∉ devices) ∨ memory = false
  | _ => True

theorem undisturbed_of_grows {s : VfsSys} {vfs : VfsState} (h : s.vfs.Grows vfs) (thread : Nat) :
    s.Undisturbed ⟨vfs, s.tables⟩ thread where
  files := rfl
  fdset := rfl
  lastFd := rfl
  dRefcnt := by
    intro d hd
    rw [h.dents d hd]
  iRefcnt := by
    intro i hi
    obtain ⟨new, -, heq⟩ := h.inodes i hi
    rw [heq]

theorem fileOpen_files (t : FdTable) (inode : Nat) :
    ∃ file, (t.fileOpen (.ok inode)).1.files = file :: t.files ∧
      t.lastFd ≤ (t.fileOpen (.ok inode)).1.lastFd := by
  obtain ⟨heq, -⟩ | ⟨fd, -, -, -, -, hfiles, hle⟩ := allocFd_cases t
  · unfold FdTable.fileOpen
    rw [heq]
    exact ⟨_, rfl, le_rfl⟩
  · exact ⟨⟨t.allocFd.1.made, t.allocFd.2, inode⟩, congrArg (List.cons _) hfiles, hle⟩

theorem fileOpen_neg {t : FdTable} {inode : Nat} (h : (t.fileOpen (.ok inode)).2 < 0) :
    (t.fileOpen (.ok inode)).2 = -EBADF := by
  obtain ⟨heq, -⟩ | ⟨fd, hfd, -⟩ := allocFd_cases t
  · exact congrArg Prod.snd heq
  · have hneg : t.allocFd.2 < 0 := h
    omega

/-- A failed `open` without `O_CREAT` changes nothing exactly when it fails before it asks
for a descriptor; else it fails for want of one. -/
theorem open_failed_iff (s s' : VfsSys) (devices : List Nat) (memory : Bool) (thread : Nat)
    (name : List UInt8) (flags mode : Nat) (r : Int) (hflags : flags &&& O_CREAT = 0)
    (hopen : s.fileOpen devices memory thread name flags mode = some (s', r)) (hr : r < 0) :
    (s.Undisturbed s' thread ↔ s.FailsEarly devices memory name flags) ∧
      (s.FailsEarly devices memory name flags ∨ r = -EBADF) := by
  have hnot : ¬flags &&& O_CREAT ≠ 0 := fun h => h hflags
  unfold fileOpen at hopen
  rw [if_neg hnot, Option.bind_some] at hopen
  unfold FailsEarly
  cases hlookup : s.vfs.lookupPath name with
  | none => simp [hlookup] at hopen
  | some found =>
    obtain ⟨vfs, dent⟩ := found
    have hgrows := undisturbed_of_grows (s := s) (VfsState.lookupPath_grows hlookup) thread
    rw [hlookup] at hopen
    cases dent with
    | none =>
      cases hopen
      exact ⟨iff_of_true hgrows trivial, .inl trivial⟩
    | some dent =>
      dsimp only at hopen ⊢
      split at hopen
      case isTrue hdev =>
        cases hopen
        exact ⟨iff_of_true hgrows (.inl hdev), .inl (.inl hdev)⟩
      case isFalse hdev =>
        split at hopen
        case isTrue hmemory =>
          cases hopen
          exact ⟨iff_of_true hgrows (.inr hmemory), .inl (.inr hmemory)⟩
        case isFalse hmemory =>
          cases hopen
          refine ⟨iff_of_false (fun h => ?_) (not_or.mpr ⟨hdev, hmemory⟩), .inr (fileOpen_neg hr)⟩
          -- the file is one more in the list
          obtain ⟨file, hfiles, -⟩ := fileOpen_files (s.tables thread) (vfs.fs.dents dent).dInode
          have hsame := h.files
          dsimp only at hsame
          rw [update_self, hfiles] at hsame
          exact List.cons_ne_self file _ hsame

/-- The state after `fs_init`, with threads that have opened nothing. -/
def bootSys : VfsSys := ⟨VfsState.bootVfs, fun _ => FdTable.threadCreate (fun _ => 0)⟩

/-- The string `"dev"`. -/
def DEV : List UInt8 := [0x64, 0x65, 0x76]

theorem open_failed_missing : ∃ s',
    bootSys.fileOpen [] true 0 [0x78] 0 0 = some (s', -ENOENT) ∧ bootSys.Undisturbed s' 0 := by
  have hopen : bootSys.fileOpen [] true 0 [0x78] 0 0 = some (bootSys, -ENOENT) := by
    with_unfolding_all rfl
  refine ⟨bootSys, hopen, ?_⟩
  refine (open_failed_iff bootSys bootSys [] true 0 [0x78] 0 0 _ (by decide) hopen
    (by decide)).1.mpr ?_
  show bootSys.FailsEarly [] true [0x78] 0
  trivial

/-- A table with all its descriptors in use, and one bit more that is set. -/
def fullTable : FdTable where
  fdset := fun _ => WORD_RANGE - 1
  lastFd := FS_MAX_FDS
  files := (List.range FS_MAX_FDS).reverse.map (fun fd => ⟨fd, fd, 0⟩)
  made := FS_MAX_FDS
  live := (List.range FS_MAX_FDS).reverse.map (fun fd => ⟨fd, fd, 0⟩)

/-- The state after `fs_init`, with no descriptor left. -/
def fullSys : VfsSys := ⟨VfsState.bootVfs, fun _ => fullTable⟩

/-- Without a descriptor `open` returns an error, but the file is in the list and the
entry and the inode are counted. -/
theorem open_failed_no_fd : ∃ s', fullSys.fileOpen [] true 0 DEV 0 0 = some (s', -EBADF) ∧
    (s'.tables 0).files.length = FS_MAX_FDS + 1 ∧
    (fullSys.vfs.fs.dents 1).dRefcnt = 1 ∧ (s'.vfs.fs.dents 1).dRefcnt = 2 ∧
    (fullSys.vfs.fs.inodes 1).iRefcnt = 1 ∧ (s'.vfs.fs.inodes 1).iRefcnt = 2 ∧
    ¬fullSys.Undisturbed s' 0 := by
  have hopen : (fullSys.fileOpen [] true 0 DEV 0 0).map (fun r => (r.2,
      (r.1.tables 0).files.length, (r.1.vfs.fs.dents 1).dRefcnt, (r.1.vfs.fs.inodes 1).iRefcnt)) =
      some (-EBADF, FS_MAX_FDS + 1, 2, 2) := by decide +kernel
  obtain ⟨⟨s', r⟩, hs', heq⟩ := Option.map_eq_some_iff.mp hopen
  simp only [Prod.mk.injEq] at heq
  obtain ⟨rfl, hlen, hdent, hinode⟩ := heq
  have hold : (fullSys.vfs.fs.dents 1).dRefcnt = 1 := by decide +kernel
  refine ⟨s', hs', hlen, hold, hdent, by decide +kernel, hinode, fun h => ?_⟩
  have hsame := h.dRefcnt 1 (by decide +kernel)
  omega

/-! ## A descriptor that was closed -/

/-- `fd2file` does not find the descriptor, and every call with it is refused and leaves
the state as it is. -/
structure Dead (s : VfsSys) (thread : Nat) (fd : Int) : Prop where
  fd2file : (s.tables thread).fd2file fd = none
  read : ∀ op, s.read thread fd op = some (s, -EBADF)
  write : ∀ op, s.write thread fd op = some (s, -EBADF)
  readdir : ∀ op, s.readdir thread fd op = some (s, -EBADF)
  close : s.fileClose thread fd = some (s, -EBADF)

end VfsSys

/-- The files, with the descriptors that were closed and that no later `open` returned. -/
structure ClosedFds where
  sys : VfsSys
  closed : List (Nat × Int)

inductive FdUse where
  | openFile (devices : List Nat) (memory : Bool) (thread : Nat) (name : List UInt8)
      (flags mode : Nat)
  | close (thread : Nat) (fd : Int)

def ClosedFds.call (s : ClosedFds) : FdUse → Option ClosedFds
  | .openFile devices memory thread name flags mode =>
    (s.sys.fileOpen devices memory thread name flags mode).map (fun r =>
      ⟨r.1, s.closed.filter (· ≠ (thread, r.2))⟩)
  | .close thread fd =>
    (s.sys.fileClose thread fd).map (fun r =>
      ⟨r.1, if r.2 < 0 then s.closed else (thread, fd) :: s.closed⟩)

def FdTable.Alive (t : FdTable) (fd : Int) : Prop := (t.fd2file fd).isSome

theorem FdTable.Alive.mono {t t' : FdTable} {fd : Int} (h : t.Alive fd)
    (hlast : t.lastFd ≤ t'.lastFd) (hfiles : ∃ new, t'.files = new ++ t.files) : t'.Alive fd := by
  obtain ⟨new, hnew⟩ := hfiles
  unfold FdTable.Alive FdTable.fd2file at h ⊢
  split at h
  · cases h
  · rw [if_neg (by omega), hnew, List.find?_append, Option.isSome_or, h, Bool.or_true]

theorem FdTable.fileClose_files (t : FdTable) (fd : Nat) :
    (t.fileClose fd).1.lastFd = t.lastFd ∧ (t.fileClose fd).1.files = t.files := by
  unfold FdTable.fileClose
  split <;> exact ⟨rfl, rfl⟩

namespace VfsSys

theorem fileOpen_tables {s s' : VfsSys} {devices : List Nat} {memory : Bool} {thread : Nat}
    {name : List UInt8} {flags mode : Nat} {r : Int}
    (h : s.fileOpen devices memory thread name flags mode = some (s', r)) (i : Nat) :
    (s.tables i).lastFd ≤ (s'.tables i).lastFd ∧
      ∃ new, (s'.tables i).files = new ++ (s.tables i).files := by
  unfold fileOpen at h
  dsimp only at h
  obtain ⟨vfs, -, h⟩ := Option.bind_eq_some_iff.mp h
  split at h
  · cases h
  · cases h
    exact ⟨le_rfl, [], rfl⟩
  · split at h
    · cases h
      exact ⟨le_rfl, [], rfl⟩
    · split at h
      · cases h
        exact ⟨le_rfl, [], rfl⟩
      · cases h
        dsimp only
        rw [update_apply]
        split
        case isTrue heq =>
          subst heq
          obtain ⟨file, hfiles, hle⟩ := fileOpen_files (s.tables i) _
          exact ⟨hle, [file], hfiles⟩
        case isFalse => exact ⟨le_rfl, [], rfl⟩

theorem fileClose_tables {s s' : VfsSys} {thread : Nat} {fd r : Int}
    (h : s.fileClose thread fd = some (s', r)) : (∀ i, (s'.tables i).lastFd = (s.tables i).lastFd ∧
        (s'.tables i).files = (s.tables i).files) ∧
      (¬r < 0 → (s.tables thread).Alive fd) := by
  unfold fileClose at h
  cases hfile : (s.tables thread).fd2file fd with
  | none =>
    rw [hfile] at h
    cases h
    exact ⟨fun i => ⟨rfl, rfl⟩, fun hr => absurd (by decide) hr⟩
  | some file =>
    rw [hfile] at h
    refine ⟨?_, fun _ => by rw [FdTable.Alive, hfile]; rfl⟩
    obtain ⟨vfs, -, h⟩ := Option.bind_eq_some_iff.mp h
    cases fd with
    | negSucc n => cases h
    | ofNat fd =>
      cases h
      intro i
      show ((Function.update s.tables thread ((s.tables thread).fileClose fd).1) i).lastFd = _ ∧
        ((Function.update s.tables thread ((s.tables thread).fileClose fd).1) i).files = _
      rw [update_apply]
      split
      case isTrue heq =>
        subst heq
        exact FdTable.fileClose_files _ fd
      case isFalse => exact ⟨rfl, rfl⟩

end VfsSys

namespace ClosedFds

/-- The files of the descriptors that were closed are all found. -/
def Inv (s : ClosedFds) : Prop := ∀ x ∈ s.closed, (s.sys.tables x.1).Alive x.2

theorem Inv.call {s s' : ClosedFds} {use : FdUse} (hs : s.Inv) (h : s.call use = some s') :
    s'.Inv := by
  intro x hx
  cases use with
  | openFile devices memory thread name flags mode =>
    obtain ⟨⟨sys, r⟩, hopen, rfl⟩ := Option.map_eq_some_iff.mp h
    obtain ⟨hlast, hfiles⟩ := VfsSys.fileOpen_tables hopen x.1
    exact (hs x (List.mem_filter.mp hx).1).mono hlast hfiles
  | close thread fd =>
    obtain ⟨⟨sys, r⟩, hclose, rfl⟩ := Option.map_eq_some_iff.mp h
    obtain ⟨htables, halive⟩ := VfsSys.fileClose_tables hclose
    have hmono : (s.sys.tables x.1).Alive x.2 → (sys.tables x.1).Alive x.2 := fun hx =>
      hx.mono (htables x.1).1.ge ⟨[], (htables x.1).2⟩
    split at hx
    · exact hmono (hs x hx)
    case isFalse hr =>
      obtain rfl | hx := List.mem_cons.mp hx
      · exact hmono (halive hr)
      · exact hmono (hs x hx)

/-- At every later moment the file of a closed descriptor is found. -/
theorem closed_alive {start s : ClosedFds} {uses : List FdUse} (hstart : start.closed = [])
    (hrun : run ClosedFds.call start uses = some s) : s.Inv := by
  refine run_invariant Inv (fun s use s' hs h => hs.call h) ?_ hrun
  intro x hx
  rw [hstart] at hx
  cases hx

/-- After any calls of `open` and `close`, no descriptor that is closed is refused; so the
closed ones are all refused exactly when there is none. -/
theorem closed_dead_iff (start s : ClosedFds) (uses : List FdUse) (hstart : start.closed = [])
    (hrun : run ClosedFds.call start uses = some s) :
    (∀ x ∈ s.closed, ¬s.sys.Dead x.1 x.2) ∧
      ((∀ x ∈ s.closed, s.sys.Dead x.1 x.2) ↔ s.closed = []) := by
  have hnot : ∀ x ∈ s.closed, ¬s.sys.Dead x.1 x.2 := by
    intro x hx hdead
    have halive := closed_alive hstart hrun x hx
    unfold FdTable.Alive at halive
    rw [hdead.fd2file] at halive
    cases halive
  refine ⟨hnot, fun hdead => ?_, fun hnil x hx => ?_⟩
  · exact List.eq_nil_iff_forall_not_mem.mpr (fun x hx => hnot x hx (hdead x hx))
  · rw [hnil] at hx
    cases hx

/-- A call of the first thread that opens `/dev`. -/
def openDev : FdUse := .openFile [] true 0 VfsSys.DEV 0 0

/-- A descriptor is closed while another one is open, and is not refused. -/
theorem closed_dead_once : ∃ s,
    run ClosedFds.call ⟨VfsSys.bootSys, []⟩ [openDev, openDev, .close 0 1] = some s ∧
      s.closed = [(0, 1)] ∧ ¬s.sys.Dead 0 1 := by
  have hrun : (run ClosedFds.call ⟨VfsSys.bootSys, []⟩ [openDev, openDev, .close 0 1]).map
      (·.closed) = some [(0, 1)] := by decide +kernel
  obtain ⟨s, hs, hclosed⟩ := Option.map_eq_some_iff.mp hrun
  refine ⟨s, hs, hclosed, (closed_dead_iff _ s _ rfl hs).1 (0, 1) ?_⟩
  rw [hclosed]
  exact List.mem_singleton_self _

/-- Two descriptors of one directory, and the first is closed: it is closed once more, and
the count that was the other's is dropped. -/
theorem closed_twice : ∃ s,
    run ClosedFds.call ⟨VfsSys.bootSys, []⟩ [openDev, openDev, .close 0 0] = some s ∧
      s.closed = [(0, 0)] ∧ (s.sys.vfs.fs.inodes 1).iRefcnt = 2 ∧
      (s.sys.fileClose 0 0).map (fun r => (r.2, (r.1.vfs.fs.inodes 1).iRefcnt)) = some (0, 1) ∧
      ¬s.sys.Dead 0 0 := by
  have hrun : (run ClosedFds.call ⟨VfsSys.bootSys, []⟩ [openDev, openDev, .close 0 0]).map
      (fun s => (s.closed, (s.sys.vfs.fs.inodes 1).iRefcnt,
        (s.sys.fileClose 0 0).map (fun r => (r.2, (r.1.vfs.fs.inodes 1).iRefcnt)))) =
      some ([(0, 0)], 2, some (0, 1)) := by decide +kernel
  obtain ⟨s, hs, heq⟩ := Option.map_eq_some_iff.mp hrun
  simp only [Prod.mk.injEq] at heq
  obtain ⟨hclosed, hcount, hclose⟩ := heq
  refine ⟨s, hs, hclosed, hcount, hclose, fun hdead => ?_⟩
  rw [hdead.close] at hclose
  have hret : -EBADF = 0 := congrArg Prod.fst (Option.some.inj hclose)
  exact absurd hret (by decide)

end ClosedFds

end Koowaldah
