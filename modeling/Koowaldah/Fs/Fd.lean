import Koowaldah.Arch
import Koowaldah.Bitmap
import Koowaldah.Lib.Run

/-!
# File descriptors

A model of the descriptor table of a thread: `alloc_fd`, `free_fd`, `fd2file`
and the descriptor part of `open` and `close` of `kernel/fs/file.c`, and of
`mpipe_open` of `kernel/fs/mpipe.c`.

The table has three parts: the bitmap `fdset`, the mark `last_fd`, and the list
`files`, in which the newest file is first and from which no file is ever taken.
`open` goes through all three.  `mpipe_open` takes the descriptor `last_fd`, and
does not set its bit.

What `lookup_path`, `get_device`, `new_file` and the other allocations answer is
an input of the calls: an error, or the inode of the file.  `serial` and `live`
are there for the statements only: the number of the call that made a file, and
the files that were opened and not closed.

`fds_unique_iff` says when descriptors are unique: while no call of `open` finds
the bit of an open pipe as the lowest one that is clear, and no call of
`mpipe_open` finds `last_fd` in use.
-/

namespace Koowaldah

open SysLib

def FS_MAX_FDS : Nat := 256

structure File where
  serial : Nat
  fFd : Int
  fInode : Nat
deriving DecidableEq, Repr

structure FdTable where
  fdset : Words
  lastFd : Nat
  files : List File
  made : Nat
  live : List File

namespace FdTable

/-- The table that `thread_create` makes.  `mem` is what was in memory before. -/
def threadCreate (mem : Words) : FdTable where
  fdset := bitmapZero mem 0 FS_MAX_FDS
  lastFd := 0
  files := []
  made := 0
  live := []

def allocFd (t : FdTable) : FdTable × Int :=
  match bitmapSeekUnset t.fdset 0 (t.lastFd + 1) with
  | none => (t, -EBADF)
  | some fd =>
    let t := if fd = t.lastFd ∧ t.lastFd < FS_MAX_FDS then { t with lastFd := t.lastFd + 1 } else t
    ({ t with fdset := bitmapBitSet t.fdset 0 fd }, fd)

def freeFd (fd : Nat) (t : FdTable) : FdTable :=
  { t with fdset := bitmapBitClear t.fdset 0 fd }

def fd2file (t : FdTable) (fd : Int) : Option File :=
  if fd > t.lastFd then none else t.files.find? (fun file => file.fFd = fd)

/-- A new file is put at the head of `files`. -/
def addFile (fd : Int) (inode : Nat) (t : FdTable) : FdTable :=
  let file : File := ⟨t.made, fd, inode⟩
  { t with
    files := file :: t.files
    made := t.made + 1
    live := if fd < 0 then t.live else file :: t.live }

/-- `open`. -/
def fileOpen (found : Except Int Nat) (t : FdTable) : FdTable × Int :=
  match found with
  | .error e => (t, e)
  | .ok inode =>
    let (t, fd) := t.allocFd
    (t.addFile fd inode, fd)

def mpipeOpen (found : Except Int Nat) (t : FdTable) : FdTable × Int :=
  match found with
  | .error e => (t, e)
  | .ok inode =>
    let fd := t.lastFd
    (({ t with lastFd := t.lastFd + 1 } : FdTable).addFile fd inode, fd)

/-- `close`.  Every file operation `close` returns 0. -/
def fileClose (fd : Nat) (t : FdTable) : FdTable × Int :=
  match t.fd2file fd with
  | none => (t, -EBADF)
  | some file => ({ t.freeFd fd with live := t.live.erase file }, 0)

end FdTable

inductive FdCall where
  | openFile (found : Except Int Nat)
  | openPipe (found : Except Int Nat)
  | close (fd : Nat)

/-- One call.  Only descriptors that are open are closed. -/
def FdTable.call (t : FdTable) : FdCall → Option FdTable
  | .openFile found => some (t.fileOpen found).1
  | .openPipe found => some (t.mpipeOpen found).1
  | .close fd => if t.live.any (fun file => file.fFd = fd) then some (t.fileClose fd).1 else none

/-- No two open files have the same descriptor, and `fd2file` finds every open
file under its own. -/
def FdTable.FdsUnique (t : FdTable) : Prop :=
  (t.live.map File.fFd).Nodup ∧ ∀ file ∈ t.live, t.fd2file file.fFd = some file

/-- A descriptor is the lowest bit of `fdset` that is clear. -/
def FdTable.LowestClear (t : FdTable) (fd : Nat) : Prop :=
  bitAt t.fdset 0 fd = false ∧ ∀ b, b < fd → bitAt t.fdset 0 b = true

/-- A call that finds no descriptor in use that it takes for a free one. -/
def FdTable.Free (t : FdTable) : FdCall → Prop
  | .openFile (.ok _) => ∀ file ∈ t.live, ∀ fd : Nat, file.fFd = fd → ¬t.LowestClear fd
  | .openPipe (.ok _) => ∀ file ∈ t.live, file.fFd ≠ t.lastFd
  | _ => True

/-! ## The invariant -/

/-- The open files: their descriptors are distinct and not above `last_fd`, and
the first file with such a descriptor is the open one. -/
structure FdInv (t : FdTable) : Prop where
  nodup : (t.live.map File.fFd).Nodup
  nonneg : ∀ file ∈ t.live, 0 ≤ file.fFd
  le : ∀ file ∈ t.live, file.fFd ≤ t.lastFd
  find : ∀ file ∈ t.live, t.files.find? (fun f => f.fFd = file.fFd) = some file

section Inv

variable {t t' : FdTable}

theorem FdInv.fd2file (hinv : FdInv t) {file : File} (hfile : file ∈ t.live) :
    t.fd2file file.fFd = some file := by
  unfold FdTable.fd2file
  rw [if_neg (not_lt.mpr (hinv.le file hfile)), hinv.find file hfile]

theorem FdInv.unique (hinv : FdInv t) : t.FdsUnique :=
  ⟨hinv.nodup, fun _ hfile => hinv.fd2file hfile⟩

theorem threadCreate_inv (mem : Words) : FdInv (FdTable.threadCreate mem) :=
  ⟨List.nodup_nil, nofun, nofun, nofun⟩

theorem addFile_live (t : FdTable) {fd : Int} (inode : Nat) (hfd : ¬fd < 0) :
    (t.addFile fd inode).live = ⟨t.made, fd, inode⟩ :: t.live := if_neg hfd

theorem FdInv.addFile (hinv : FdInv t) {fd : Int} {inode : Nat} (hle : fd ≤ t.lastFd)
    (hfresh : ∀ file ∈ t.live, file.fFd ≠ fd) : FdInv (t.addFile fd inode) := by
  -- the files that were open before are found as before
  have hfind : ∀ file ∈ t.live,
      (t.addFile fd inode).files.find? (fun f => f.fFd = file.fFd) = some file := by
    intro file hfile
    show List.find? _ (⟨t.made, fd, inode⟩ :: t.files) = some file
    rw [List.find?_cons_of_neg, hinv.find file hfile]
    rw [decide_eq_true_eq]
    exact fun h => hfresh file hfile h.symm
  by_cases hneg : fd < 0
  · have hlive : (t.addFile fd inode).live = t.live := if_pos hneg
    constructor
    · rw [hlive]
      exact hinv.nodup
    · rw [hlive]
      exact hinv.nonneg
    · rw [hlive]
      exact hinv.le
    · rw [hlive]
      exact hfind
  · have hlive := addFile_live t inode hneg
    constructor
    · rw [hlive, List.map_cons, List.nodup_cons]
      refine ⟨?_, hinv.nodup⟩
      intro hmem
      rcases List.mem_map.mp hmem with ⟨file, hfile, heq⟩
      exact hfresh file hfile heq
    · rw [hlive, List.forall_mem_cons]
      exact ⟨not_lt.mp hneg, hinv.nonneg⟩
    · rw [hlive, List.forall_mem_cons]
      exact ⟨hle, hinv.le⟩
    · rw [hlive, List.forall_mem_cons]
      refine ⟨?_, hfind⟩
      show List.find? _ (⟨t.made, fd, inode⟩ :: t.files) = _
      rw [List.find?_cons_of_pos]
      exact decide_eq_true rfl

theorem not_unique_addFile {fd : Nat} {inode : Nat} {file : File} (hfile : file ∈ t.live)
    (hfd : file.fFd = fd) : ¬(t.addFile fd inode).FdsUnique := by
  intro hunique
  have hneg : ¬(fd : Int) < 0 := not_lt.mpr (Int.natCast_nonneg fd)
  have hlive := addFile_live t inode hneg
  have hnodup := hunique.1
  rw [hlive, List.map_cons, List.nodup_cons] at hnodup
  exact hnodup.1 (List.mem_map.mpr ⟨file, hfile, hfd⟩)

theorem allocFd_cases (t : FdTable) :
    t.allocFd = (t, -EBADF) ∧ (∀ b, b ≤ t.lastFd → bitAt t.fdset 0 b = true) ∨
      ∃ fd : Nat, t.allocFd.2 = fd ∧ fd ≤ t.lastFd ∧ t.LowestClear fd ∧
        t.allocFd.1.live = t.live ∧ t.allocFd.1.files = t.files ∧
        t.lastFd ≤ t.allocFd.1.lastFd := by
  unfold FdTable.allocFd
  cases hseek : bitmapSeekUnset t.fdset 0 (t.lastFd + 1) with
  | none =>
    left
    exact ⟨rfl, fun b hb => bitmapSeekUnset_none hseek b (Nat.lt_succ_of_le hb)⟩
  | some fd =>
    right
    rcases bitmapSeekUnset_some hseek with ⟨hlt, hclear, hbelow⟩
    refine ⟨fd, rfl, Nat.le_of_lt_succ hlt, ⟨hclear, hbelow⟩, ?_⟩
    dsimp only
    split
    · exact ⟨rfl, rfl, Nat.le_succ _⟩
    · exact ⟨rfl, rfl, le_rfl⟩

theorem FdInv.of_le (hinv : FdInv t) (hlive : t'.live = t.live) (hfiles : t'.files = t.files)
    (hle : t.lastFd ≤ t'.lastFd) : FdInv t' := by
  constructor
  · rw [hlive]
    exact hinv.nodup
  · rw [hlive]
    exact hinv.nonneg
  · rw [hlive]
    intro file hfile
    exact (hinv.le file hfile).trans (Int.ofNat_le.mpr hle)
  · rw [hlive, hfiles]
    exact hinv.find

theorem lowestClear_unique {a b : Nat} (ha : t.LowestClear a) (hb : t.LowestClear b) : a = b := by
  rcases Nat.lt_trichotomy a b with h | h | h
  · have hset := hb.2 a h
    rw [ha.1] at hset
    cases hset
  · exact h
  · have hset := ha.2 b h
    rw [hb.1] at hset
    cases hset

/-- `open` keeps descriptors unique if and only if the lowest clear bit is not the
descriptor of an open file. -/
theorem FdInv.fileOpen (hinv : FdInv t) (found : Except Int Nat) :
    (t.Free (.openFile found) → FdInv (t.fileOpen found).1) ∧
      ((t.fileOpen found).1.FdsUnique → t.Free (.openFile found)) := by
  cases found with
  | error e => exact ⟨fun _ => hinv, fun _ => trivial⟩
  | ok inode =>
    have hopen : (t.fileOpen (.ok inode)).1 = t.allocFd.1.addFile t.allocFd.2 inode := rfl
    rw [hopen]
    rcases allocFd_cases t with ⟨hfail, hset⟩ | ⟨fd, hfd, hle, hlow, hlive, hfiles, hlast⟩
    · rw [hfail]
      constructor
      · intro _
        refine hinv.addFile (by unfold EBADF; omega) ?_
        intro file hfile
        have hnonneg := hinv.nonneg file hfile
        unfold EBADF
        omega
      · intro _ file hfile b hb hlow
        have hle := hinv.le file hfile
        rw [hb, Int.ofNat_le] at hle
        have hclear := hlow.1
        rw [hset b hle] at hclear
        cases hclear
    · have hinv' : FdInv t.allocFd.1 := hinv.of_le hlive hfiles hlast
      rw [hfd]
      constructor
      · intro hfree
        refine hinv'.addFile (Int.ofNat_le.mpr (hle.trans hlast)) ?_
        intro file hfile heq
        rw [hlive] at hfile
        exact hfree file hfile fd heq hlow
      · intro hunique file hfile b hb hlow'
        rw [lowestClear_unique hlow' hlow] at hb
        rw [← hlive] at hfile
        exact not_unique_addFile hfile hb hunique

/-- `mpipe_open` keeps descriptors unique if and only if `last_fd` is not the
descriptor of an open file. -/
theorem FdInv.mpipeOpen (hinv : FdInv t) (found : Except Int Nat) :
    (t.Free (.openPipe found) → FdInv (t.mpipeOpen found).1) ∧
      ((t.mpipeOpen found).1.FdsUnique → t.Free (.openPipe found)) := by
  cases found with
  | error e => exact ⟨fun _ => hinv, fun _ => trivial⟩
  | ok inode =>
    have hinv' : FdInv { t with lastFd := t.lastFd + 1 } := hinv.of_le rfl rfl (Nat.le_succ _)
    constructor
    · intro hfree
      exact hinv'.addFile (Int.ofNat_le.mpr (Nat.le_succ _)) hfree
    · intro hunique file hfile heq
      exact not_unique_addFile (t := { t with lastFd := t.lastFd + 1 }) hfile heq hunique

theorem FdInv.fileClose (hinv : FdInv t) {fd : Nat} {file : File} (hfile : file ∈ t.live)
    (hfd : file.fFd = fd) : FdInv (t.fileClose fd).1 := by
  have hclose : (t.fileClose fd).1 = { t.freeFd fd with live := t.live.erase file } := by
    unfold FdTable.fileClose
    rw [← hfd, hinv.fd2file hfile]
  rw [hclose]
  have hsub : (t.live.erase file).Sublist t.live := List.erase_sublist
  constructor
  · exact hinv.nodup.sublist (hsub.map File.fFd)
  · exact fun f hf => hinv.nonneg f (hsub.subset hf)
  · exact fun f hf => hinv.le f (hsub.subset hf)
  · exact fun f hf => hinv.find f (hsub.subset hf)

/-- A call keeps descriptors unique if and only if it finds no descriptor in use
that it takes for a free one. -/
theorem FdInv.call (hinv : FdInv t) {c : FdCall} (hcall : t.call c = some t') :
    (t.Free c → FdInv t') ∧ (t'.FdsUnique → t.Free c) := by
  cases c with
  | openFile found =>
    cases hcall
    exact hinv.fileOpen found
  | openPipe found =>
    cases hcall
    exact hinv.mpipeOpen found
  | close fd =>
    refine ⟨fun _ => ?_, fun _ => trivial⟩
    change (if t.live.any (fun file => file.fFd = fd) then some (t.fileClose fd).1 else none) =
      some t' at hcall
    split at hcall
    · rename_i hopen
      rcases List.any_eq_true.mp hopen with ⟨file, hfile, hfd⟩
      cases hcall
      exact hinv.fileClose hfile (of_decide_eq_true hfd)
    · cases hcall

theorem free_of_call_none {c : FdCall} (hcall : t.call c = none) : t.Free c := by
  cases c with
  | openFile found => exact nomatch hcall
  | openPipe found => exact nomatch hcall
  | close fd => trivial

theorem FdInv.call_iff (hinv : FdInv t) (c : FdCall) :
    (∀ t', t.call c = some t' → t'.FdsUnique) ↔ t.Free c := by
  constructor
  · intro hunique
    cases hcall : t.call c with
    | none => exact free_of_call_none hcall
    | some t' => exact (hinv.call hcall).2 (hunique t' hcall)
  · intro hfree t' hcall
    exact ((hinv.call hcall).1 hfree).unique

end Inv

/-! ## Uniqueness -/

/-- When file descriptors are unique.  In every sequence of calls of a thread,
from the table that `thread_create` makes on, no two open files have the same
descriptor and `fd2file` finds every open file under its own, after every call,
if and only if no call of `open` finds the descriptor of an open file as the
lowest clear bit of `fdset`, and no call of `mpipe_open` finds `last_fd` in
use. -/
theorem fds_unique_iff (mem : Words) (calls : List FdCall) :
    Meets FdTable.call (fun t c => ∀ t', t.call c = some t' → t'.FdsUnique)
        (FdTable.threadCreate mem) calls ↔
      Meets FdTable.call FdTable.Free (FdTable.threadCreate mem) calls := by
  refine meets_congr FdInv (fun t c hinv => hinv.call_iff c) ?_ (threadCreate_inv mem)
  intro t c t' hinv hfree hcall
  exact (hinv.call hcall).1 hfree

theorem open_after_mpipeOpen : ∃ t, run FdTable.call (FdTable.threadCreate (fun _ => 0#32))
        [.openPipe (.ok 7), .openFile (.ok 8)] = some t ∧
      t.live = [⟨1, 0, 8⟩, ⟨0, 0, 7⟩] ∧ ¬t.FdsUnique := by
  have hlive : (run FdTable.call (FdTable.threadCreate (fun _ => 0#32))
      [.openPipe (.ok 7), .openFile (.ok 8)]).map (fun t => t.live) =
        some [⟨1, 0, 8⟩, ⟨0, 0, 7⟩] := by
    decide +kernel
  rcases Option.map_eq_some_iff.mp hlive with ⟨t, ht, heq⟩
  refine ⟨t, ht, heq, fun hunique => ?_⟩
  have hnodup := hunique.1
  rw [heq] at hnodup
  exact absurd hnodup (by decide)

end Koowaldah
