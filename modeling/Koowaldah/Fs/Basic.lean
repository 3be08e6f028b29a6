import Koowaldah.Klib
import Koowaldah.PageAlloc.Runs

/-!
# Files of the root file system

A model of `fs_stuff_inode` of `kernel/fs/fs.c`, and of `read` and
`generic_read` of `kernel/fs/file.c`, for an inode without a `read_page`
method, which is how `new_inode` makes them.

The file contents are in pages of the boot zone, in a flat memory: a copy that
starts in a page and runs over its end reads the page after it in memory, not
the next one of the file.  `generic_read` relies on neither of the two
conditions under which its copies are right; the model keeps what it does,
with its `size_t` arithmetic.

Of an inode the model has the page map, the size and whether it is a
character device.  The descriptor is looked up already.
-/

namespace Koowaldah

open SysLib SysLib.Dyadic

/-- `INODE_PAGES`: the length of `i_pages`. -/
def INODE_PAGES : Nat := 64

/-- `struct inode`.  `iPages` are the entries of `i_pages` that have been
filled. -/
structure Inode where
  iPages : List Nat
  iFilled : Nat
  iSize : Nat
  isChr : Bool

/-- The loop of `fs_stuff_inode`, with the rounds left to do.  `none` when it
writes past the end of `i_pages`, or when no page is left and `page_to_addr`
reads through `NULL`. -/
def stuffLoop : Nat → Zone → ByteMem → List Nat → Nat → Nat →
    Option (Zone × ByteMem × List Nat)
  | 0, z, mem, pages, _, _ => some (z, mem, pages)
  | n + 1, z, mem, pages, src, left =>
    if pages.length < INODE_PAGES then
      let (z, pg) := rawAllocPages z 0
      match pg with
      | none => none
      | some pg =>
        let mem := memoryCopy mem (pageToAddr z pg) src (min PAGE_SIZE left)
        stuffLoop n z mem (pages ++ [pg]) (src + PAGE_SIZE) (left - PAGE_SIZE)
    else none

/-- `fs_stuff_inode`: store `len` bytes from `src` in an inode. -/
def fsStuffInode (z : Zone) (mem : ByteMem) (isChr : Bool) (src len : Nat) :
    Option (Zone × ByteMem × Inode) :=
  (stuffLoop (len / PAGE_SIZE + 1) z mem [] src len).map (fun (z, mem, pages) =>
    (z, mem, ⟨pages, pages.length, len, isChr⟩))

/-- An open file, with the memory and the zone its pages are in. -/
structure FileState where
  zone : Zone
  mem : ByteMem
  inode : Inode
  fOffset : Nat

/-- The `do` loop of `generic_read`, with the rounds left to do.  `left` is a
`size_t` and wraps. -/
def readLoop (z : Zone) (pages : List Nat) :
    Nat → ByteMem → Nat → Nat → Nat → Nat → Option ByteMem
  | 0, mem, _, _, _, _ => some mem
  | n + 1, mem, r, dst, pgstartOff, left =>
    match pages[r]? with
    | none => none
    | some pg =>
      readLoop z pages n (memoryCopy mem dst (pageToAddr z pg + pgstartOff) (min PAGE_SIZE left))
        (r + 1) (dst + PAGE_SIZE) 0 ((left + WORD_RANGE - PAGE_SIZE) % WORD_RANGE)

/-- `generic_read`: the file afterwards and the value returned.  `none` is the
`bug ()` for pages that are not there, or a use of an entry of `i_pages` that
was never filled. -/
def FileState.genericRead (f : FileState) (buf len : Nat) : Option (FileState × Nat) :=
  let len :=
    if f.fOffset + len > f.inode.iSize then
      (f.inode.iSize + WORD_RANGE - f.fOffset % WORD_RANGE) % WORD_RANGE
    else len
  let npages := f.inode.iFilled
  let pgstart := f.fOffset / PAGE_SIZE
  let pgstartOff := f.fOffset % PAGE_SIZE
  let pgsize := len / PAGE_SIZE
  if pgstart + pgsize > npages then none
  else if pgsize = 0 then
    (f.inode.iPages[pgstart]?).map (fun pg =>
      ({ f with
          mem := memoryCopy f.mem buf (pageToAddr f.zone pg + pgstartOff) len
          fOffset := f.fOffset + len }, len))
  else
    -- the loop goes to the last page of the file, whatever `len` is
    (readLoop f.zone f.inode.iPages (max 1 (npages - pgstart)) f.mem pgstart buf pgstartOff
      len).map (fun mem => ({ f with mem := mem, fOffset := f.fOffset + len }, len))

/-- `read` on a file with the generic operations. -/
def FileState.read (f : FileState) (buf len : Nat) : Option (FileState × Nat) :=
  if f.fOffset = f.inode.iSize ∧ f.inode.isChr = false then some (f, 0)
  else f.genericRead buf len

/-! ## Runs -/

/-- An open file and the bytes its reads have delivered. -/
structure ReadSys where
  file : FileState
  delivered : List UInt8

inductive ReadCall where
  | read (buf len : Nat)
  | store (addr : Nat) (v : UInt8)
deriving DecidableEq, Repr

/-- The number of bytes a read is to deliver. -/
def FileState.due (f : FileState) (len : Nat) : Nat := min len (f.inode.iSize - f.fOffset)

/-- No byte of the range is in a page of the file. -/
def FileState.BufOk (f : FileState) (a n : Nat) : Prop :=
  n = 0 ∨ ∀ pg ∈ f.inode.iPages, ApartFrom f.zone ⟨0, pg⟩ a n

instance FileState.decidableBufOk (f : FileState) (a n : Nat) : Decidable (f.BufOk a n) :=
  inferInstanceAs (Decidable (_ ∨ _))

/-- One call.  A read is logged with as many bytes of its buffer as it
returns. -/
def ReadSys.call (s : ReadSys) : ReadCall → Option ReadSys
  | .read buf len =>
    if s.file.BufOk buf (s.file.due len) then
      (s.file.read buf len).map (fun (f, n) => ⟨f, s.delivered ++ readBytes f.mem buf n⟩)
    else none
  | .store addr v =>
    if s.file.BufOk addr 1 then
      some { s with file := { s.file with mem := Function.update s.file.mem addr v } }
    else none

/-- What keeps a read right: less than a page, all in one page of the file; or
a page and more, from the start of a page to the last page. -/
def FileState.ReadFits (f : FileState) (len : Nat) : Prop :=
  if f.due len < PAGE_SIZE then f.fOffset % PAGE_SIZE + f.due len ≤ PAGE_SIZE
  else f.fOffset % PAGE_SIZE = 0 ∧
    (f.inode.iSize - f.fOffset) / PAGE_SIZE = f.due len / PAGE_SIZE

/-- The condition on the calls of a run: every read fits. -/
def ReadSys.Fits (s : ReadSys) : ReadCall → Prop
  | .read _ len => s.file.ReadFits len
  | .store _ _ => True

end Koowaldah
