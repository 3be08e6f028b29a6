import Koowaldah.Arch
import Koowaldah.Bitmap

/-!
# Page tables

A model of `init_rootmap`, `clone_map`, `map_page` and `unmap_page` of
`arch/i386/paging.c` with the macros of `include/i386/pages.h`, and of what the
processor reads from the tables.

Physical memory is a function from word addresses to words.  A page directory and
the page tables are arrays of `PGD_ENTRIES` and `PGT_ENTRIES` words in it, and a
mapping is known by the address of its directory.  The addresses that `get_pages`
answered are arguments; what the pages held before is whatever memory holds.
-/

namespace Koowaldah

/-! ## Constants -/

def PAGE_MASK : BitVec 32 := 0xfff#32

def NOPAGE_MASK : BitVec 32 := 0xfffff000#32

def PGT_MASK : BitVec 32 := 0x003ff000#32

def PGD_ENTRIES : Nat := 1024

def PGT_ENTRIES : Nat := 1024

def PTF_PRESENT : BitVec 32 := 0x001#32

def PTF_RW : BitVec 32 := 0x002#32

def PTF_USER : BitVec 32 := 0x004#32

def PTF_GLOBAL : BitVec 32 := 0x100#32

/-! ## Entries -/

def PGDIDX (addr : BitVec 32) : Nat := (addr >>> 22).toNat

def PGTIDX (addr : BitVec 32) : Nat := ((addr &&& PGT_MASK) >>> 12).toNat

def PE_ADDR (pe : BitVec 32) : BitVec 32 := pe &&& 0xfffff000#32

def PTE_DESC (addr attrs : BitVec 32) : BitVec 32 := addr <<< PAGE_SHIFT ||| attrs

/-- An entry has `PTF_PRESENT` set. -/
def present (pe : BitVec 32) : Bool := pe &&& PTF_PRESENT ≠ 0

/-- The address has no offset in its page. -/
def PageAligned (addr : BitVec 32) : Prop := addr &&& PAGE_MASK = 0

instance (addr : BitVec 32) : Decidable (PageAligned addr) :=
  inferInstanceAs (Decidable (addr &&& PAGE_MASK = 0))

/-- The word of an entry of a table. -/
def slot (table : BitVec 32) (i : Nat) : Nat := table.toNat / 4 + i

/-- What the processor finds for a virtual page: the physical address of the page,
or `none` when it is not present. -/
def pageWalk (mem : Words) (pgdir virt : BitVec 32) : Option (BitVec 32) :=
  let pde := mem (slot pgdir (PGDIDX virt))
  if present pde then
    let pte := mem (slot (PE_ADDR pde) (PGTIDX virt))
    if present pte then some (PE_ADDR pte) else none
  else none

/-! ## Changing a mapping -/

def mapPage (pgdir virt phys : BitVec 32) (flags : BitVec 16) (mem : Words) : Words :=
  let pgtable := mem (slot pgdir (PGDIDX virt)) &&& NOPAGE_MASK
  let mem := setWord mem (slot pgdir (PGDIDX virt))
    (mem (slot pgdir (PGDIDX virt)) ||| PTF_PRESENT)
  setWord mem (slot pgtable (PGTIDX virt))
    (phys ||| PTF_PRESENT ||| PTF_USER ||| flags.setWidth 32)

def unmapPage (pgdir virt : BitVec 32) (mem : Words) : Words :=
  let pgtable := mem (slot pgdir (PGDIDX virt)) &&& NOPAGE_MASK
  setWord mem (slot pgtable (PGTIDX virt)) 0

/-! ## Making a mapping -/

/-- Store `n` entries of a table from the index `i` on. -/
def storeEntries (table : BitVec 32) (entry : Nat → BitVec 32) : Nat → Nat → Words → Words
  | _, 0, mem => mem
  | i, n + 1, mem => storeEntries table entry (i + 1) n (setWord mem (slot table i) (entry i))

/-- The number of page tables that `init_rootmap` fills. -/
def tablesz (physPgs : Nat) : Nat :=
  if physPgs % PGT_ENTRIES ≠ 0 then physPgs / PGT_ENTRIES + 1 else physPgs / PGT_ENTRIES

def initRootmap (physPgs : Nat) (pgdir pgtable : BitVec 32) (mem : Words) : Words :=
  -- the page tables, and the remainder of the last one
  let mem := storeEntries pgtable (fun i => PTE_DESC (BitVec.ofNat 32 i) (PTF_PRESENT ||| PTF_RW))
    0 physPgs mem
  let mem := storeEntries pgtable (fun _ => PTF_USER ||| PTF_RW)
    physPgs ((PGT_ENTRIES - physPgs % PGT_ENTRIES) % PGT_ENTRIES) mem
  -- the page directory
  let mem := storeEntries pgdir
    (fun i => (pgtable + BitVec.ofNat 32 (i * PAGE_SIZE)) ||| PTF_PRESENT ||| PTF_RW ||| PTF_GLOBAL)
    0 (tablesz physPgs) mem
  storeEntries pgdir (fun _ => PTF_USER ||| PTF_RW)
    (tablesz physPgs) (PGT_ENTRIES - tablesz physPgs) mem

/-- The inner loop of `clone_map`: copy `n` entries from the index `t` on. -/
def copyEntries (pgtable src : BitVec 32) : Nat → Nat → Words → Words
  | _, 0, mem => mem
  | t, n + 1, mem =>
    copyEntries pgtable src (t + 1) n (setWord mem (slot pgtable t) (mem (slot src t)))

/-- A round of the outer loop of `clone_map`. -/
def cloneEntry (dst map pgtable : BitVec 32) (d : Nat) (mem : Words) : Words :=
  let mem := setWord mem (slot dst d) (mem (slot map d) &&& PAGE_MASK)
  let mem := setWord mem (slot dst d) (mem (slot dst d) ||| pgtable)
  let src := mem (slot map d) &&& NOPAGE_MASK
  if present (mem (slot dst d)) then copyEntries pgtable src 0 PGT_ENTRIES mem else mem

/-- The outer loop of `clone_map`, with `n` rounds to go. -/
def cloneLoop (dst map : BitVec 32) : BitVec 32 → Nat → Nat → Words → Words
  | _, _, 0, mem => mem
  | pgtable, d, n + 1, mem =>
    cloneLoop dst map (pgtable + BitVec.ofNat 32 PAGE_SIZE) (d + 1) n
      (cloneEntry dst map pgtable d mem)

/-- `clone_map`: `dst` and `pgtable` are the new directory and the new tables. -/
def cloneMap (dst pgtable map : BitVec 32) (mem : Words) : Words :=
  cloneLoop dst map pgtable 0 PGD_ENTRIES mem

end Koowaldah
