import Koowaldah.Bitmap
import Koowaldah.PageAlloc.Runs

/-!
# The slice allocator

A model of `kernel/slice.c`.  A pool cuts pages of the boot zone into objects
of one size.  The last bytes of every page hold a bitmap with one bit an
object, and a page is on the active list while it has a clear bit and on the
inactive list otherwise.  The bitmap may reach into the last objects of the
page; those give way to it, and their bits are meant to stay set.

The lists hold `struct page` pointers, so page indices of the zone.  Slices
are addresses.  The memory is an array of words; only the bitmaps are read
from it.  The fields of `struct slice_pool` are kept as a record and not as
words of the page that holds it, and its `slice_list` and `flags`, which no
function below reads, are left out.
-/

namespace Koowaldah

open SysLib SysLib.Dyadic

/-- `struct slice_pool`, with the page that holds it. -/
structure SlicePool where
  page : Nat
  pagesActive : List Nat
  pagesInactive : List Nat
  objSize : Nat

/-- A pool, the zone it takes pages from, and the memory. -/
structure SliceHeap where
  zone : Zone
  mem : Words
  pool : SlicePool

def SlicePool.pages (p : SlicePool) : List Nat := p.pagesActive ++ p.pagesInactive

/-- The word index of the bitmap of a page: its last `BITMAP_SIZE (nobjs)`
bytes. -/
def bmask (z : Zone) (pg nobjs : Nat) : Nat :=
  (pageToAddr z pg + PAGE_SIZE - bitmapSize nobjs) / 4

/-- The objects of a page that do not give way to the bitmap. -/
def usableObjs (objSize : Nat) : Nat :=
  let nobjs := PAGE_SIZE / objSize
  let gap := PAGE_SIZE - nobjs * objSize
  if bitmapSize nobjs > gap then
    let consumedBytes := bitmapSize nobjs - gap
    nobjs - (consumedBytes / objSize + if consumedBytes % objSize ≠ 0 then 1 else 0)
  else nobjs

/-- `slice_pool_create`: `none` when the size is refused with `bug ()` or no
page is left for the pool. -/
def slicePoolCreate (z : Zone) (mem : Words) (objSize : Nat) : Option SliceHeap :=
  if objSize > PAGE_SIZE / 2 - 4 then none
  else
    let (z, pg) := rawAllocPages z 0
    pg.map (fun pg => ⟨z, mem, ⟨pg, [], [], objSize⟩⟩)

/-- `slice_alloc`: the new heap and the slice, if there was a page for it.
`none` is `bug_on (number == -1)`. -/
def sliceAlloc (h : SliceHeap) : Option (SliceHeap × Option Nat) :=
  let objSize := h.pool.objSize
  let nobjs := PAGE_SIZE / objSize
  match h.pool.pagesActive with
  | [] =>
    let (z, pg) := rawAllocPages h.zone 0
    match pg with
    | none => some ({ h with zone := z }, none)
    | some pg =>
      let bm := bmask z pg nobjs
      -- all the bits are set first, then the usable ones are cleared
      let mem := bitmapFill h.mem bm nobjs
      let mem := bitmapZero mem bm (usableObjs objSize)
      let mem := bitmapBitSet mem bm (usableObjs objSize - 1)
      some (⟨z, mem, { h.pool with pagesActive := [pg] }⟩,
        some (pageToAddr z pg + (usableObjs objSize - 1) * objSize))
  | pg :: rest =>
    let bm := bmask h.zone pg nobjs
    -- the search runs over all the bits, those of the lost objects included
    match bitmapSeekUnset h.mem bm nobjs with
    | none => none
    | some number =>
      let mem := bitmapBitSet h.mem bm number
      let pool :=
        if bitmapAllSet mem bm nobjs then
          { h.pool with pagesActive := rest, pagesInactive := pg :: h.pool.pagesInactive }
        else h.pool
      some (⟨h.zone, mem, pool⟩, some (pageToAddr h.zone pg + number * objSize))

/-- `slice_free`: `none` is the `bug ()` at its end, for a page that is on
neither list. -/
def sliceFree (h : SliceHeap) (slice : Nat) : Option SliceHeap :=
  let nobjs := PAGE_SIZE / h.pool.objSize
  let pgAddr := slice - slice % PAGE_SIZE
  let clear := fun pg =>
    bitmapBitClear h.mem (bmask h.zone pg nobjs) ((slice - pgAddr) / h.pool.objSize)
  match h.pool.pagesInactive.find? (fun pg => pageToAddr h.zone pg = pgAddr) with
  | some pg =>
    some ⟨h.zone, clear pg,
      { h.pool with
        pagesInactive := h.pool.pagesInactive.erase pg
        pagesActive := pg :: h.pool.pagesActive }⟩
  | none =>
    match h.pool.pagesActive.find? (fun pg => pageToAddr h.zone pg = pgAddr) with
    | some pg => some ⟨h.zone, clear pg, h.pool⟩
    | none => none

/-- The loop of `slice_pool_shrink` over the active pages. -/
def shrinkLoop : List Nat → SliceHeap → SliceHeap
  | [], h => h
  | pg :: rest, h =>
    let nobjs := PAGE_SIZE / h.pool.objSize
    if bitmapAllUnset h.mem (bmask h.zone pg nobjs) (usableObjs h.pool.objSize) then
      shrinkLoop rest
        { h with
          zone := freePages h.zone pg
          pool := { h.pool with pagesActive := h.pool.pagesActive.erase pg } }
    else shrinkLoop rest h

/-- `slice_pool_shrink`: give back the active pages that hold no slice. -/
def slicePoolShrink (h : SliceHeap) : SliceHeap := shrinkLoop h.pool.pagesActive h

/-- `slice_pool_recycle`: the zone after it.  `none` is a `bug ()`, for a pool that still has
pages, or the page of the pool not being found. -/
def slicePoolRecycle (h : SliceHeap) : Option Zone :=
  if h.pool.pagesInactive ≠ [] then none
  else
    let h := slicePoolShrink h
    if h.pool.pagesActive ≠ [] then none
    else putPages h.zone (pageToAddr h.zone h.pool.page)

/-! ## Runs -/

/-- A heap with the live slices and the piles that other users of the zone
hold. -/
structure SliceSys where
  heap : SliceHeap
  live : List Block
  slices : List Nat

/-- Every pile the zone has handed out: the page of the pool itself, the pages
on its lists and the piles of others. -/
def SliceSys.held (s : SliceSys) : List Block :=
  (s.heap.pool.page :: s.heap.pool.pages).map (Block.mk 0) ++ s.live

/-- The calls on the pool, and what else may happen between them: other users
of the zone take and give back piles, and stores go to live slices or to
memory that is not of the pool. -/
inductive SliceCall where
  | alloc
  | free (slice : Nat)
  | shrink
  | pageAlloc (order : Nat)
  | pageFree (pg : Nat)
  | store (addr : Nat) (v : BitVec 32)
deriving DecidableEq, Repr

def SliceSys.inSlice (s : SliceSys) (addr : Nat) : Bool :=
  s.slices.any (fun a => a ≤ addr && addr < a + s.heap.pool.objSize)

/-- The address lies in a page on a list of the pool. -/
def SliceSys.inPool (s : SliceSys) (addr : Nat) : Bool :=
  s.heap.pool.pages.any (fun pg =>
    pageToAddr s.heap.zone pg ≤ addr && addr < pageToAddr s.heap.zone pg + PAGE_SIZE)

/-- One call.  `none` when the call is not allowed or reaches `bug ()`. -/
def SliceSys.call (s : SliceSys) : SliceCall → Option SliceSys
  | .alloc =>
    (sliceAlloc s.heap).map (fun (h, slice) => ⟨h, s.live, slice.toList ++ s.slices⟩)
  | .free slice =>
    if slice ∈ s.slices then
      (sliceFree s.heap slice).map (fun h => ⟨h, s.live, s.slices.erase slice⟩)
    else none
  | .shrink => some { s with heap := slicePoolShrink s.heap }
  | .pageAlloc order =>
    let (z, pg) := rawAllocPages s.heap.zone order
    some ⟨{ s.heap with zone := z }, (pg.map (Block.mk order)).toList ++ s.live, s.slices⟩
  | .pageFree pg =>
    (s.live.find? (fun b => b.start = pg)).map (fun b =>
      ⟨{ s.heap with zone := freePages s.heap.zone pg }, s.live.erase b, s.slices⟩)
  | .store addr v =>
    if s.inSlice addr || !s.inPool addr then
      some { s with heap := { s.heap with mem := setWord s.heap.mem (addr / 4) v } }
    else none

/-- A pool just made on a fresh zone, over any memory. -/
def sliceStart (z : Zone) (mem : Words) (objSize : Nat) : Option SliceSys :=
  (slicePoolCreate (memZoneInit z) mem objSize).map (fun h => ⟨h, [], []⟩)

/-- The live slices do not overlap, and each lies in a page of the pool before
the bitmap of the page. -/
def SliceSys.Isolated (s : SliceSys) : Prop :=
  s.slices.Pairwise (fun a b =>
      a + s.heap.pool.objSize ≤ b ∨ b + s.heap.pool.objSize ≤ a) ∧
    ∀ a ∈ s.slices, ∃ pg ∈ s.heap.pool.pages, pageToAddr s.heap.zone pg ≤ a ∧
      a + s.heap.pool.objSize ≤ pageToAddr s.heap.zone pg + PAGE_SIZE -
        bitmapSize (PAGE_SIZE / s.heap.pool.objSize)

instance (s : SliceSys) : Decidable s.Isolated := inferInstanceAs (Decidable (_ ∧ _))

end Koowaldah
