import Koowaldah.Arch
import Koowaldah.Klist0
import Koowaldah.Lib.Dyadic

/-!
# The page allocator

A model of `kernel/page_alloc.c`.  A zone is an array of `struct page`, one
for each page of memory, and `MAX_ORDER` lists of free piles.  A pointer to a
`struct page` is its index in the array: `pg - neighbour` is a difference of
indices and `pile += n` adds to one.

Three parts of the data are kept as functions on indices, one for each field
of `struct page` that the allocator reads or writes: `order`
(`private.order`), `virt`, and `areaList`, the links of the `area_list`
nodes.  The `list` node of a page only ever links it into one allocation
level, so a level is the list of the opening pages it holds, first member
first.  `index` and `zone` are set once, to the index itself and to this
zone, and never written again.

`int` and `unsigned long` are `Nat` here.  A zone lies in a 32-bit address
space, so it has at most `2 ^ 20` pages and no sum below can wrap.
-/

namespace Koowaldah

open SysLib SysLib.Dyadic

/-- `MAX_ORDER`: the number of allocation levels of a zone. -/
def MAX_ORDER : Nat := 11

/-- `sizeof (struct page)` on i386. -/
def SIZEOF_PAGE : Nat := 32

/-- A node of an `area_list`: the one in the `struct page` of an index, or the
head of a list of pages. -/
inductive AreaNode where
  | page (index : Nat)
  | head (list : Nat)
deriving DecidableEq, Repr

/-- `struct mem_zone`, with the `struct page` array at its base. -/
structure Zone where
  base : Nat
  totalPages : Nat
  freePages : Nat
  allocLevels : Nat → List Nat
  order : Nat → Nat
  virt : Nat → Nat
  areaList : Links AreaNode

namespace Zone

def setLevel (z : Zone) (k : Nat) (l : List Nat) : Zone :=
  { z with allocLevels := Function.update z.allocLevels k l }

def setOrder (z : Zone) (pg k : Nat) : Zone :=
  { z with order := Function.update z.order pg k }

@[simp] theorem setLevel_allocLevels (z : Zone) (k : Nat) (l : List Nat) (j : Nat) :
    (z.setLevel k l).allocLevels j = if j = k then l else z.allocLevels j :=
  Function.update_apply ..

@[simp] theorem setLevel_order (z : Zone) (k : Nat) (l : List Nat) :
    (z.setLevel k l).order = z.order := rfl

@[simp] theorem setLevel_totalPages (z : Zone) (k : Nat) (l : List Nat) :
    (z.setLevel k l).totalPages = z.totalPages := rfl

@[simp] theorem setOrder_allocLevels (z : Zone) (pg k : Nat) :
    (z.setOrder pg k).allocLevels = z.allocLevels := rfl

@[simp] theorem setOrder_order (z : Zone) (pg k q : Nat) :
    (z.setOrder pg k).order q = if q = pg then k else z.order q :=
  Function.update_apply ..

@[simp] theorem setOrder_totalPages (z : Zone) (pg k : Nat) :
    (z.setOrder pg k).totalPages = z.totalPages := rfl

end Zone

/-! ## Initialisation -/

/-- The loop of `idx_order`: shift the index while it is even, at most `n`
times. -/
def idxOrderLoop : Nat → Nat → Nat
  | 0, _ => 0
  | n + 1, index => if index % 2 = 0 then idxOrderLoop n (index / 2) + 1 else 0

/-- `idx_order`: the highest level at which a pile may open at this index. -/
def idxOrder (index : Nat) : Nat := idxOrderLoop (MAX_ORDER - 1) index

/-- The `while` loop of `mem_zone_init`: lower the order until the pile fits
the pages left. -/
def reduceOrder : Nat → Nat → Nat
  | 0, _ => 0
  | k + 1, pagesLeft => if 2 ^ (k + 1) > pagesLeft then reduceOrder k pagesLeft else k + 1

/-- The pages that hold the `struct page` array. -/
def consumedPages (totalPages : Nat) : Nat := SIZEOF_PAGE * totalPages / PAGE_SIZE + 1

/-- The last loop of `mem_zone_init`: cut the pages from `i` up into piles.
Every pile has a page at least, so `totalPages` rounds are enough. -/
def tileZone : Nat → Nat → Zone → Zone
  | 0, _, z => z
  | fuel + 1, i, z =>
    if i < z.totalPages then
      let order := reduceOrder (idxOrder i) (z.totalPages - i)
      let z := z.setOrder i order
      let z := z.setLevel order (z.allocLevels order ++ [i])
      tileZone fuel (i + 2 ^ order) z
    else z

/-- The zone that `mem_zone_init` has when every `struct page` is set up and
no page is in a level yet. -/
def blankZone (z : Zone) : Zone where
  base := z.base
  totalPages := z.totalPages
  freePages := z.totalPages - consumedPages z.totalPages
  allocLevels := fun _ => []
  order := fun i => if i < z.totalPages then 0 else z.order i
  virt := fun i => if i < z.totalPages then NOPAGE_ADDR else z.virt i
  areaList :=
    (List.range z.totalPages).foldl (fun h i => klist0Init (.page i) h) z.areaList

def memZoneInit (z : Zone) : Zone :=
  tileZone z.totalPages (consumedPages z.totalPages) (blankZone z)

/-! ## Allocation -/

/-- The `do` loop of `__alloc_pages`: the first level from `i` up that holds a
pile.  `n` is the number of levels left to look at. -/
def findLevel (z : Zone) : Nat → Nat → Option Nat
  | 0, _ => none
  | n + 1, i => if (z.allocLevels i).isEmpty then findLevel z n (i + 1) else some i

/-- The `while` loop of `__alloc_pages`: keep the lower half of the pile on
the level below and go on with the upper half. -/
def splitPile (order : Nat) : Nat → Nat → Zone → Zone × Nat
  | 0, pile, z => (z, pile)
  | i + 1, pile, z =>
    if i + 1 > order then
      let z := z.setOrder pile i
      let z := z.setLevel i (pile :: z.allocLevels i)
      splitPile order i (pile + 2 ^ i) z
    else (z, pile)

/-- `__alloc_pages`: take a pile of `2 ^ order` pages from the zone, or answer
`none` when no level has one. -/
def rawAllocPages (z : Zone) (order : Nat) : Zone × Option Nat :=
  match findLevel z (MAX_ORDER - order) order with
  | none => (z, none)
  | some i =>
    match z.allocLevels i with
    | [] => (z, none)
    | pile :: rest =>
      let (z, pile) := splitPile order i pile (z.setLevel i rest)
      (z.setOrder pile order, some pile)

/-! ## Deallocation -/

/-- The neighbour is on the left and opens a double pile with `pg`. -/
def mergesLeft (pg order neighbour : Nat) : Bool :=
  pg = neighbour + 2 ^ order && order < idxOrder neighbour

/-- The neighbour is on the right and `pg` opens a double pile with it. -/
def mergesRight (pg order neighbour : Nat) : Bool :=
  neighbour = pg + 2 ^ order && order < idxOrder pg

/-- The `do` loop of `free_pages`: merge the pile with its neighbour on its
level, as long as there is one.  A merge raises the order, so `MAX_ORDER`
rounds are enough. -/
def coalesce : Nat → Nat → Zone → Zone × Nat
  | 0, pg, z => (z, pg)
  | fuel + 1, pg, z =>
    let order := z.order pg
    match (z.allocLevels order).find?
        (fun nb => mergesLeft pg order nb || mergesRight pg order nb) with
    | none => (z, pg)
    | some neighbour =>
      let z := z.setLevel order ((z.allocLevels order).erase neighbour)
      let pg := if mergesLeft pg order neighbour then neighbour else pg
      let z := z.setOrder pg (z.order pg + 1)
      if z.order pg < MAX_ORDER ∧ order ≠ z.order pg then coalesce fuel pg z else (z, pg)

/-- `free_pages`: give a pile back to the zone.  The last two lines of the
source unlink the `area_list` node of the page that opens the merged pile,
which need not be the page the caller passed. -/
def freePages (z : Zone) (pg : Nat) : Zone :=
  let (z, pg) := coalesce MAX_ORDER pg z
  let z := z.setLevel (z.order pg) (pg :: z.allocLevels (z.order pg))
  if klist0Empty (.page pg) z.areaList then z
  else { z with areaList := klist0Unlink (.page pg) z.areaList }

/-! ## Addresses -/

def pageToAddr (z : Zone) (pg : Nat) : Nat := z.base + pg * PAGE_SIZE

/-- `addr_to_page`, where the list of zones has this one only: `none` is
`NULL`. -/
def addrToPage (z : Zone) (addr : Nat) : Option Nat :=
  if z.base < addr ∧ addr < z.base + z.totalPages * PAGE_SIZE then
    some ((addr - z.base) / PAGE_SIZE)
  else none

/-- `put_pages`: `none` when the address is of no page. -/
def putPages (z : Zone) (addr : Nat) : Option Zone :=
  (addrToPage z addr).map (freePages z)

/-- The range of `n` bytes from `a` up meets no byte of the pages of a pile. -/
def ApartFrom (z : Zone) (b : Block) (a n : Nat) : Prop :=
  a + n ≤ pageToAddr z b.start ∨ pageToAddr z (b.start + 2 ^ b.order) ≤ a

instance (z : Zone) (b : Block) (a n : Nat) : Decidable (ApartFrom z b a n) :=
  inferInstanceAs (Decidable (_ ∨ _))

/-! ## The helpers of the source -/

/-- `idx_order` is the alignment of the index, capped at the top level. -/
theorem le_idxOrderLoop_iff : ∀ (n index k : Nat),
    k ≤ idxOrderLoop n index ↔ k ≤ n ∧ 2 ^ k ∣ index
  | 0, index, k => by
    simp only [idxOrderLoop, Nat.le_zero]
    constructor
    · rintro rfl
      simp
    · exact fun h => h.1
  | n + 1, index, 0 => by simp
  | n + 1, index, k + 1 => by
    have hpow : 2 ^ (k + 1) = 2 * 2 ^ k := by rw [Nat.pow_succ, Nat.mul_comm]
    rw [idxOrderLoop]
    split_ifs with heven
    · obtain ⟨m, rfl⟩ : 2 ∣ index := Nat.dvd_of_mod_eq_zero heven
      rw [Nat.mul_div_cancel_left m (by decide), Nat.add_le_add_iff_right,
        le_idxOrderLoop_iff n m k, hpow,
        Nat.mul_dvd_mul_iff_left (by decide : 0 < 2)]
      omega
    · constructor
      · intro h
        omega
      · rintro ⟨-, hdvd⟩
        have : 2 ∣ index := Nat.dvd_trans ⟨2 ^ k, hpow⟩ hdvd
        omega

theorem lt_idxOrder_iff (index k : Nat) :
    k < idxOrder index ↔ k + 1 < MAX_ORDER ∧ 2 ^ (k + 1) ∣ index := by
  have hcap : k + 1 ≤ MAX_ORDER - 1 ↔ k + 1 < MAX_ORDER := by
    omega
  rw [idxOrder, Nat.lt_iff_add_one_le, le_idxOrderLoop_iff, hcap]

theorem idxOrder_lt (index : Nat) : idxOrder index < MAX_ORDER := by
  have h := ((le_idxOrderLoop_iff (MAX_ORDER - 1) index _).mp (Nat.le_refl _)).1
  have : 0 < MAX_ORDER := by decide
  unfold idxOrder
  omega

theorem pow_idxOrder_dvd (index : Nat) : 2 ^ idxOrder index ∣ index :=
  ((le_idxOrderLoop_iff (MAX_ORDER - 1) index _).mp (Nat.le_refl _)).2

/-- The order that `mem_zone_init` settles on fits the pages left, does not
exceed the one it started from, and is the highest such. -/
theorem reduceOrder_spec : ∀ (k pagesLeft : Nat), 0 < pagesLeft →
    2 ^ reduceOrder k pagesLeft ≤ pagesLeft ∧ reduceOrder k pagesLeft ≤ k ∧
      (reduceOrder k pagesLeft < k →
        pagesLeft < 2 ^ (reduceOrder k pagesLeft + 1))
  | 0, pagesLeft, hpos => by
    simp only [reduceOrder]
    omega
  | k + 1, pagesLeft, hpos => by
    rw [reduceOrder]
    split_ifs with hgt
    · obtain ⟨hfit, hle, hmax⟩ := reduceOrder_spec k pagesLeft hpos
      refine ⟨hfit, by omega, fun _ => ?_⟩
      rcases Nat.lt_or_ge (reduceOrder k pagesLeft) k with hlt | hge
      · exact hmax hlt
      · rw [Nat.le_antisymm hle hge]
        omega
    · exact ⟨by omega, Nat.le_refl _, fun h => absurd h (Nat.lt_irrefl _)⟩

theorem pageArray_le_consumedPages (totalPages : Nat) :
    SIZEOF_PAGE * totalPages ≤ consumedPages totalPages * PAGE_SIZE := by
  have := Nat.lt_div_mul_add (a := SIZEOF_PAGE * totalPages) (b := PAGE_SIZE) (by decide)
  rw [consumedPages, Nat.add_mul]
  omega

end Koowaldah
