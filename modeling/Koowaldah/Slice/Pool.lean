import Koowaldah.Slice.Layout

/-!
# What the calls on a pool keep

`slice_alloc`, `slice_free` and `slice_pool_shrink` change bits, move pages from one list to
the other and take and give back pages.  This file says once what each of them does and
derives from it one invariant, which the results on slices then use.

* `PoolInv Pin Own` is the invariant.  The zone has handed out the pages of the pool.  The
  slices are distinct objects whose bits are set.  The active pages have a clear bit and the
  inactive ones have none.  The bits of the objects in `Pin` are set in every page and
  belong to no slice, and a set bit of an object in `Own` belongs to a slice.
* Which objects can play these parts depends on the bits a page starts with
  (`FreshBits`), so on what `bitmap_fill` and `bitmap_zero` make of the size.  For some sizes the
  objects that gave way to the bitmap are pinned (`freshBits_reserved`).  For some a usable
  object is, since `bitmap_zero` misses its bit (`freshBits_stuck`), and for all others each
  usable object is owned (`freshBits_clean`).
* Every call keeps the invariant (`PoolInv.call`), as long as stores leave the bitmaps alone.
-/

namespace Koowaldah

open SysLib SysLib.Dyadic

variable {z : Zone} {h : SliceHeap} {mem : Words}

/-! ## Addresses -/

theorem bmask_congr {z' : Zone} (hsame : z.SamePages z') (pg n : Nat) :
    bmask z' pg n = bmask z pg n := by
  unfold bmask
  rw [pageToAddr_congr hsame]

theorem page_eq_of_addr {pg pg' x y : Nat} (hx : x < PAGE_SIZE) (hy : y < PAGE_SIZE)
    (h : pageToAddr z pg + x = pageToAddr z pg' + y) : pg = pg' ∧ x = y := by
  unfold pageToAddr PAGE_SIZE at *
  omega

theorem slot_page {x : Nat} (pg : Nat) (hbase : PAGE_SIZE ∣ z.base) (hx : x < PAGE_SIZE) :
    pageToAddr z pg + x - (pageToAddr z pg + x) % PAGE_SIZE = pageToAddr z pg := by
  unfold pageToAddr
  unfold PAGE_SIZE at *
  omega

theorem find_page (z : Zone) (l : List Nat) (pg : Nat) :
    l.find? (fun p => pageToAddr z p = pageToAddr z pg) = if pg ∈ l then some pg else none := by
  have hinj : ∀ p, pageToAddr z p = pageToAddr z pg ↔ p = pg := by
    intro p
    unfold pageToAddr PAGE_SIZE
    omega
  induction l with
  | nil => rfl
  | cons p l ih =>
    by_cases hp : p = pg
    · simp [hp]
    · have hp' : pg ≠ p := fun h => hp h.symm
      simp only [List.find?_cons, hinj, decide_eq_false hp, List.mem_cons, hp', false_or]
      rw [← ih]
      simp only [hinj]

namespace SliceHeap

variable {h h' : SliceHeap} {pg : Nat}

def object (h : SliceHeap) (pg i : Nat) : Nat := pageToAddr h.zone pg + i * h.pool.objSize

theorem object_inj {pg' i j : Nat} (hpos : 0 < h.pool.objSize) (hi : i < nobjs h.pool.objSize)
    (hj : j < nobjs h.pool.objSize) (heq : h.object pg i = h.object pg' j) : pg = pg' ∧ i = j := by
  have hfi := object_fits hi
  have hfj := object_fits hj
  have hpage := page_eq_of_addr (by omega) (by omega) heq
  exact ⟨hpage.1, Nat.eq_of_mul_eq_mul_right hpos hpage.2⟩

theorem object_congr (hsame : h.zone.SamePages h'.zone) (hobj : h'.pool.objSize = h.pool.objSize)
    (pg i : Nat) : h'.object pg i = h.object pg i := by
  unfold object
  rw [pageToAddr_congr hsame, hobj]

theorem bit_congr (hsame : h.zone.SamePages h'.zone) (hobj : h'.pool.objSize = h.pool.objSize)
    (hmem : h'.mem = h.mem) (pg i : Nat) : h'.bit pg i = h.bit pg i := by
  unfold bit
  rw [bmask_congr hsame, hobj, hmem]

/-! ## The heap after a call -/

/-- The heap after `slice_alloc` started a page. -/
def startPage (h : SliceHeap) (pg : Nat) : SliceHeap :=
  let z := (rawAllocPages h.zone 0).1
  ⟨z, newPageMem h.mem (bmask z pg (nobjs h.pool.objSize)) h.pool.objSize,
    { h.pool with pagesActive := [pg] }⟩

/-- The heap after `slice_alloc` took an object of the first active page. -/
def takeObject (h : SliceHeap) (pg : Nat) (rest : List Nat) (number : Nat) : SliceHeap :=
  let bm := bmask h.zone pg (nobjs h.pool.objSize)
  let mem := bitmapBitSet h.mem bm number
  ⟨h.zone, mem,
    if bitmapAllSet mem bm (nobjs h.pool.objSize) then
      { h.pool with pagesActive := rest, pagesInactive := pg :: h.pool.pagesInactive }
    else h.pool⟩

/-- The heap after `slice_free` of an object. -/
def giveBack (h : SliceHeap) (pg i : Nat) : SliceHeap :=
  ⟨h.zone, bitmapBitClear h.mem (bmask h.zone pg (nobjs h.pool.objSize)) i,
    if pg ∈ h.pool.pagesInactive then
      { h.pool with
        pagesInactive := h.pool.pagesInactive.erase pg
        pagesActive := pg :: h.pool.pagesActive }
    else h.pool⟩

/-- The heap after `slice_pool_shrink` gave back a page. -/
def dropPage (h : SliceHeap) (pg : Nat) : SliceHeap :=
  { h with
    zone := freePages h.zone pg
    pool := { h.pool with pagesActive := h.pool.pagesActive.erase pg } }

@[simp] theorem startPage_objSize (h : SliceHeap) (pg : Nat) :
    (h.startPage pg).pool.objSize = h.pool.objSize := rfl

@[simp] theorem takeObject_objSize (h : SliceHeap) (pg : Nat) (rest : List Nat) (number : Nat) :
    (h.takeObject pg rest number).pool.objSize = h.pool.objSize := by
  unfold takeObject
  dsimp only
  split <;> rfl

@[simp] theorem giveBack_objSize (h : SliceHeap) (pg i : Nat) :
    (h.giveBack pg i).pool.objSize = h.pool.objSize := by
  unfold giveBack
  split <;> rfl

theorem takeObject_page (h : SliceHeap) (pg : Nat) (rest : List Nat) (number : Nat) :
    (h.takeObject pg rest number).pool.page = h.pool.page := by
  unfold takeObject
  dsimp only
  split <;> rfl

theorem giveBack_page (h : SliceHeap) (pg i : Nat) : (h.giveBack pg i).pool.page = h.pool.page := by
  unfold giveBack
  split <;> rfl

theorem takeObject_pages {rest : List Nat} (number : Nat)
    (hactive : h.pool.pagesActive = pg :: rest) :
    (h.takeObject pg rest number).pool.pages.Perm h.pool.pages := by
  unfold takeObject SlicePool.pages
  dsimp only
  split
  · rw [hactive]
    exact List.perm_middle
  · exact List.Perm.refl _

theorem giveBack_pages (h : SliceHeap) (pg i : Nat) :
    (h.giveBack pg i).pool.pages.Perm h.pool.pages := by
  unfold giveBack SlicePool.pages
  split
  · rename_i hin
    -- the page moves from one list to the other
    have hmove := (List.perm_cons_erase hin).append_left h.pool.pagesActive
    exact (hmove.trans List.perm_middle).symm
  · exact List.Perm.refl _

theorem takeObject_cases (h : SliceHeap) (pg : Nat) (rest : List Nat) (number : Nat) :
    ((∀ i < nobjs h.pool.objSize, (h.takeObject pg rest number).bit pg i = true) ∧
      (h.takeObject pg rest number).pool =
        { h.pool with pagesActive := rest, pagesInactive := pg :: h.pool.pagesInactive }) ∨
    ((∃ i < nobjs h.pool.objSize, (h.takeObject pg rest number).bit pg i = false) ∧
      (h.takeObject pg rest number).pool = h.pool) := by
  unfold bit
  rw [takeObject_objSize]
  by_cases hall : bitmapAllSet (bitmapBitSet h.mem (bmask h.zone pg (nobjs h.pool.objSize)) number)
      (bmask h.zone pg (nobjs h.pool.objSize)) (nobjs h.pool.objSize) = true
  · exact Or.inl ⟨(bitmapAllSet_iff _ _ _).mp hall, if_pos hall⟩
  · refine Or.inr ⟨?_, if_neg hall⟩
    simp only [bitmapAllSet_iff, not_forall, exists_prop, Bool.not_eq_true] at hall
    exact hall

theorem takeObject_bit_self (h : SliceHeap) (pg : Nat) (rest : List Nat) (number i : Nat) :
    (h.takeObject pg rest number).bit pg i = (decide (i = number) || h.bit pg i) := by
  unfold bit
  rw [takeObject_objSize]
  exact bitAt_bitmapBitSet ..

/-- Words away from the bitmap of a page are not those `bitmap_bit_set` and
`bitmap_bit_clear` touch. -/
theorem not_nearBitmap {z : Zone} {objSize i x : Nat} (hi : i < nobjs objSize)
    (hx : ¬ NearBitmap z pg objSize x) : x ≠ bmask z pg (nobjs objSize) + i / BITS_PER_LONG := by
  unfold NearBitmap BITS_PER_LONG at hx
  unfold BITS_PER_LONG
  omega

section Bits

variable {h : SliceHeap} (haligned : PAGE_SIZE ∣ h.zone.base)

variable {pg q i : Nat}

include haligned

theorem startPage_bit_of_ne (hacc : AcceptedSize h.pool.objSize) (hne : q ≠ pg)
    (hi : i < nobjs h.pool.objSize) : (h.startPage pg).bit q i = h.bit q i := by
  have hsame := rawAllocPages_samePages h.zone 0
  have haligned' : PAGE_SIZE ∣ (rawAllocPages h.zone 0).1.base := hsame.1 ▸ haligned
  refine (bitAt_bmask_frame haligned' hne (fun x hx => newPageMem_frame hacc hx) hi).trans ?_
  rw [bit, bmask_congr hsame]

theorem takeObject_bit (rest : List Nat) {number : Nat} (hnum : number < nobjs h.pool.objSize)
    (hi : i < nobjs h.pool.objSize) :
    (h.takeObject pg rest number).bit q i = (decide (q = pg ∧ i = number) || h.bit q i) := by
  by_cases hq : q = pg
  · rw [hq, takeObject_bit_self]
    simp
  · unfold bit
    rw [takeObject_objSize]
    show bitAt (bitmapBitSet h.mem (bmask h.zone pg _) number) (bmask h.zone q _) i = _
    rw [bitAt_bmask_frame haligned hq
      (fun x hx => bitmapBitSet_frame _ (not_nearBitmap hnum hx)) hi]
    simp [hq]

theorem giveBack_bit {j : Nat} (hj : j < nobjs h.pool.objSize) (hi : i < nobjs h.pool.objSize) :
    (h.giveBack pg j).bit q i = (!decide (q = pg ∧ i = j) && h.bit q i) := by
  unfold bit
  rw [giveBack_objSize]
  show bitAt (bitmapBitClear h.mem (bmask h.zone pg _) j) (bmask h.zone q _) i = _
  by_cases hq : q = pg
  · rw [hq, bitAt_bitmapBitClear]
    simp
  · rw [bitAt_bmask_frame haligned hq
      (fun x hx => bitmapBitClear_frame _ (not_nearBitmap hj hx)) hi]
    simp [hq]

theorem sliceFree_object (hpos : 0 < h.pool.objSize) (pg : Nat) (hi : i < nobjs h.pool.objSize) :
    sliceFree h (h.object pg i) =
      if pg ∈ h.pool.pages then some (h.giveBack pg i) else none := by
  have hfits := object_fits hi
  have hpage := slot_page pg haligned (show i * h.pool.objSize < PAGE_SIZE by omega)
  have hidx : (h.object pg i - pageToAddr h.zone pg) / h.pool.objSize = i := by
    unfold object
    rw [Nat.add_sub_cancel_left]
    exact Nat.mul_div_cancel i hpos
  unfold sliceFree
  simp only [show h.object pg i - h.object pg i % PAGE_SIZE = pageToAddr h.zone pg from hpage,
    hidx, find_page]
  unfold giveBack SlicePool.pages
  by_cases hin : pg ∈ h.pool.pagesInactive
  · simp [hin]
  · by_cases hact : pg ∈ h.pool.pagesActive <;> simp [hin, hact]

end Bits

/-- What `slice_alloc` does when it does not reach `bug ()`. -/
inductive AllocStep (h : SliceHeap) : SliceHeap → Option Nat → Prop
  | noPage (hactive : h.pool.pagesActive = []) (hpg : (rawAllocPages h.zone 0).2 = none) :
    AllocStep h h none
  | startPage {pg : Nat} (hactive : h.pool.pagesActive = [])
    (hpg : (rawAllocPages h.zone 0).2 = some pg) :
    AllocStep h (h.startPage pg) (some ((h.startPage pg).object pg (usableObjs h.pool.objSize - 1)))
  | takeObject {pg number : Nat} {rest : List Nat} (hactive : h.pool.pagesActive = pg :: rest)
    (hnum : number < nobjs h.pool.objSize) (hclear : h.bit pg number = false) :
    AllocStep h (h.takeObject pg rest number) (some (h.object pg number))

/-- `slice_alloc` reaches `bug ()` when its first active page has no clear bit. -/
theorem sliceAlloc_cases (h : SliceHeap) :
    (∃ pg ∈ h.pool.pagesActive, (∀ i < nobjs h.pool.objSize, h.bit pg i = true) ∧
      sliceAlloc h = none) ∨
    ∃ h' slice, sliceAlloc h = some (h', slice) ∧ AllocStep h h' slice := by
  unfold sliceAlloc
  cases hactive : h.pool.pagesActive with
  | nil =>
    right
    cases hpg : (rawAllocPages h.zone 0).2 with
    | none =>
      refine ⟨h, none, ?_, .noPage hactive hpg⟩
      simp only [hpg, (rawAllocPages_none hpg).1]
    | some pg =>
      refine ⟨h.startPage pg, _, ?_, .startPage hactive hpg⟩
      simp only [hpg]
      rfl
  | cons pg rest =>
    cases hseek : bitmapSeekUnset h.mem (bmask h.zone pg (PAGE_SIZE / h.pool.objSize))
        (PAGE_SIZE / h.pool.objSize) with
    | none =>
      left
      refine ⟨pg, List.mem_cons_self, bitmapSeekUnset_none hseek, ?_⟩
      simp only [hseek]
    | some number =>
      right
      obtain ⟨hnum, hclear, -⟩ := bitmapSeekUnset_some hseek
      refine ⟨h.takeObject pg rest number, _, ?_, .takeObject hactive hnum hclear⟩
      simp only [hseek]
      rfl

theorem allocStep_of_some {slice : Option Nat} (hcall : sliceAlloc h = some (h', slice)) :
    AllocStep h h' slice := by
  rcases sliceAlloc_cases h with ⟨pg, -, -, hnone⟩ | ⟨h'', slice', hsome, hstep⟩
  · rw [hnone] at hcall
    cases hcall
  · rw [hsome] at hcall
    cases hcall
    exact hstep

theorem AllocStep.objSize {slice : Option Nat} (hstep : AllocStep h h' slice) :
    h'.pool.objSize = h.pool.objSize := by
  cases hstep <;> simp

end SliceHeap

theorem sliceFree_objSize {h' : SliceHeap} {slice : Nat} (hfree : sliceFree h slice = some h') :
    h'.pool.objSize = h.pool.objSize := by
  unfold sliceFree at hfree
  dsimp only at hfree
  split at hfree
  · rw [← Option.some.inj hfree]
  · split at hfree
    · rw [← Option.some.inj hfree]
    · exact nomatch hfree

theorem slicePoolCreate_objSize {objSize : Nat} (hcreate : slicePoolCreate z mem objSize = some h) :
    h.pool.objSize = objSize := by
  unfold slicePoolCreate at hcreate
  split at hcreate
  · cases hcreate
  · obtain ⟨pg, -, rfl⟩ := Option.map_eq_some_iff.mp hcreate
    rfl

/-! ## The bits a page starts with -/

/-- What the bits of a new page are for two sets of objects.  Those in `Pin` are taken from
the start, and those in `Own` are free but for the slice that is returned. -/
structure FreshBits (Pin Own : Nat → Prop) (objSize : Nat) : Prop where
  pinned : ∀ (mem : Words) (bm : Nat), ∀ i < nobjs objSize, Pin i →
    bitAt (newPageMem mem bm objSize) bm i = true
  last : ¬ Pin (usableObjs objSize - 1)
  owned : ∀ (mem : Words) (bm : Nat), ∀ i < nobjs objSize, Own i →
    bitAt (newPageMem mem bm objSize) bm i = true → i = usableObjs objSize - 1

theorem freshBits_reserved {objSize : Nat} (hacc : AcceptedSize objSize)
    (hfill : usableObjs objSize = nobjs objSize ∨ nobjs objSize % 32 ≤ 16) :
    FreshBits (fun i => usableObjs objSize ≤ i) (fun _ => False) objSize where
  pinned mem bm i hi hlo := by
    rcases hfill with hfill | hfill
    · omega
    · exact bitAt_newPageMem_reserved mem bm hfill hlo hi
  last := by
    have := usableObjs_pos hacc
    omega
  owned _ _ _ _ hown := hown.elim

theorem freshBits_stuck {objSize : Nat} (hacc : AcceptedSize objSize)
    (hstuck : 32 ≤ usableObjs objSize) (hmod : 2 ≤ usableObjs objSize % 32) :
    FreshBits (fun i => i = 32 * (usableObjs objSize / 32)) (fun _ => False) objSize where
  pinned mem bm i _ hpin := by
    rw [hpin]
    exact bitAt_newPageMem_stuck mem bm hacc hstuck
  last := by omega
  owned _ _ _ _ hown := hown.elim

theorem freshBits_clean {objSize : Nat}
    (hclean : usableObjs objSize < 32 ∨ usableObjs objSize % 32 ≤ 1) :
    FreshBits (fun _ => False) (fun i => i < usableObjs objSize) objSize where
  pinned _ _ _ _ hpin := hpin.elim
  last := id
  owned mem bm i _ hown hbit := by
    by_contra hne
    rw [bitAt_newPageMem_clean mem bm hclean hown hne] at hbit
    cases hbit

/-! ## The invariant -/

/-- The zone has handed out the pages of the pool, the slices are distinct objects whose bits
are set, and the two lists tell the pages with a clear bit from those without. -/
structure PoolInv (Pin Own : Nat → Prop) (objSize lo hi : Nat) (s : SliceSys) : Prop where
  size : s.heap.pool.objSize = objSize
  aligned : PAGE_SIZE ∣ s.heap.zone.base
  total : hi ≤ s.heap.zone.totalPages
  buddy : BuddyInv s.heap.zone lo hi s.held
  pinned : ∀ pg ∈ s.heap.pool.pages, ∀ i < nobjs objSize, Pin i → s.heap.bit pg i = true
  slot : ∀ a ∈ s.slices, ∃ pg ∈ s.heap.pool.pages, ∃ i < nobjs objSize, ¬ Pin i ∧
    s.heap.object pg i = a ∧ s.heap.bit pg i = true
  nodup : s.slices.Nodup
  owned : ∀ pg ∈ s.heap.pool.pages, ∀ i < nobjs objSize, Own i → s.heap.bit pg i = true →
    s.heap.object pg i ∈ s.slices
  active : ∀ pg ∈ s.heap.pool.pagesActive, ∃ i < nobjs objSize, s.heap.bit pg i = false
  inactive : ∀ pg ∈ s.heap.pool.pagesInactive, ∀ i < nobjs objSize, s.heap.bit pg i = true

section Calls

variable {Pin Own : Nat → Prop} {objSize lo hi : Nat} {s : SliceSys}

namespace PoolInv

variable {pg number : Nat} {h' : SliceHeap} {rest : List Nat}

theorem pages_nodup (h : PoolInv Pin Own objSize lo hi s) : s.heap.pool.pages.Nodup := by
  have hpw := pairwise_of_cover_le_one h.buddy.piles.cover_le_one
  have hheld := (List.pairwise_append.mp hpw).2.1
  have hpool := List.pairwise_map.mp (List.pairwise_append.mp hheld).1
  refine (List.pairwise_cons.mp hpool).2.imp ?_
  intro a b hdisj heq
  exact hdisj a (Block.start_mem ⟨0, a⟩) (heq ▸ Block.start_mem ⟨0, b⟩)

theorem disjoint (h : PoolInv Pin Own objSize lo hi s) (hpg : pg ∈ s.heap.pool.pagesActive) :
    pg ∉ s.heap.pool.pagesInactive :=
  fun hin => (List.nodup_append.mp h.pages_nodup).2.2 pg hpg pg hin rfl

theorem keep {live : List Block} (h : PoolInv Pin Own objSize lo hi s)
    (hsame : s.heap.zone.SamePages h'.zone) (hobj : h'.pool.objSize = s.heap.pool.objSize)
    (hbuddy : BuddyInv h'.zone lo hi ((h'.pool.page :: h'.pool.pages).map (Block.mk 0) ++ live))
    (hactive : ∀ pg ∈ h'.pool.pagesActive, pg ∈ s.heap.pool.pagesActive)
    (hinactive : h'.pool.pagesInactive = s.heap.pool.pagesInactive)
    (hbits : ∀ pg ∈ s.heap.pool.pages, ∀ i < nobjs objSize, h'.bit pg i = s.heap.bit pg i)
    (hslices : ∀ pg ∈ s.heap.pool.pages, ∀ i < nobjs objSize, s.heap.object pg i ∈ s.slices →
      pg ∈ h'.pool.pages) : PoolInv Pin Own objSize lo hi ⟨h', live, s.slices⟩ := by
  have hsub : ∀ pg ∈ h'.pool.pages, pg ∈ s.heap.pool.pages := by
    intro pg hpg
    unfold SlicePool.pages at hpg ⊢
    rw [hinactive] at hpg
    simp only [List.mem_append] at hpg ⊢
    exact hpg.imp_left (hactive pg)
  have hobject := SliceHeap.object_congr hsame hobj
  constructor
  · exact hobj.trans h.size
  · rw [hsame.1]
    exact h.aligned
  · rw [hsame.2]
    exact h.total
  · exact hbuddy
  · intro pg hpg i hi hpin
    rw [hbits pg (hsub pg hpg) i hi]
    exact h.pinned pg (hsub pg hpg) i hi hpin
  · intro a ha
    obtain ⟨pg, hpg, i, hi, hnot, heq, hbit⟩ := h.slot a ha
    refine ⟨pg, hslices pg hpg i hi (heq ▸ ha), i, hi, hnot, ?_, ?_⟩
    · rw [hobject, heq]
    · rw [hbits pg hpg i hi, hbit]
  · exact h.nodup
  · intro pg hpg i hi hown hbit
    rw [hbits pg (hsub pg hpg) i hi] at hbit
    rw [hobject]
    exact h.owned pg (hsub pg hpg) i hi hown hbit
  · intro pg hpg
    obtain ⟨i, hi, hbit⟩ := h.active pg (hactive pg hpg)
    have hpg' : pg ∈ s.heap.pool.pages := List.mem_append_left _ (hactive pg hpg)
    exact ⟨i, hi, (hbits pg hpg' i hi).trans hbit⟩
  · intro pg hpg i hi
    have hpg' : pg ∈ s.heap.pool.pagesInactive := hinactive ▸ hpg
    rw [hbits pg (List.mem_append_right _ hpg') i hi]
    exact h.inactive pg hpg' i hi

theorem withZone {z : Zone} {live : List Block} (h : PoolInv Pin Own objSize lo hi s)
    (hsame : s.heap.zone.SamePages z) (hbuddy : BuddyInv z lo hi
      ((s.heap.pool.page :: s.heap.pool.pages).map (Block.mk 0) ++ live)) :
    PoolInv Pin Own objSize lo hi ⟨{ s.heap with zone := z }, live, s.slices⟩ := by
  have hbits : ∀ pg i, SliceHeap.bit { s.heap with zone := z } pg i = s.heap.bit pg i := by
    intro pg i
    unfold SliceHeap.bit
    rw [bmask_congr hsame]
  exact h.keep hsame rfl hbuddy (fun _ hpg => hpg) rfl (fun pg _ i _ => hbits pg i)
    (fun _ hpg _ _ _ => hpg)

theorem startPage (hacc : AcceptedSize objSize) (hfresh : FreshBits Pin Own objSize)
    (h : PoolInv Pin Own objSize lo hi s) (hactive : s.heap.pool.pagesActive = [])
    (hpg : (rawAllocPages s.heap.zone 0).2 = some pg) :
    PoolInv Pin Own objSize lo hi ⟨s.heap.startPage pg, s.live,
      (s.heap.startPage pg).object pg (usableObjs objSize - 1) :: s.slices⟩ := by
  obtain rfl := h.size
  have hbuddy := rawAllocPages_buddy h.buddy hpg
  have hsame : s.heap.zone.SamePages (s.heap.startPage pg).zone :=
    rawAllocPages_samePages s.heap.zone 0
  have hpages : (s.heap.startPage pg).pool.pages = pg :: s.heap.pool.pages := by
    unfold SlicePool.pages
    rw [hactive]
    rfl
  have hnew : ∀ q ∈ s.heap.pool.pages, q ≠ pg := by
    intro q hq
    have hmem : Block.mk 0 q ∈ s.held := by simp [SliceSys.held, hq]
    exact hbuddy.piles.start_ne_of_mem hmem
  have hbit : ∀ q ∈ s.heap.pool.pages, ∀ i < nobjs s.heap.pool.objSize,
      (s.heap.startPage pg).bit q i = s.heap.bit q i :=
    fun q hq i hi => SliceHeap.startPage_bit_of_ne h.aligned hacc (hnew q hq) hi
  have hobject := SliceHeap.object_congr hsame (s.heap.startPage_objSize pg)
  have hlast : usableObjs s.heap.pool.objSize - 1 < nobjs s.heap.pool.objSize := by
    have := usableObjs_pos hacc
    have := usableObjs_le hacc
    omega
  constructor
  · rfl
  · rw [hsame.1]
    exact h.aligned
  · rw [hsame.2]
    exact h.total
  · refine hbuddy.perm ?_
    unfold SliceSys.held
    rw [hpages]
    exact ((List.Perm.swap s.heap.pool.page pg s.heap.pool.pages).map (Block.mk 0)).append_right
      s.live
  · intro q hq i hi hpin
    rw [hpages] at hq
    rcases List.mem_cons.mp hq with rfl | hq
    · exact hfresh.pinned _ _ i hi hpin
    · exact (hbit q hq i hi).trans (h.pinned q hq i hi hpin)
  · intro a ha
    simp only [hpages]
    rcases List.mem_cons.mp ha with rfl | ha
    · exact ⟨pg, List.mem_cons_self, _, hlast, hfresh.last, rfl, bitAt_newPageMem_last _ _ _⟩
    · obtain ⟨q, hq, i, hi, hnot, heq, hb⟩ := h.slot a ha
      exact ⟨q, List.mem_cons_of_mem pg hq, i, hi, hnot, (hobject q i).trans heq,
        (hbit q hq i hi).trans hb⟩
  · refine List.nodup_cons.mpr ⟨?_, h.nodup⟩
    intro hmem
    obtain ⟨q, hq, i, hi, -, heq, -⟩ := h.slot _ hmem
    rw [hobject] at heq
    exact hnew q hq (SliceHeap.object_inj hacc.1 hi hlast heq).1
  · intro q hq i hi hown hb
    rw [hpages] at hq
    rcases List.mem_cons.mp hq with rfl | hq
    · rw [hfresh.owned _ _ i hi hown hb]
      exact List.mem_cons_self
    · refine List.mem_cons_of_mem _ ?_
      rw [hobject]
      exact h.owned q hq i hi hown ((hbit q hq i hi).symm.trans hb)
  · intro q hq
    obtain rfl : q = pg := List.mem_singleton.mp hq
    exact ⟨0, nobjs_pos hacc, bitAt_newPageMem_zero _ _ hacc⟩
  · intro q hq i hi
    exact (hbit q (List.mem_append_right _ hq) i hi).trans (h.inactive q hq i hi)

theorem buddy_of_perm (h : PoolInv Pin Own objSize lo hi s) (hzone : h'.zone = s.heap.zone)
    (hpage : h'.pool.page = s.heap.pool.page) (hperm : h'.pool.pages.Perm s.heap.pool.pages) :
    BuddyInv h'.zone lo hi ((h'.pool.page :: h'.pool.pages).map (Block.mk 0) ++ s.live) := by
  rw [hzone, hpage]
  exact h.buddy.perm (((hperm.cons s.heap.pool.page).map (Block.mk 0)).append_right s.live).symm

theorem takeObject_active (h : PoolInv Pin Own s.heap.pool.objSize lo hi s)
    (hactive : s.heap.pool.pagesActive = pg :: rest)
    (hother : ∀ q i, i < nobjs s.heap.pool.objSize → q ≠ pg →
      (s.heap.takeObject pg rest number).bit q i = s.heap.bit q i) {q : Nat}
    (hq : q ∈ (s.heap.takeObject pg rest number).pool.pagesActive) :
    ∃ i < nobjs s.heap.pool.objSize, (s.heap.takeObject pg rest number).bit q i = false := by
  have hold : q ∈ s.heap.pool.pagesActive → q ≠ pg →
      ∃ i < nobjs s.heap.pool.objSize, (s.heap.takeObject pg rest number).bit q i = false := by
    intro hq hne
    obtain ⟨i, hi, hb⟩ := h.active q hq
    exact ⟨i, hi, (hother q i hi hne).trans hb⟩
  rcases s.heap.takeObject_cases pg rest number with ⟨-, hpool⟩ | ⟨hsome, hpool⟩
  · -- the page has left the list
    rw [hpool] at hq
    have hnodup := (List.nodup_append.mp h.pages_nodup).1
    rw [hactive] at hnodup
    have hne : q ≠ pg := fun heq => (List.nodup_cons.mp hnodup).1 (heq ▸ hq)
    exact hold (hactive ▸ List.mem_cons_of_mem pg hq) hne
  · by_cases hqpg : q = pg
    · rw [hqpg]
      exact hsome
    · rw [hpool] at hq
      exact hold hq hqpg

theorem takeObject_inactive (h : PoolInv Pin Own s.heap.pool.objSize lo hi s)
    (hkeep : ∀ q i, i < nobjs s.heap.pool.objSize → s.heap.bit q i = true →
      (s.heap.takeObject pg rest number).bit q i = true) {q i : Nat}
    (hq : q ∈ (s.heap.takeObject pg rest number).pool.pagesInactive)
    (hi : i < nobjs s.heap.pool.objSize) : (s.heap.takeObject pg rest number).bit q i = true := by
  rcases s.heap.takeObject_cases pg rest number with ⟨hall, hpool⟩ | ⟨-, hpool⟩
  · rw [hpool] at hq
    rcases List.mem_cons.mp hq with rfl | hq
    · exact hall i hi
    · exact hkeep q i hi (h.inactive q hq i hi)
  · rw [hpool] at hq
    exact hkeep q i hi (h.inactive q hq i hi)

theorem takeObject (hpos : 0 < objSize) (h : PoolInv Pin Own objSize lo hi s)
    (hactive : s.heap.pool.pagesActive = pg :: rest) (hnum : number < nobjs objSize)
    (hclear : s.heap.bit pg number = false) : PoolInv Pin Own objSize lo hi
      ⟨s.heap.takeObject pg rest number, s.live, s.heap.object pg number :: s.slices⟩ := by
  obtain rfl := h.size
  have hpg : pg ∈ s.heap.pool.pages := by simp [SlicePool.pages, hactive]
  have hperm := SliceHeap.takeObject_pages number hactive
  have hbit : ∀ q i, i < nobjs s.heap.pool.objSize →
      (s.heap.takeObject pg rest number).bit q i =
        (decide (q = pg ∧ i = number) || s.heap.bit q i) :=
    fun q i hi => SliceHeap.takeObject_bit h.aligned rest hnum hi
  have hkeep : ∀ q i, i < nobjs s.heap.pool.objSize → s.heap.bit q i = true →
      (s.heap.takeObject pg rest number).bit q i = true := by
    intro q i hi hb
    rw [hbit q i hi, hb, Bool.or_true]
  have hother : ∀ q i, i < nobjs s.heap.pool.objSize → q ≠ pg →
      (s.heap.takeObject pg rest number).bit q i = s.heap.bit q i := by
    intro q i hi hne
    simp [hbit q i hi, hne]
  have hobject : ∀ q i, (s.heap.takeObject pg rest number).object q i = s.heap.object q i :=
    SliceHeap.object_congr ⟨rfl, rfl⟩ (s.heap.takeObject_objSize pg rest number)
  -- the bit was clear, so the object is neither pinned nor a slice
  have hfree : ¬ Pin number := by
    intro hpin
    rw [h.pinned pg hpg number hnum hpin] at hclear
    cases hclear
  constructor
  · exact s.heap.takeObject_objSize pg rest number
  · exact h.aligned
  · exact h.total
  · exact h.buddy_of_perm rfl (s.heap.takeObject_page pg rest number) hperm
  · intro q hq i hi hpin
    exact hkeep q i hi (h.pinned q (hperm.mem_iff.mp hq) i hi hpin)
  · intro a ha
    rcases List.mem_cons.mp ha with rfl | ha
    · refine ⟨pg, hperm.mem_iff.mpr hpg, number, hnum, hfree, hobject pg number, ?_⟩
      simp [hbit pg number hnum]
    · obtain ⟨q, hq, i, hi, hnot, heq, hb⟩ := h.slot a ha
      exact ⟨q, hperm.mem_iff.mpr hq, i, hi, hnot, (hobject q i).trans heq, hkeep q i hi hb⟩
  · refine List.nodup_cons.mpr ⟨?_, h.nodup⟩
    intro hmem
    obtain ⟨q, -, i, hi, -, heq, hb⟩ := h.slot _ hmem
    obtain ⟨rfl, rfl⟩ := SliceHeap.object_inj hpos hi hnum heq
    rw [hclear] at hb
    cases hb
  · intro q hq i hi hown hb
    rw [hobject]
    by_cases hnew : q = pg ∧ i = number
    · rw [hnew.1, hnew.2]
      exact List.mem_cons_self
    · have hold : s.heap.bit q i = true := by simpa [hbit q i hi, hnew] using hb
      exact List.mem_cons_of_mem _ (h.owned q (hperm.mem_iff.mp hq) i hi hown hold)
  · exact fun q hq => h.takeObject_active hactive hother hq
  · exact fun q hq i hi => h.takeObject_inactive hkeep hq hi

theorem alloc {slice : Option Nat} (hacc : AcceptedSize objSize)
    (hfresh : FreshBits Pin Own objSize) (h : PoolInv Pin Own objSize lo hi s)
    (hcall : sliceAlloc s.heap = some (h', slice)) :
    PoolInv Pin Own objSize lo hi ⟨h', s.live, slice.toList ++ s.slices⟩ := by
  obtain rfl := h.size
  cases SliceHeap.allocStep_of_some hcall with
  | noPage => exact h
  | startPage hactive hpg => exact h.startPage hacc hfresh hactive hpg
  | takeObject hactive hnum hclear => exact h.takeObject hacc.1 hactive hnum hclear

theorem free {a : Nat} (hpos : 0 < objSize) (h : PoolInv Pin Own objSize lo hi s)
    (ha : a ∈ s.slices) :
    ∃ h', sliceFree s.heap a = some h' ∧ h'.pool.pages.Perm s.heap.pool.pages ∧
      PoolInv Pin Own objSize lo hi ⟨h', s.live, s.slices.erase a⟩ := by
  obtain rfl := h.size
  obtain ⟨pg, hpg, j, hj, hnot, rfl, -⟩ := h.slot a ha
  have hperm := s.heap.giveBack_pages pg j
  have hbit : ∀ q i, i < nobjs s.heap.pool.objSize → (s.heap.giveBack pg j).bit q i =
      (!decide (q = pg ∧ i = j) && s.heap.bit q i) :=
    fun q i hi => SliceHeap.giveBack_bit h.aligned hj hi
  have hother : ∀ q i, i < nobjs s.heap.pool.objSize → ¬ (q = pg ∧ i = j) →
      (s.heap.giveBack pg j).bit q i = s.heap.bit q i := by
    intro q i hi hne
    simp [hbit q i hi, hne]
  have hobject : ∀ q i, (s.heap.giveBack pg j).object q i = s.heap.object q i :=
    SliceHeap.object_congr ⟨rfl, rfl⟩ (s.heap.giveBack_objSize pg j)
  refine ⟨s.heap.giveBack pg j, ?_, hperm, ?_⟩
  · rw [SliceHeap.sliceFree_object h.aligned hpos pg hj, if_pos hpg]
  constructor
  · exact s.heap.giveBack_objSize pg j
  · exact h.aligned
  · exact h.total
  · exact h.buddy_of_perm rfl (s.heap.giveBack_page pg j) hperm
  · intro q hq i hi hpin
    have hne : ¬ (q = pg ∧ i = j) := fun heq => hnot (heq.2 ▸ hpin)
    exact (hother q i hi hne).trans (h.pinned q (hperm.mem_iff.mp hq) i hi hpin)
  · intro a ha'
    rw [h.nodup.mem_erase_iff] at ha'
    obtain ⟨q, hq, i, hi, hpin, heq, hb⟩ := h.slot a ha'.2
    have hne : ¬ (q = pg ∧ i = j) := by
      intro hsame
      rw [hsame.1, hsame.2] at heq
      exact ha'.1 heq.symm
    exact ⟨q, hperm.mem_iff.mpr hq, i, hi, hpin, (hobject q i).trans heq,
      (hother q i hi hne).trans hb⟩
  · exact h.nodup.erase _
  · intro q hq i hi hown hb
    have hb' := (hbit q i hi).symm.trans hb
    simp only [Bool.and_eq_true, Bool.not_eq_true', decide_eq_false_iff_not] at hb'
    rw [hobject, h.nodup.mem_erase_iff]
    exact ⟨fun heq => hb'.1 (SliceHeap.object_inj hpos hi hj heq),
      h.owned q (hperm.mem_iff.mp hq) i hi hown hb'.2⟩
  · intro q hq
    by_cases hqpg : q = pg
    · exact ⟨j, hj, (hbit q j hj).trans (by simp [hqpg])⟩
    · have hq' : q ∈ s.heap.pool.pagesActive := by
        unfold SliceHeap.giveBack at hq
        split at hq
        · exact List.mem_of_ne_of_mem hqpg hq
        · exact hq
      obtain ⟨i, hi, hb⟩ := h.active q hq'
      exact ⟨i, hi, (hother q i hi (fun heq => hqpg heq.1)).trans hb⟩
  · intro q hq i hi
    have hnodup := (List.nodup_append.mp h.pages_nodup).2.1
    have hq' : q ≠ pg ∧ q ∈ s.heap.pool.pagesInactive := by
      unfold SliceHeap.giveBack at hq
      split at hq
      · exact hnodup.mem_erase_iff.mp hq
      · rename_i hout
        exact ⟨fun heq => hout (heq ▸ hq), hq⟩
    exact (hother q i hi (fun heq => hq'.1 heq.1)).trans (h.inactive q hq'.2 i hi)

theorem dropPage (h : PoolInv Pin Own objSize lo hi s) (hpg : pg ∈ s.heap.pool.pagesActive)
    (hnone : ∀ i < nobjs objSize, s.heap.object pg i ∉ s.slices) :
    PoolInv Pin Own objSize lo hi { s with heap := s.heap.dropPage pg } := by
  have hsame : s.heap.zone.SamePages (s.heap.dropPage pg).zone :=
    freePages_samePages s.heap.zone pg
  have hperm : (s.heap.pool.page :: s.heap.pool.pages).Perm
      (pg :: s.heap.pool.page :: (s.heap.dropPage pg).pool.pages) := by
    have hcons := (List.perm_cons_erase hpg).append_right s.heap.pool.pagesInactive
    exact (hcons.cons s.heap.pool.page).trans (List.Perm.swap _ _ _)
  have hbuddy := h.buddy.perm ((hperm.map (Block.mk 0)).append_right s.live)
  refine h.keep hsame rfl (freePages_buddy hbuddy) (fun q hq => List.mem_of_mem_erase hq) rfl
    (fun q _ i _ => SliceHeap.bit_congr hsame rfl rfl q i) ?_
  intro q hq i hi hmem
  have hne : q ≠ pg := fun heq => hnone i hi (heq ▸ hmem)
  rcases List.mem_append.mp hq with hq | hq
  · exact List.mem_append_left _ ((List.mem_erase_of_ne hne).mpr hq)
  · exact List.mem_append_right _ hq

end PoolInv

theorem shrinkLoop_cons (pg : Nat) (rest : List Nat) (h : SliceHeap) :
    ((∀ i < usableObjs h.pool.objSize, h.bit pg i = false) ∧
      shrinkLoop (pg :: rest) h = shrinkLoop rest (h.dropPage pg)) ∨
    ((∃ i < usableObjs h.pool.objSize, h.bit pg i = true) ∧
      shrinkLoop (pg :: rest) h = shrinkLoop rest h) := by
  have hiff := bitmapAllUnset_iff h.mem (bmask h.zone pg (nobjs h.pool.objSize))
    (usableObjs h.pool.objSize)
  by_cases hunset : bitmapAllUnset h.mem (bmask h.zone pg (nobjs h.pool.objSize))
      (usableObjs h.pool.objSize) = true
  · exact Or.inl ⟨hiff.mp hunset, if_pos hunset⟩
  · refine Or.inr ⟨?_, if_neg hunset⟩
    rw [hiff] at hunset
    simpa [SliceHeap.bit] using hunset

/-- The loop of `slice_pool_shrink` keeps the invariant, over pages that are on the active
list and are met once, if no slice is in a page whose usable objects are all free. -/
theorem shrinkLoop_inv {live : List Block} {slices : List Nat}
    (hnone : ∀ h : SliceHeap, PoolInv Pin Own objSize lo hi ⟨h, live, slices⟩ →
      ∀ pg ∈ h.pool.pages, (∀ i < usableObjs objSize, h.bit pg i = false) →
      ∀ i < nobjs objSize, h.object pg i ∉ slices) :
    ∀ (ps : List Nat) (h : SliceHeap), ps.Nodup → (∀ p ∈ ps, p ∈ h.pool.pagesActive) →
      PoolInv Pin Own objSize lo hi ⟨h, live, slices⟩ →
      PoolInv Pin Own objSize lo hi ⟨shrinkLoop ps h, live, slices⟩
  | [], _, _, _, hinv => hinv
  | pg :: rest, h, hnodup, hmem, hinv => by
    obtain ⟨hnot, hrest⟩ := List.nodup_cons.mp hnodup
    have hsize : h.pool.objSize = objSize := hinv.size
    have hpg : pg ∈ h.pool.pagesActive := hmem pg List.mem_cons_self
    have htail : ∀ p ∈ rest, p ∈ h.pool.pagesActive :=
      fun p hp => hmem p (List.mem_cons_of_mem pg hp)
    rcases shrinkLoop_cons pg rest h with ⟨hunset, heq⟩ | ⟨-, heq⟩
    · rw [hsize] at hunset
      rw [heq]
      refine shrinkLoop_inv hnone rest _ hrest ?_
        (hinv.dropPage hpg (hnone h hinv pg (List.mem_append_left _ hpg) hunset))
      intro p hp
      have hne : p ≠ pg := fun hp' => hnot (hp' ▸ hp)
      exact (List.mem_erase_of_ne hne).mpr (htail p hp)
    · rw [heq]
      exact shrinkLoop_inv hnone rest h hrest htail hinv

/-- A store that goes to no byte of a bitmap of the pool. -/
def SliceSys.OffBitmaps (s : SliceSys) : SliceCall → Prop
  | .store addr _ => ∀ pg ∈ s.heap.pool.pages,
    addr + bitmapSize (nobjs s.heap.pool.objSize) < pageToAddr s.heap.zone pg + PAGE_SIZE ∨
      pageToAddr s.heap.zone pg + PAGE_SIZE ≤ addr
  | _ => True

/-- A usable object is pinned, or all objects but the usable ones are. -/
def PinsPages (Pin : Nat → Prop) (objSize : Nat) : Prop :=
  (∃ i < usableObjs objSize, Pin i) ∨ ∀ i < nobjs objSize, ¬ Pin i → i < usableObjs objSize

namespace PoolInv

theorem not_mem_of_unset (hacc : AcceptedSize objSize) (hpins : PinsPages Pin objSize)
    (h : PoolInv Pin Own objSize lo hi s) {pg : Nat} (hpg : pg ∈ s.heap.pool.pages)
    (hunset : ∀ i < usableObjs objSize, s.heap.bit pg i = false) {i : Nat}
    (hi : i < nobjs objSize) : s.heap.object pg i ∉ s.slices := by
  obtain rfl := h.size
  intro hmem
  rcases hpins with ⟨j, hj, hpin⟩ | hpins
  · have hjn := Nat.lt_of_lt_of_le hj (usableObjs_le hacc)
    exact nomatch (h.pinned pg hpg j hjn hpin).symm.trans (hunset j hj)
  · obtain ⟨q, -, j, hj, hnot, heq, hb⟩ := h.slot _ hmem
    obtain ⟨rfl, rfl⟩ := SliceHeap.object_inj hacc.1 hj hi heq
    rw [hunset j (hpins j hj hnot)] at hb
    cases hb

theorem call {s' : SliceSys} {c : SliceCall} (hacc : AcceptedSize objSize)
    (hfresh : FreshBits Pin Own objSize) (hpins : c = .shrink → PinsPages Pin objSize)
    (h : PoolInv Pin Own objSize lo hi s) (hoff : s.OffBitmaps c) (hcall : s.call c = some s') :
    PoolInv Pin Own objSize lo hi s' := by
  cases c with
  | alloc =>
    obtain ⟨⟨h', slice⟩, halloc, rfl⟩ := Option.map_eq_some_iff.mp hcall
    exact h.alloc hacc hfresh halloc
  | free a =>
    simp only [SliceSys.call] at hcall
    split at hcall
    · rename_i ha
      obtain ⟨h', hfree, -, hinv⟩ := h.free hacc.1 ha
      rw [hfree] at hcall
      cases hcall
      exact hinv
    · cases hcall
  | shrink =>
    cases hcall
    exact shrinkLoop_inv (fun _ hinv _ hpg hunset _ hi =>
      hinv.not_mem_of_unset hacc (hpins rfl) hpg hunset hi) _ _
      (List.nodup_append.mp h.pages_nodup).1 (fun _ hp => hp) h
  | pageAlloc order =>
    have hs' : (⟨{ s.heap with zone := (rawAllocPages s.heap.zone order).1 },
        ((rawAllocPages s.heap.zone order).2.map (Block.mk order)).toList ++ s.live,
        s.slices⟩ : SliceSys) = s' := Option.some.inj hcall
    rw [← hs']
    refine h.withZone (rawAllocPages_samePages _ _) ?_
    cases hpg : (rawAllocPages s.heap.zone order).2 with
    | none =>
      rw [(rawAllocPages_none hpg).1]
      exact h.buddy
    | some pg =>
      have hbuddy := rawAllocPages_buddy h.buddy hpg
      exact hbuddy.perm List.perm_middle.symm
  | pageFree pg =>
    obtain ⟨b, hfind, rfl⟩ := Option.map_eq_some_iff.mp hcall
    have hb : b ∈ s.live := List.mem_of_find?_eq_some hfind
    obtain rfl : b.start = pg := by simpa using List.find?_some hfind
    refine h.withZone (freePages_samePages _ _) ?_
    apply freePages_buddy
    exact h.buddy.perm (((List.perm_cons_erase hb).append_left _).trans List.perm_middle)
  | store addr v =>
    simp only [SliceSys.call] at hcall
    split at hcall
    · cases hcall
      obtain rfl := h.size
      exact h.keep ⟨rfl, rfl⟩ rfl h.buddy (fun _ hpg => hpg) rfl
        (fun pg hpg i hi => bitAt_bmask_store h.aligned (hoff pg hpg) hi) (fun _ hpg _ _ _ => hpg)
    · cases hcall

end PoolInv

end Calls

theorem slicePoolCreate_inv (Pin Own : Nat → Prop) {objSize lo hi : Nat} {live : List Block}
    (hbase : PAGE_SIZE ∣ z.base) (hhi : hi ≤ z.totalPages) (hbuddy : BuddyInv z lo hi live)
    (hcreate : slicePoolCreate z mem objSize = some h) :
    PoolInv Pin Own objSize lo hi ⟨h, live, []⟩ := by
  unfold slicePoolCreate at hcreate
  split at hcreate
  · cases hcreate
  · obtain ⟨pg, hpg, rfl⟩ := Option.map_eq_some_iff.mp hcreate
    constructor
    · rfl
    · show PAGE_SIZE ∣ (rawAllocPages z 0).1.base
      rw [(rawAllocPages_samePages _ _).1]
      exact hbase
    · show hi ≤ (rawAllocPages z 0).1.totalPages
      rw [(rawAllocPages_samePages _ _).2]
      exact hhi
    · exact rawAllocPages_buddy hbuddy hpg
    · exact fun q hq => absurd hq List.not_mem_nil
    · exact fun a ha => absurd ha List.not_mem_nil
    · exact List.nodup_nil
    · exact fun q hq => absurd hq List.not_mem_nil
    · exact fun q hq => absurd hq List.not_mem_nil
    · exact fun q hq => absurd hq List.not_mem_nil

theorem sliceStart_poolInv (Pin Own : Nat → Prop) {objSize : Nat} {s : SliceSys}
    (hbase : PAGE_SIZE ∣ z.base) (hz : consumedPages z.totalPages < z.totalPages)
    (hstart : sliceStart z mem objSize = some s) :
    PoolInv Pin Own objSize (consumedPages z.totalPages) z.totalPages s := by
  obtain ⟨h, hcreate, rfl⟩ := Option.map_eq_some_iff.mp hstart
  refine slicePoolCreate_inv Pin Own ?_ ?_ (memZoneInit_buddy z hz) hcreate
  · rw [(memZoneInit_samePages z).1]
    exact hbase
  · rw [(memZoneInit_samePages z).2]

end Koowaldah
