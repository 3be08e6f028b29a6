import Koowaldah.Slice.Basic

/-!
# The layout of a page of slices

What `slice_alloc` relies on when it cuts a page: the usable objects end
before the bitmap (`usableObjs_fit`), the bitmaps of two pages share no word,
and an object that gives way to the bitmap would run into it
(`lost_object_overlaps`).  `bit_newPage` says which bits a page starts with.
-/

namespace Koowaldah

open SysLib SysLib.Dyadic

variable {z : Zone} {mem : Words} {pg objSize i : Nat}

/-- A size that `slice_pool_create` takes. -/
def AcceptedSize (objSize : Nat) : Prop := 0 < objSize ∧ objSize ≤ PAGE_SIZE / 2 - 4

instance (objSize : Nat) : Decidable (AcceptedSize objSize) :=
  inferInstanceAs (Decidable (_ ∧ _))

/-- `nobjs`: the objects that fit a page without a bitmap. -/
abbrev nobjs (objSize : Nat) : Nat := PAGE_SIZE / objSize

theorem bitmapSize_eq (n : Nat) : bitmapSize n = 4 * ((n + 31) / 32) := by
  unfold bitmapSize BITS_PER_LONG
  omega

section Objects

variable {objSize : Nat}

theorem nobjs_mul_add_gap (objSize : Nat) :
    nobjs objSize * objSize + PAGE_SIZE % objSize = PAGE_SIZE := by
  rw [Nat.mul_comm]
  exact Nat.div_add_mod PAGE_SIZE objSize

theorem bitmapSize_nobjs_le (objSize : Nat) : bitmapSize (nobjs objSize) ≤ 512 := by
  have hle : nobjs objSize ≤ 4096 := Nat.div_le_self _ _
  rw [bitmapSize_eq]
  omega

theorem usableObjs_eq (objSize : Nat) :
    usableObjs objSize =
      if PAGE_SIZE % objSize < bitmapSize (nobjs objSize) then
        nobjs objSize - ((bitmapSize (nobjs objSize) - PAGE_SIZE % objSize) / objSize +
          if (bitmapSize (nobjs objSize) - PAGE_SIZE % objSize) % objSize ≠ 0 then 1 else 0)
      else nobjs objSize := by
  have hgap : PAGE_SIZE - PAGE_SIZE / objSize * objSize = PAGE_SIZE % objSize := by
    have : nobjs objSize * objSize + PAGE_SIZE % objSize = PAGE_SIZE :=
      nobjs_mul_add_gap objSize
    show PAGE_SIZE - nobjs objSize * objSize = PAGE_SIZE % objSize
    omega
  unfold usableObjs
  simp only [hgap]

theorem usableObjs_of_fits (hfit : bitmapSize (nobjs objSize) ≤ PAGE_SIZE % objSize) :
    usableObjs objSize = nobjs objSize := by
  rw [usableObjs_eq, if_neg (Nat.not_lt_of_le hfit)]

/-- When the gap is too small, the objects given up are the fewest that make
room for the bitmap. -/
theorem usableObjs_of_not_fits (hacc : AcceptedSize objSize)
    (hfit : PAGE_SIZE % objSize < bitmapSize (nobjs objSize)) : usableObjs objSize < nobjs objSize ∧
      usableObjs objSize * objSize + bitmapSize (nobjs objSize) ≤ PAGE_SIZE ∧
      PAGE_SIZE < (usableObjs objSize + 1) * objSize + bitmapSize (nobjs objSize) := by
  have hgap := nobjs_mul_add_gap objSize
  have hsmall := bitmapSize_nobjs_le objSize
  have haccept : objSize ≤ 2044 := hacc.2
  have hpos : 0 < objSize := hacc.1
  have hlt : PAGE_SIZE % objSize < objSize := Nat.mod_lt _ hpos
  rw [usableObjs_eq, if_pos hfit]
  generalize hc : bitmapSize (nobjs objSize) - PAGE_SIZE % objSize = c
  generalize he : c / objSize + (if c % objSize ≠ 0 then 1 else 0) = e
  -- `e` is `c / objSize` rounded up
  have hdiv := Nat.div_add_mod c objSize
  have hmod := Nat.mod_lt c hpos
  have hup : c ≤ e * objSize ∧ e * objSize < c + objSize := by
    rw [← he, Nat.add_mul, Nat.mul_comm (c / objSize)]
    split_ifs <;> omega
  have hpage : PAGE_SIZE = 4096 := rfl
  have hlast : e < nobjs objSize := by
    by_contra hge
    have := Nat.mul_le_mul_right objSize (Nat.le_of_not_lt hge)
    omega
  have he0 : 0 < e := by
    apply Nat.pos_of_ne_zero
    intro h0
    rw [h0] at hup
    omega
  refine ⟨by omega, ?_, ?_⟩
  · rw [Nat.sub_mul]
    omega
  · rw [Nat.succ_mul, Nat.sub_mul]
    omega

section

variable (hacc : AcceptedSize objSize)

include hacc

/-- Two objects are left after the bitmap is carved out, so a page from which one is taken is
not full. -/
theorem two_le_usableObjs : 2 ≤ usableObjs objSize := by
  have haccept : objSize ≤ 2044 := hacc.2
  by_cases hfit : bitmapSize (nobjs objSize) ≤ PAGE_SIZE % objSize
  · rw [usableObjs_of_fits hfit]
    have htwo : 2 * objSize ≤ PAGE_SIZE := Nat.le_trans (Nat.mul_le_mul_left 2 haccept) (by decide)
    exact (Nat.le_div_iff_mul_le hacc.1).mpr htwo
  · have hroom := (usableObjs_of_not_fits hacc (by omega)).2.2
    by_contra hlt
    have hmul : (usableObjs objSize + 1) * objSize ≤ 2 * objSize :=
      Nat.mul_le_mul_right objSize (by omega)
    have hmany : 64 < nobjs objSize := by
      by_contra hle
      rw [bitmapSize_eq] at hroom
      unfold PAGE_SIZE at hroom
      omega
    -- so many objects are small
    have hobjs := Nat.mul_le_mul_right objSize (Nat.le_of_lt hmany)
    have hgap := nobjs_mul_add_gap objSize
    have hsmall := bitmapSize_nobjs_le objSize
    unfold PAGE_SIZE at hgap hroom
    omega

theorem usableObjs_pos : 0 < usableObjs objSize :=
  Nat.lt_of_lt_of_le Nat.zero_lt_two (two_le_usableObjs hacc)

theorem usableObjs_le : usableObjs objSize ≤ nobjs objSize := by
  by_cases hfit : bitmapSize (nobjs objSize) ≤ PAGE_SIZE % objSize
  · rw [usableObjs_of_fits hfit]
  · exact Nat.le_of_lt (usableObjs_of_not_fits hacc (by omega)).1

theorem nobjs_pos : 0 < nobjs objSize :=
  Nat.lt_of_lt_of_le (usableObjs_pos hacc) (usableObjs_le hacc)

end

theorem object_fits {i : Nat} (hi : i < nobjs objSize) : i * objSize + objSize ≤ PAGE_SIZE := by
  have hmul := Nat.mul_le_mul_right objSize (Nat.succ_le_of_lt hi)
  have hgap := nobjs_mul_add_gap objSize
  rw [Nat.succ_mul] at hmul
  omega

theorem usableObjs_fit (hacc : AcceptedSize objSize) :
    usableObjs objSize * objSize + bitmapSize (nobjs objSize) ≤ PAGE_SIZE := by
  by_cases hfit : bitmapSize (nobjs objSize) ≤ PAGE_SIZE % objSize
  · rw [usableObjs_of_fits hfit]
    have := nobjs_mul_add_gap objSize
    omega
  · exact (usableObjs_of_not_fits hacc (by omega)).2.1

theorem usable_object_fits (hacc : AcceptedSize objSize) {i : Nat} (hi : i < usableObjs objSize) :
    i * objSize + objSize + bitmapSize (nobjs objSize) ≤ PAGE_SIZE := by
  have hfit := usableObjs_fit hacc
  have hmul := Nat.mul_le_mul_right objSize (Nat.lt_iff_add_one_le.mp hi)
  rw [Nat.add_mul] at hmul
  omega

/-- When the bitmap does not fit the gap, the last object runs into it. -/
theorem lost_object_overlaps (hfit : PAGE_SIZE % objSize < bitmapSize (nobjs objSize)) :
    PAGE_SIZE < nobjs objSize * objSize + bitmapSize (nobjs objSize) := by
  have := nobjs_mul_add_gap objSize
  omega

end Objects

/-! ## The words of a bitmap -/

/-- On a zone that starts at page `b` of the memory, the bitmap of a page is
its last words. -/
theorem bmask_eq {b : Nat} (hbase : z.base = PAGE_SIZE * b) (pg objSize : Nat) :
    bmask z pg (nobjs objSize) + (nobjs objSize + 31) / 32 = 1024 * (b + pg) + 1024 ∧
      (nobjs objSize + 31) / 32 ≤ 128 := by
  have hle := bitmapSize_nobjs_le objSize
  unfold bmask pageToAddr
  rw [bitmapSize_eq] at hle ⊢
  rw [hbase]
  unfold PAGE_SIZE
  omega

/-- The bit of object `i` in the bitmap of a page. -/
def SliceHeap.bit (h : SliceHeap) (pg i : Nat) : Bool :=
  bitAt h.mem (bmask h.zone pg (nobjs h.pool.objSize)) i

/-- Words that a change may touch: those of the bitmap of `pg`, and the one
after them. -/
def NearBitmap (z : Zone) (pg objSize x : Nat) : Prop :=
  bmask z pg (nobjs objSize) ≤ x ∧
    x ≤ bmask z pg (nobjs objSize) + nobjs objSize / BITS_PER_LONG

theorem bitAt_bmask_frame {mem' : Words} {pg' : Nat} (hbase : PAGE_SIZE ∣ z.base) (hne : pg' ≠ pg)
    (hmem : ∀ x, ¬ NearBitmap z pg objSize x → mem' x = mem x) (hi : i < nobjs objSize) :
    bitAt mem' (bmask z pg' (nobjs objSize)) i =
      bitAt mem (bmask z pg' (nobjs objSize)) i := by
  rcases hbase with ⟨b, hbase⟩
  have hbm := bmask_eq hbase pg objSize
  have hbm' := bmask_eq hbase pg' objSize
  apply bitAt_congr _ hi
  intro x hlo hhi
  apply hmem
  intro hnear
  unfold NearBitmap BITS_PER_LONG at hnear
  unfold BITS_PER_LONG at hhi
  omega

theorem bitAt_bmask_store {addr : Nat} {v : BitVec 32} (hbase : PAGE_SIZE ∣ z.base)
    (haddr : addr + bitmapSize (nobjs objSize) < pageToAddr z pg + PAGE_SIZE ∨
      pageToAddr z pg + PAGE_SIZE ≤ addr) (hi : i < nobjs objSize) :
    bitAt (setWord mem (addr / 4) v) (bmask z pg (nobjs objSize)) i =
      bitAt mem (bmask z pg (nobjs objSize)) i := by
  rcases hbase with ⟨b, hbase⟩
  have hbm := bmask_eq hbase pg objSize
  apply bitAt_congr _ hi
  intro x hlo hhi
  rw [setWord_apply, if_neg]
  rw [bitmapSize_eq] at haddr
  unfold pageToAddr at haddr
  rw [hbase] at haddr
  unfold PAGE_SIZE at haddr
  unfold BITS_PER_LONG at hhi
  omega

/-! ## A new page -/

/-- What `slice_alloc` makes of the memory when it starts a page. -/
def newPageMem (mem : Words) (bm objSize : Nat) : Words :=
  bitmapBitSet (bitmapZero (bitmapFill mem bm (nobjs objSize)) bm (usableObjs objSize)) bm
    (usableObjs objSize - 1)

theorem newPageMem_frame {x : Nat} (hacc : AcceptedSize objSize)
    (hx : ¬ NearBitmap z pg objSize x) :
    newPageMem mem (bmask z pg (nobjs objSize)) objSize x = mem x := by
  have hle := usableObjs_le hacc
  unfold NearBitmap BITS_PER_LONG at hx
  unfold newPageMem
  rw [bitmapBitSet_frame, bitmapZero_frame, bitmapFill_frame]
  all_goals
    unfold BITS_PER_LONG
    omega

/-- The bits a page starts with.  Those `bitmap_fill` misses keep what the page
held before. -/
theorem bitAt_newPageMem (mem : Words) (bm objSize i : Nat) :
    bitAt (newPageMem mem bm objSize) bm i =
      (decide (i = usableObjs objSize - 1) ||
        (!decide (i / 32 < usableObjs objSize / 32) &&
          !decide (i < usableObjs objSize % 32) &&
          (decide (i / 32 < nobjs objSize / 32) ||
            decide (i / 32 = nobjs objSize / 32 ∧ i % 32 + nobjs objSize % 32 < 32) ||
            bitAt mem bm i))) := by
  unfold newPageMem
  rw [bitAt_bitmapBitSet, bitAt_bitmapZero, bitAt_bitmapFill]
  rfl

theorem bitAt_newPageMem_last (mem : Words) (bm objSize : Nat) :
    bitAt (newPageMem mem bm objSize) bm (usableObjs objSize - 1) = true := by
  rw [bitAt_newPageMem, decide_eq_true rfl, Bool.true_or]

theorem bitAt_newPageMem_filled (mem : Words) (bm : Nat)
    (hwhole : ¬ i / 32 < usableObjs objSize / 32) (hmask : ¬ i < usableObjs objSize % 32)
    (hfill : i / 32 < nobjs objSize / 32 ∨
      (i / 32 = nobjs objSize / 32 ∧ i % 32 + nobjs objSize % 32 < 32)) :
    bitAt (newPageMem mem bm objSize) bm i = true := by
  rw [bitAt_newPageMem, decide_eq_false hwhole, decide_eq_false hmask]
  rcases hfill with h | h <;> simp [h]

/-- With at most 16 bits in the last word, `bitmap_fill` sets all of them, and
the bits of the lost objects stay set. -/
theorem bitAt_newPageMem_reserved (mem : Words) (bm : Nat) (hfill : nobjs objSize % 32 ≤ 16)
    (hlo : usableObjs objSize ≤ i) (hhi : i < nobjs objSize) :
    bitAt (newPageMem mem bm objSize) bm i = true :=
  bitAt_newPageMem_filled mem bm (by omega) (by omega) (by omega)

theorem bitAt_newPageMem_missed (mem : Words) (bm : Nat)
    (hlost : usableObjs objSize < nobjs objSize) (hfill : 16 < nobjs objSize % 32)
    (hclear : bitAt mem bm (nobjs objSize - 1) = false) :
    bitAt (newPageMem mem bm objSize) bm (nobjs objSize - 1) = false := by
  rw [bitAt_newPageMem]
  have h1 : ¬ nobjs objSize - 1 = usableObjs objSize - 1 := by omega
  have h2 : ¬ (nobjs objSize - 1) / 32 < nobjs objSize / 32 := by omega
  have h3 : ¬ ((nobjs objSize - 1) / 32 = nobjs objSize / 32 ∧
      (nobjs objSize - 1) % 32 + nobjs objSize % 32 < 32) := by omega
  simp [h1, h2, h3, hclear]

/-- `bitmap_zero` masks the first word where the last one is due.  From 32 usable objects on
the bits it should have cleared there stay set, but for the slice that is returned. -/
theorem bitAt_newPageMem_stuck (mem : Words) (bm : Nat) (hacc : AcceptedSize objSize)
    (hstuck : 32 ≤ usableObjs objSize) :
    bitAt (newPageMem mem bm objSize) bm (32 * (usableObjs objSize / 32)) = true := by
  have hle := usableObjs_le hacc
  exact bitAt_newPageMem_filled mem bm (by omega) (by omega) (by omega)

/-- Where no such bit is left, the slice that is returned has the only bit that is set among
those of the usable objects. -/
theorem bitAt_newPageMem_clean (mem : Words) (bm : Nat)
    (hclean : usableObjs objSize < 32 ∨ usableObjs objSize % 32 ≤ 1) (hi : i < usableObjs objSize)
    (hne : i ≠ usableObjs objSize - 1) : bitAt (newPageMem mem bm objSize) bm i = false := by
  rw [bitAt_newPageMem, decide_eq_false hne]
  have hcleared : i / 32 < usableObjs objSize / 32 ∨ i < usableObjs objSize % 32 := by omega
  rcases hcleared with h | h <;> simp [h]

theorem bitAt_newPageMem_zero (mem : Words) (bm : Nat) (hacc : AcceptedSize objSize) :
    bitAt (newPageMem mem bm objSize) bm 0 = false := by
  have htwo := two_le_usableObjs hacc
  rw [bitAt_newPageMem, decide_eq_false (by omega)]
  have hcleared : 0 / 32 < usableObjs objSize / 32 ∨ 0 < usableObjs objSize % 32 := by omega
  rcases hcleared with h | h <;> simp [h]

end Koowaldah
