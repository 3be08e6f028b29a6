import Koowaldah.Slice.Pool

/-!
# Isolation of slices

The slices that are live at any time are to be disjoint, and to lie before the
bitmap of their page.  The search of `slice_alloc` runs over the bits of all
the objects, so this rests on the bits of the objects that gave way to the
bitmap being set.  `SliceInv` states it, and every call keeps it as long as a
new page has it: it is the invariant of the pool with those objects pinned
(`PoolInv.sliceInv`).

A new page need not have it.  `bitmap_fill` misses the last bit when more than
16 bits are in the last word, and then the bit is whatever the page held
before.  `sliceRun_isolated_iff` says for which object sizes that matters:
those where the bitmap does not fit the gap after the objects.
-/

namespace Koowaldah

open SysLib SysLib.Dyadic

/-! ## The invariant -/

/-- A slice is a usable object of a page of the pool, and its bit is set. -/
def SliceHeap.Slot (h : SliceHeap) (a : Nat) : Prop :=
  ∃ pg ∈ h.pool.pages, ∃ i < usableObjs h.pool.objSize,
    a = pageToAddr h.zone pg + i * h.pool.objSize ∧ h.bit pg i = true

/-- The zone has handed out the pages of the pool, the bits of the objects that
gave way to a bitmap are set, and the slices are distinct objects whose bits
are set. -/
structure SliceInv (objSize lo hi : Nat) (s : SliceSys) : Prop where
  size : s.heap.pool.objSize = objSize
  aligned : PAGE_SIZE ∣ s.heap.zone.base
  buddy : BuddyInv s.heap.zone lo hi s.held
  reserved : ∀ pg ∈ s.heap.pool.pages, ∀ i, usableObjs objSize ≤ i →
    i < nobjs objSize → s.heap.bit pg i = true
  slot : ∀ a ∈ s.slices, s.heap.Slot a
  nodup : s.slices.Nodup

section Calls

variable {objSize lo hi : Nat} {s : SliceSys}

theorem SliceInv.isolated (hacc : AcceptedSize objSize) (h : SliceInv objSize lo hi s) :
    s.Isolated := by
  have hsize := h.size
  constructor
  · refine h.nodup.imp_of_mem ?_
    intro a b ha hb hne
    rcases h.slot a ha with ⟨pg, -, i, hi, hai, -⟩
    rcases h.slot b hb with ⟨pg', -, j, hj, hbj, -⟩
    rw [hsize] at hi hj hai hbj ⊢
    have hfi := usable_object_fits hacc hi
    have hfj := usable_object_fits hacc hj
    by_cases hpg : pg = pg'
    · subst hpg
      have hij : i ≠ j := fun hij => hne (by rw [hai, hbj, hij])
      rcases Nat.lt_or_gt_of_ne hij with hlt | hlt
      · have := Nat.mul_le_mul_right objSize (Nat.lt_iff_add_one_le.mp hlt)
        rw [Nat.add_mul] at this
        omega
      · have := Nat.mul_le_mul_right objSize (Nat.lt_iff_add_one_le.mp hlt)
        rw [Nat.add_mul] at this
        omega
    · unfold pageToAddr PAGE_SIZE at *
      omega
  · intro a ha
    rcases h.slot a ha with ⟨pg, hpg, i, hi, hai, -⟩
    refine ⟨pg, hpg, ?_⟩
    rw [hsize] at hi hai ⊢
    have hfit : i * objSize + objSize + bitmapSize (PAGE_SIZE / objSize) ≤ PAGE_SIZE :=
      usable_object_fits hacc hi
    omega

theorem PoolInv.sliceInv {Own : Nat → Prop}
    (h : PoolInv (fun i => usableObjs objSize ≤ i) Own objSize lo hi s) :
    SliceInv objSize lo hi s where
  size := h.size
  aligned := h.aligned
  buddy := h.buddy
  reserved pg hpg i hlo hhi := h.pinned pg hpg i hhi hlo
  slot a ha := by
    obtain ⟨pg, hpg, i, -, hnot, heq, hbit⟩ := h.slot a ha
    refine ⟨pg, hpg, i, ?_, heq.symm, hbit⟩
    rw [h.size]
    exact Nat.lt_of_not_le hnot
  nodup := h.nodup

theorem SliceInv.offBitmaps {s' : SliceSys} {c : SliceCall} (hacc : AcceptedSize objSize)
    (h : SliceInv objSize lo hi s) (hcall : s.call c = some s') : s.OffBitmaps c := by
  cases c with
  | store addr v =>
    obtain rfl := h.size
    have hsmall := bitmapSize_nobjs_le s.heap.pool.objSize
    simp only [SliceSys.call] at hcall
    split at hcall
    · rename_i haddr
      intro q hq
      rcases (Bool.or_eq_true _ _).mp haddr with hin | hout
      · simp only [SliceSys.inSlice, List.any_eq_true, Bool.and_eq_true, decide_eq_true_eq] at hin
        obtain ⟨a, ha, hlo, hhi⟩ := hin
        obtain ⟨pg, -, i, hi, hai, -⟩ := h.slot a ha
        have hfits := usable_object_fits hacc hi
        unfold pageToAddr PAGE_SIZE at *
        omega
      · simp only [SliceSys.inPool, Bool.not_eq_true', List.any_eq_false, Bool.and_eq_true,
          decide_eq_true_eq] at hout
        have := hout q hq
        unfold PAGE_SIZE at *
        omega
    · cases hcall
  | _ => trivial

end Calls

/-! ## Every run -/

theorem sliceRun_isolated {objSize : Nat} (hacc : AcceptedSize objSize)
    (hfill : usableObjs objSize = nobjs objSize ∨ nobjs objSize % 32 ≤ 16) {z : Zone} {mem : Words}
    {s s' : SliceSys} {calls : List SliceCall} (hbase : PAGE_SIZE ∣ z.base)
    (hz : consumedPages z.totalPages < z.totalPages) (hstart : sliceStart z mem objSize = some s)
    (hrun : run SliceSys.call s calls = some s') : s'.Isolated := by
  -- the lost objects are pinned, so the slices lie before the bitmaps and stores miss them
  have hpins : PinsPages (fun i => usableObjs objSize ≤ i) objSize :=
    Or.inr (fun _ _ hnot => Nat.lt_of_not_le hnot)
  have hinv := run_invariant (PoolInv _ _ objSize (consumedPages z.totalPages) z.totalPages)
    (fun _ _ _ h hc =>
      h.call hacc (freshBits_reserved hacc hfill) (fun _ => hpins)
        (h.sliceInv.offBitmaps hacc hc) hc)
    (sliceStart_poolInv _ _ hbase hz hstart) hrun
  exact hinv.sliceInv.isolated hacc

/-! ## Runs that hand out a lost object -/

section Lost

variable {objSize : Nat} {s : SliceSys} {pg : Nat}

/-- A pool with one active page whose last bit is clear, and the first `m`
bits set. -/
structure Filling (objSize pg m : Nat) (s : SliceSys) : Prop where
  size : s.heap.pool.objSize = objSize
  active : s.heap.pool.pagesActive = [pg]
  below : ∀ i, i < m → s.heap.bit pg i = true
  last : s.heap.bit pg (nobjs objSize - 1) = false

theorem call_alloc_active {number : Nat} {rest : List Nat}
    (hactive : s.heap.pool.pagesActive = pg :: rest)
    (hseek : bitmapSeekUnset s.heap.mem (bmask s.heap.zone pg (nobjs s.heap.pool.objSize))
      (nobjs s.heap.pool.objSize) = some number) :
    s.call .alloc = some ⟨s.heap.takeObject pg rest number, s.live,
      s.heap.object pg number :: s.slices⟩ := by
  show Option.map _ (sliceAlloc s.heap) = _
  unfold sliceAlloc
  simp only [hactive, hseek]
  rfl

theorem Filling.alloc {m : Nat} (hpos : 0 < nobjs objSize) (h : Filling objSize pg m s) :
    ∃ s', s.call .alloc = some s' ∧ s'.heap.pool.objSize = objSize ∧
      (pageToAddr s'.heap.zone pg + (nobjs objSize - 1) * objSize ∈ s'.slices ∨
        Filling objSize pg (m + 1) s') := by
  obtain rfl := h.size
  cases hseek : bitmapSeekUnset s.heap.mem (bmask s.heap.zone pg (nobjs s.heap.pool.objSize))
      (nobjs s.heap.pool.objSize) with
  | none =>
    have hset : s.heap.bit pg (nobjs s.heap.pool.objSize - 1) = true :=
      bitmapSeekUnset_none hseek _ (by omega)
    exact absurd (hset.symm.trans h.last) nofun
  | some number =>
    obtain ⟨hlt, hclear, hbefore⟩ := bitmapSeekUnset_some hseek
    have hbit := s.heap.takeObject_bit_self pg [] number
    refine ⟨_, call_alloc_active h.active hseek, s.heap.takeObject_objSize .., ?_⟩
    by_cases hnum : number = nobjs s.heap.pool.objSize - 1
    · left
      rw [← hnum]
      exact List.mem_cons_self
    · right
      have hlast : (s.heap.takeObject pg [] number).bit pg (nobjs s.heap.pool.objSize - 1) =
          false := by
        rw [hbit, h.last, decide_eq_false (fun heq => hnum heq.symm)]
        rfl
      obtain ⟨hall, -⟩ | ⟨-, hpool⟩ := s.heap.takeObject_cases pg [] number
      · exact absurd ((hall _ (by omega)).symm.trans hlast) nofun
      · -- the page stays active, since its last bit is still clear
        refine ⟨s.heap.takeObject_objSize .., ?_, ?_, hlast⟩
        · show (s.heap.takeObject pg [] number).pool.pagesActive = [pg]
          rw [hpool]
          exact h.active
        · intro i hi
          show (s.heap.takeObject pg [] number).bit pg i = true
          rw [hbit]
          by_cases hin : i = number
          · rw [decide_eq_true hin, Bool.true_or]
          · have hnm : m ≤ number := by
              by_contra hlt'
              exact absurd ((h.below number (by omega)).symm.trans hclear) nofun
            have hset : s.heap.bit pg i = true := hbefore i (by omega)
            rw [hset, Bool.or_true]

theorem Filling.run_alloc (hpos : 0 < nobjs objSize) : ∀ (d m : Nat) (s : SliceSys),
    m + d = nobjs objSize - 1 → Filling objSize pg m s →
    ∃ k s', run SliceSys.call s (List.replicate k .alloc) = some s' ∧
      s'.heap.pool.objSize = objSize ∧
      pageToAddr s'.heap.zone pg + (nobjs objSize - 1) * objSize ∈ s'.slices := by
  intro d
  induction d with
  | zero =>
    intro m s hm h
    rcases h.alloc hpos with ⟨s', hcall, hobj, hin | hmore⟩
    · exact ⟨1, s', run_cons_eq_some.mpr ⟨s', hcall, rfl⟩, hobj, hin⟩
    · -- all the bits below the last are set, and then the last one too
      have hset := hmore.below (nobjs objSize - 1) (by omega)
      rw [hmore.last] at hset
      exact Bool.noConfusion hset
  | succ d ih =>
    intro m s hm h
    rcases h.alloc hpos with ⟨s', hcall, hobj, hin | hmore⟩
    · exact ⟨1, s', run_cons_eq_some.mpr ⟨s', hcall, rfl⟩, hobj, hin⟩
    · rcases ih (m + 1) s' (by omega) hmore with ⟨k, t, hrun, ht⟩
      exact ⟨k + 1, t, run_cons_eq_some.mpr ⟨s', hcall, hrun⟩, ht⟩

/-- The last object runs into the bitmap when it gave way to it. -/
theorem not_isolated_of_lost (hsize : s.heap.pool.objSize = objSize) (hobj : 0 < objSize)
    (hpos : 0 < nobjs objSize) (hfit : PAGE_SIZE % objSize < bitmapSize (nobjs objSize))
    (hin : pageToAddr s.heap.zone pg + (nobjs objSize - 1) * objSize ∈ s.slices) :
    ¬ s.Isolated := by
  intro hiso
  rcases hiso.2 _ hin with ⟨q, -, hlo, hhi⟩
  rw [hsize] at hhi
  have hover : PAGE_SIZE < nobjs objSize * objSize + bitmapSize (PAGE_SIZE / objSize) :=
    lost_object_overlaps hfit
  have hgap := nobjs_mul_add_gap objSize
  have hmul : (nobjs objSize - 1) * objSize + objSize = nobjs objSize * objSize := by
    rw [← Nat.succ_mul]
    congr 1
    omega
  unfold pageToAddr PAGE_SIZE at *
  omega

end Lost

theorem slicePoolCreate_rawZone {objSize : Nat} (hacc : AcceptedSize objSize) (mem : Words) :
    ∃ h, slicePoolCreate (memZoneInit (rawZone 4)) mem objSize = some h ∧ h.mem = mem ∧
      h.pool.objSize = objSize ∧ h.pool.pagesActive = [] ∧
      (rawAllocPages h.zone 0).2 = some 3 := by
  have hsize : ¬ objSize > PAGE_SIZE / 2 - 4 := Nat.not_lt.mpr hacc.2
  have hfirst : (rawAllocPages (memZoneInit (rawZone 4)) 0).2 = some 1 := by decide
  have hnext : (rawAllocPages (rawAllocPages (memZoneInit (rawZone 4)) 0).1 0).2 = some 3 := by
    decide
  refine ⟨⟨(rawAllocPages (memZoneInit (rawZone 4)) 0).1, mem, ⟨1, [], [], objSize⟩⟩, ?_, rfl,
    rfl, rfl, hnext⟩
  unfold slicePoolCreate
  rw [if_neg hsize]
  simp only [hfirst, Option.map_some]

theorem call_alloc_startPage {s : SliceSys} {pg : Nat} (hactive : s.heap.pool.pagesActive = [])
    (hpg : (rawAllocPages s.heap.zone 0).2 = some pg) :
    s.call .alloc = some ⟨s.heap.startPage pg, s.live,
      (s.heap.startPage pg).object pg (usableObjs s.heap.pool.objSize - 1) :: s.slices⟩ := by
  show Option.map _ (sliceAlloc s.heap) = _
  unfold sliceAlloc
  simp only [hactive, hpg]
  rfl

theorem sliceStart_filling {objSize : Nat} (hacc : AcceptedSize objSize)
    (hfit : PAGE_SIZE % objSize < bitmapSize (nobjs objSize)) (hfill : 16 < nobjs objSize % 32) :
    ∃ s s', sliceStart (rawZone 4) (fun _ => 0#32) objSize = some s ∧
      s.call .alloc = some s' ∧ Filling objSize 3 0 s' := by
  obtain ⟨h, hcreate, hmem, rfl, hactive, hpg⟩ := slicePoolCreate_rawZone hacc (fun _ => 0#32)
  have hstart : sliceStart (rawZone 4) (fun _ => 0#32) h.pool.objSize = some ⟨h, [], []⟩ := by
    unfold sliceStart
    rw [hcreate]
    rfl
  refine ⟨_, _, hstart, call_alloc_startPage hactive hpg, rfl, rfl, ?_, ?_⟩
  · intro i hi
    exact absurd hi (Nat.not_lt_zero i)
  · refine bitAt_newPageMem_missed h.mem _ (usableObjs_of_not_fits hacc hfit).1 hfill ?_
    rw [hmem]
    exact BitVec.getLsbD_zero ..

/-- Slices are isolated in every run, whatever the zone, the memory and the
calls, exactly when the bitmap fits the gap after the objects of a page or at
most 16 of its bits are in its last word. -/
theorem sliceRun_isolated_iff (objSize : Nat) (hacc : AcceptedSize objSize) :
    (∀ (z : Zone) (mem : Words) (s s' : SliceSys) (calls : List SliceCall),
      PAGE_SIZE ∣ z.base → consumedPages z.totalPages < z.totalPages →
      sliceStart z mem objSize = some s → run SliceSys.call s calls = some s' →
      s'.Isolated) ↔
    bitmapSize (PAGE_SIZE / objSize) ≤ PAGE_SIZE % objSize ∨
      PAGE_SIZE / objSize % BITS_PER_LONG ≤ 16 := by
  constructor
  · intro hall
    by_contra hnot
    rw [not_or, not_le, not_le] at hnot
    have hpos := nobjs_pos hacc
    rcases sliceStart_filling hacc hnot.1 hnot.2 with ⟨s, s', hstart, hfirst, hfilling⟩
    rcases hfilling.run_alloc hpos (nobjs objSize - 1) 0 s' (Nat.zero_add _) with
      ⟨k, t, hrun, hobj, hin⟩
    have hrun' := run_cons_eq_some.mpr ⟨s', hfirst, hrun⟩
    exact not_isolated_of_lost hobj hacc.1 hpos hnot.1 hin
      (hall (rawZone 4) _ s t _ (Nat.dvd_zero _) (by decide) hstart hrun')
  · intro hcond z mem s s' calls hbase hz hstart hrun
    apply sliceRun_isolated hacc _ hbase hz hstart hrun
    rcases hcond with hfits | hfill
    · exact Or.inl (usableObjs_of_fits hfits)
    · exact Or.inr hfill

theorem sliceRun_isolated_64 :
    AcceptedSize 64 ∧ ∀ (z : Zone) (mem : Words) (s s' : SliceSys) (calls : List SliceCall),
      PAGE_SIZE ∣ z.base → consumedPages z.totalPages < z.totalPages →
      sliceStart z mem 64 = some s → run SliceSys.call s calls = some s' → s'.Isolated :=
  ⟨by decide, (sliceRun_isolated_iff 64 (by decide)).mpr (Or.inr (by decide))⟩

/-- Objects of 195 bytes: 21 fit a page, one gives way to the bitmap, and over
zeroes the 21st `slice_alloc` hands it out. -/
theorem slice_195_not_isolated : AcceptedSize 195 ∧
      ∃ s s', sliceStart (rawZone 4) (fun _ => 0#32) 195 = some s ∧
        run SliceSys.call s (List.replicate 21 .alloc) = some s' ∧ ¬ s'.Isolated := by
  refine ⟨by decide, (sliceStart (rawZone 4) (fun _ => 0#32) 195).get (by decide), ?_⟩
  refine ⟨Option.get _ ?_, (Option.some_get _).symm, (Option.some_get _).symm, ?_⟩
  · decide +kernel
  · decide +kernel

end Koowaldah
