import Koowaldah.Slice.Isolation

/-!
# The lists of a pool, and its end

`slice_alloc` and `slice_free` stop the kernel when a page is on the wrong list, and
`slice_pool_recycle` when a page is left.  The lists are right in every state of
`PoolInv`; what can go wrong is that `slice_pool_shrink` gives back too much or too little.
It looks at the bits of the usable objects only, and not all of these need be clear in a page
without slices, nor need a page without them be empty.
-/

namespace Koowaldah

open SysLib SysLib.Dyadic

variable {Pin : Nat → Prop} {objSize lo hi : Nat} {s : SliceSys}

/-! ## What shrinking leaves -/

theorem shrinkLoop_pagesInactive : ∀ (ps : List Nat) (h : SliceHeap),
    (shrinkLoop ps h).pool.pagesInactive = h.pool.pagesInactive
  | [], _ => rfl
  | pg :: rest, h => by
    rcases shrinkLoop_cons pg rest h with ⟨-, heq⟩ | ⟨-, heq⟩
    · rw [heq, shrinkLoop_pagesInactive rest]
      rfl
    · rw [heq, shrinkLoop_pagesInactive rest]

theorem shrinkLoop_of_unset : ∀ (ps : List Nat) (h : SliceHeap), h.pool.pagesActive = ps →
    (∀ pg ∈ ps, ∀ i < usableObjs h.pool.objSize, h.bit pg i = false) →
    (shrinkLoop ps h).pool.pagesActive = []
  | [], _, hactive, _ => hactive
  | pg :: rest, h, hactive, hunset => by
    have hsame : h.zone.SamePages (h.dropPage pg).zone := freePages_samePages h.zone pg
    rcases shrinkLoop_cons pg rest h with ⟨-, heq⟩ | ⟨⟨i, hi, hbit⟩, -⟩
    · rw [heq]
      refine shrinkLoop_of_unset rest (h.dropPage pg) ?_ ?_
      · show h.pool.pagesActive.erase pg = rest
        rw [hactive, List.erase_cons_head]
      · intro q hq i hi
        rw [SliceHeap.bit_congr hsame rfl rfl]
        exact hunset q (List.mem_cons_of_mem pg hq) i hi
    · rw [hunset pg List.mem_cons_self i hi] at hbit
      cases hbit

theorem shrinkLoop_of_set : ∀ (ps : List Nat) (h : SliceHeap),
    (∀ pg ∈ ps, ∃ i < usableObjs h.pool.objSize, h.bit pg i = true) → shrinkLoop ps h = h
  | [], _, _ => rfl
  | pg :: rest, h, hset => by
    rcases shrinkLoop_cons pg rest h with ⟨hunset, -⟩ | ⟨-, heq⟩
    · obtain ⟨i, hi, hbit⟩ := hset pg List.mem_cons_self
      rw [hunset i hi] at hbit
      cases hbit
    · rw [heq]
      exact shrinkLoop_of_set rest h (fun q hq => hset q (List.mem_cons_of_mem pg hq))

section Calls

variable {Pin Own : Nat → Prop} {objSize lo hi : Nat} {s : SliceSys}

theorem PoolInv.unset (hacc : AcceptedSize objSize)
    (h : PoolInv Pin (fun i => i < usableObjs objSize) objSize lo hi s)
    (hout : ∀ pg, ∀ i < usableObjs objSize, s.heap.object pg i ∉ s.slices) :
    ∀ pg ∈ s.heap.pool.pages, ∀ i < usableObjs objSize, s.heap.bit pg i = false := by
  intro pg hpg i hi
  have hin := Nat.lt_of_lt_of_le hi (usableObjs_le hacc)
  rw [← Bool.not_eq_true]
  exact fun hbit => hout pg i hi (h.owned pg hpg i hin hi hbit)

theorem slicePoolShrink_pages (hacc : AcceptedSize objSize)
    (h : PoolInv Pin (fun i => i < usableObjs objSize) objSize lo hi s)
    (hout : ∀ pg, ∀ i < usableObjs objSize, s.heap.object pg i ∉ s.slices) :
    s.heap.pool.pagesInactive = [] ∧ (slicePoolShrink s.heap).pool.pages = [] := by
  have hunset := h.unset hacc hout
  have hinactive : s.heap.pool.pagesInactive = [] := by
    refine List.eq_nil_iff_forall_not_mem.mpr ?_
    intro pg hpg
    -- a page with all its bits set has its first one set
    have hbit := h.inactive pg hpg 0 (nobjs_pos hacc)
    rw [hunset pg (List.mem_append_right _ hpg) 0 (usableObjs_pos hacc)] at hbit
    cases hbit
  have hactive : (slicePoolShrink s.heap).pool.pagesActive = [] := by
    refine shrinkLoop_of_unset _ _ rfl ?_
    intro pg hpg
    rw [h.size]
    exact hunset pg (List.mem_append_left _ hpg)
  refine ⟨hinactive, ?_⟩
  unfold SlicePool.pages
  rw [hactive, slicePoolShrink, shrinkLoop_pagesInactive, hinactive]
  rfl

theorem slicePoolShrink_of_set (hacc : AcceptedSize objSize) (h : PoolInv Pin Own objSize lo hi s)
    (hpin : ∃ i < usableObjs objSize, Pin i) : slicePoolShrink s.heap = s.heap := by
  obtain rfl := h.size
  obtain ⟨i, hi, hpin⟩ := hpin
  refine shrinkLoop_of_set _ _ ?_
  intro pg hpg
  have hin := Nat.lt_of_lt_of_le hi (usableObjs_le hacc)
  exact ⟨i, hi, h.pinned pg (List.mem_append_left _ hpg) i hin hpin⟩

/-! ## The lists -/

/-- Every active page has a clear bit, every inactive one has none and no page is on both
lists, so no call reaches `bug ()`. -/
structure SliceSys.ListsOk (s : SliceSys) : Prop where
  active : ∀ pg ∈ s.heap.pool.pagesActive,
    ∃ i < PAGE_SIZE / s.heap.pool.objSize, s.heap.bit pg i = false
  inactive : ∀ pg ∈ s.heap.pool.pagesInactive,
    ∀ i < PAGE_SIZE / s.heap.pool.objSize, s.heap.bit pg i = true
  disjoint : ∀ pg ∈ s.heap.pool.pagesActive, pg ∉ s.heap.pool.pagesInactive
  alloc : sliceAlloc s.heap ≠ none
  free : ∀ a ∈ s.slices, sliceFree s.heap a ≠ none

theorem PoolInv.listsOk (hpos : 0 < objSize) (h : PoolInv Pin Own objSize lo hi s) : s.ListsOk := by
  obtain rfl := h.size
  refine ⟨h.active, h.inactive, fun _ hpg => h.disjoint hpg, ?_, ?_⟩
  · rcases s.heap.sliceAlloc_cases with ⟨pg, hpg, hfull, -⟩ | ⟨h', slice, hsome, -⟩
    · obtain ⟨i, hi, hbit⟩ := h.active pg hpg
      rw [hfull i hi] at hbit
      cases hbit
    · rw [hsome]
      exact nofun
  · intro a ha
    obtain ⟨h', hsome, -, -⟩ := h.free hpos ha
    rw [hsome]
    exact nofun

theorem PoolInv.run_free (hpos : 0 < objSize) : ∀ (l : List Nat) {s : SliceSys}, l.Nodup →
    (∀ a ∈ l, a ∈ s.slices) → PoolInv Pin Own objSize lo hi s →
    ∃ s', run SliceSys.call s (l.map .free) = some s' ∧ PoolInv Pin Own objSize lo hi s' ∧
      ∀ a, a ∈ s'.slices ↔ a ∈ s.slices ∧ a ∉ l
  | [], s, _, _, h => ⟨s, rfl, h, by simp⟩
  | a :: l, s, hnodup, hlive, h => by
    obtain ⟨hnot, hnodup⟩ := List.nodup_cons.mp hnodup
    have ha := hlive a List.mem_cons_self
    obtain ⟨h', hfree, -, hinv⟩ := h.free hpos ha
    have hcall : s.call (.free a) = some ⟨h', s.live, s.slices.erase a⟩ := by
      simp [SliceSys.call, ha, hfree]
    have hrest : ∀ b ∈ l, b ∈ s.slices.erase a := by
      intro b hb
      have hne : b ≠ a := fun heq => hnot (heq ▸ hb)
      exact (List.mem_erase_of_ne hne).mpr (hlive b (List.mem_cons_of_mem a hb))
    obtain ⟨s', hrun, hinv', hmem⟩ := PoolInv.run_free hpos l hnodup hrest hinv
    refine ⟨s', run_cons_eq_some.mpr ⟨_, hcall, hrun⟩, hinv', ?_⟩
    intro b
    rw [hmem, h.nodup.mem_erase_iff, List.mem_cons]
    tauto

end Calls

/-- The calls of a user of one pool that touch no memory. -/
def SliceCall.AllocOrFree : SliceCall → Prop
  | .alloc => True
  | .free _ => True
  | _ => False

instance : DecidablePred SliceCall.AllocOrFree
  | .alloc => isTrue trivial
  | .free _ => isTrue trivial
  | .shrink => isFalse id
  | .pageAlloc _ => isFalse id
  | .pageFree _ => isFalse id
  | .store _ _ => isFalse id

theorem PoolInv.run_allocOrFree {Own : Nat → Prop} {s' : SliceSys} {calls : List SliceCall}
    (hacc : AcceptedSize objSize) (hfresh : FreshBits Pin Own objSize)
    (h : PoolInv Pin Own objSize lo hi s) (hcalls : ∀ c ∈ calls, c.AllocOrFree)
    (hrun : run SliceSys.call s calls = some s') :
    PoolInv Pin Own objSize lo hi s' ∧ s'.live = s.live := by
  have hmeets : Meets SliceSys.call (fun _ c => c.AllocOrFree) s calls :=
    meets_of_forall (fun c hc _ => hcalls c hc)
  refine run_invariant_of_meets (fun t => PoolInv Pin Own objSize lo hi t ∧ t.live = s.live) ?_
    ⟨h, rfl⟩ hmeets hrun
  rintro t c t' ⟨ht, hlive⟩ hc hcall
  have hshrink : c = .shrink → PinsPages Pin objSize := by
    intro heq
    rw [heq] at hc
    exact hc.elim
  have hoff : t.OffBitmaps c := by
    cases c <;> trivial
  refine ⟨ht.call hacc hfresh hshrink hoff hcall, ?_⟩
  cases c with
  | alloc =>
    obtain ⟨_, -, rfl⟩ := Option.map_eq_some_iff.mp hcall
    exact hlive
  | free a =>
    simp only [SliceSys.call] at hcall
    split at hcall
    · obtain ⟨_, -, rfl⟩ := Option.map_eq_some_iff.mp hcall
      exact hlive
    · cases hcall
  | _ => exact hc.elim

/-! ## Runs that give back the page of a slice -/

theorem SliceHeap.object_mod {h : SliceHeap} {pg i : Nat} (haligned : PAGE_SIZE ∣ h.zone.base)
    (hpos : 0 < h.pool.objSize) (hi : i < nobjs h.pool.objSize) :
    h.object pg i % PAGE_SIZE = i * h.pool.objSize := by
  have hfits := object_fits hi
  unfold object pageToAddr
  unfold PAGE_SIZE at *
  omega

theorem sliceFree_of_no_pages {h : SliceHeap} (hpages : h.pool.pages = []) (slice : Nat) :
    sliceFree h slice = none := by
  obtain ⟨hactive, hinactive⟩ := List.append_eq_nil_iff.mp hpages
  simp [sliceFree, hactive, hinactive]

/-- When a page gives out its last object although that gave way to the bitmap, the others
can be given back, the page taken by `slice_pool_shrink`, and the last slice not be freed. -/
theorem exists_lost_slice (hacc : AcceptedSize objSize)
    (hfit : PAGE_SIZE % objSize < bitmapSize (nobjs objSize)) (hfill : 16 < nobjs objSize % 32)
    (hclean : usableObjs objSize < 32 ∨ usableObjs objSize % 32 ≤ 1) :
    ∃ calls s s', sliceStart (rawZone 4) (fun _ => 0#32) objSize = some s ∧
      Meets SliceSys.call SliceSys.OffBitmaps s calls ∧ run SliceSys.call s calls = some s' ∧
      ∃ a ∈ s'.slices, sliceFree s'.heap a = none := by
  have hlost := (usableObjs_of_not_fits hacc hfit).1
  -- the page is filled up to its last object
  obtain ⟨s, s₁, hstart, hfirst, hfilling⟩ := sliceStart_filling hacc hfit hfill
  obtain ⟨k, t, hrun, hobj, hin⟩ :=
    hfilling.run_alloc (nobjs_pos hacc) (nobjs objSize - 1) 0 s₁ (Nat.zero_add _)
  have hrun₁ : run SliceSys.call s (List.replicate (k + 1) .alloc) = some t :=
    run_cons_eq_some.mpr ⟨s₁, hfirst, hrun⟩
  have hallocs : ∀ c ∈ List.replicate (k + 1) SliceCall.alloc, c.AllocOrFree := by
    intro c hc
    rw [List.eq_of_mem_replicate hc]
    trivial
  have hinv := ((sliceStart_poolInv _ _ (Nat.dvd_zero _) (by decide) hstart).run_allocOrFree hacc
    (freshBits_clean hclean) hallocs hrun₁).1
  generalize ha : pageToAddr t.heap.zone 3 + (nobjs objSize - 1) * objSize = a at hin
  have hmod : a % PAGE_SIZE = (nobjs objSize - 1) * objSize := by
    rw [← ha, ← hobj]
    rw [← hobj] at hlost
    exact SliceHeap.object_mod hinv.aligned (hobj ▸ hacc.1) (by omega)
  -- all the other slices are given back
  have hothers : ∀ b ∈ t.slices.erase a, b ∈ t.slices := fun b hb => List.mem_of_mem_erase hb
  obtain ⟨u, hrun₂, hinv', hmem⟩ := hinv.run_free hacc.1 (t.slices.erase a)
    (hinv.nodup.erase a) hothers
  have honly : ∀ b, b ∈ u.slices ↔ b = a := by
    intro b
    rw [hmem, hinv.nodup.mem_erase_iff]
    constructor
    · rintro ⟨hb, hnot⟩
      by_contra hne
      exact hnot ⟨hne, hb⟩
    · rintro rfl
      exact ⟨hin, fun h => h.1 rfl⟩
  have hout : ∀ pg, ∀ i < usableObjs objSize, u.heap.object pg i ∉ u.slices := by
    intro pg i hi hb
    obtain rfl := hinv'.size
    have hmod' : u.heap.object pg i % PAGE_SIZE = i * u.heap.pool.objSize :=
      SliceHeap.object_mod hinv'.aligned hacc.1 (Nat.lt_trans hi hlost)
    rw [(honly _).mp hb, hmod] at hmod'
    have heq := Nat.eq_of_mul_eq_mul_right hacc.1 hmod'
    omega
  have hpages := (slicePoolShrink_pages hacc hinv' hout).2
  refine ⟨List.replicate (k + 1) .alloc ++ ((t.slices.erase a).map .free ++ [.shrink]), s,
    { u with heap := slicePoolShrink u.heap }, hstart, ?_, ?_, a, (honly a).mpr rfl,
    sliceFree_of_no_pages hpages a⟩
  · refine meets_of_forall (fun c hc s' => ?_)
    simp only [List.mem_append, List.mem_replicate, List.mem_map, List.mem_singleton] at hc
    rcases hc with ⟨-, rfl⟩ | ⟨b, -, rfl⟩ | rfl <;> trivial
  · exact run_append_eq_some.mpr ⟨t, hrun₁, run_append_eq_some.mpr ⟨u, hrun₂, rfl⟩⟩

theorem exists_pins (hacc : AcceptedSize objSize)
    (hcond : bitmapSize (nobjs objSize) ≤ PAGE_SIZE % objSize ∨ nobjs objSize % 32 ≤ 16 ∨
      (32 ≤ usableObjs objSize ∧ 2 ≤ usableObjs objSize % 32)) :
    ∃ Pin, FreshBits Pin (fun _ => False) objSize ∧ PinsPages Pin objSize := by
  have hreserved : usableObjs objSize = nobjs objSize ∨ nobjs objSize % 32 ≤ 16 →
      ∃ Pin, FreshBits Pin (fun _ => False) objSize ∧ PinsPages Pin objSize :=
    fun h => ⟨_, freshBits_reserved hacc h, Or.inr (fun _ _ hnot => Nat.lt_of_not_le hnot)⟩
  rcases hcond with hfits | hfill | ⟨hstuck, hmod⟩
  · exact hreserved (Or.inl (usableObjs_of_fits hfits))
  · exact hreserved (Or.inr hfill)
  · exact ⟨_, freshBits_stuck hacc hstuck hmod, Or.inl ⟨_, by omega, rfl⟩⟩

/-- The lists are consistent in every run whose stores leave the bitmaps alone, whatever the
zone, the memory and the calls, exactly when the objects that give way to the bitmap are kept
back or the pages are. -/
theorem sliceRun_listsOk_iff (objSize : Nat) (hacc : AcceptedSize objSize) :
    (∀ (z : Zone) (mem : Words) (s s' : SliceSys) (calls : List SliceCall),
      PAGE_SIZE ∣ z.base → consumedPages z.totalPages < z.totalPages →
      sliceStart z mem objSize = some s → Meets SliceSys.call SliceSys.OffBitmaps s calls →
      run SliceSys.call s calls = some s' → s'.ListsOk) ↔
    bitmapSize (PAGE_SIZE / objSize) ≤ PAGE_SIZE % objSize ∨
      PAGE_SIZE / objSize % BITS_PER_LONG ≤ 16 ∨
      (BITS_PER_LONG ≤ usableObjs objSize ∧ 2 ≤ usableObjs objSize % BITS_PER_LONG) := by
  constructor
  · intro hall
    by_contra hnot
    rw [not_or, not_or, not_le, not_le] at hnot
    obtain ⟨hfit, hfill, hclean⟩ := hnot
    unfold BITS_PER_LONG at hfill hclean
    obtain ⟨calls, s, s', hstart, hmeets, hrun, a, ha, hbug⟩ :=
      exists_lost_slice hacc hfit hfill (by omega)
    have hok := hall (rawZone 4) _ s s' calls (Nat.dvd_zero _) (by decide) hstart hmeets hrun
    exact hok.free a ha hbug
  · intro hcond z mem s s' calls hbase hz hstart hmeets hrun
    obtain ⟨Pin, hfresh, hpins⟩ := exists_pins hacc hcond
    have hinv := run_invariant_of_meets
      (PoolInv Pin _ objSize (consumedPages z.totalPages) z.totalPages)
      (fun _ _ _ h hoff hc => h.call hacc hfresh (fun _ => hpins) hoff hc)
      (sliceStart_poolInv _ _ hbase hz hstart) hmeets hrun
    exact hinv.listsOk hacc.1

theorem sliceRun_listsOk_64 :
    AcceptedSize 64 ∧ ∀ (z : Zone) (mem : Words) (s s' : SliceSys) (calls : List SliceCall),
      PAGE_SIZE ∣ z.base → consumedPages z.totalPages < z.totalPages →
      sliceStart z mem 64 = some s → Meets SliceSys.call SliceSys.OffBitmaps s calls →
      run SliceSys.call s calls = some s' → s'.ListsOk :=
  ⟨by decide, (sliceRun_listsOk_iff 64 (by decide)).mpr (Or.inr (Or.inl (by decide)))⟩

/-- Objects of 195 bytes: after 21 calls of `slice_alloc` over zeroes the 20 usable objects are
given back and the pool is shrunk.  The page of the last slice is gone. -/
theorem slice_195_lists_wrong : AcceptedSize 195 ∧
      ∃ s s', sliceStart (rawZone 4) (fun _ => 0#32) 195 = some s ∧
        run SliceSys.call s (List.replicate 21 .alloc ++
          ((List.range 20).map (fun i => .free (3 * PAGE_SIZE + i * 195)) ++ [.shrink])) =
            some s' ∧
        3 * PAGE_SIZE + 20 * 195 ∈ s'.slices ∧
        sliceFree s'.heap (3 * PAGE_SIZE + 20 * 195) = none ∧ ¬ s'.ListsOk := by
  refine ⟨by decide, (sliceStart (rawZone 4) (fun _ => 0#32) 195).get (by decide), ?_⟩
  refine ⟨Option.get _ ?_, (Option.some_get _).symm, (Option.some_get _).symm, ?_⟩
  · decide +kernel
  · refine ⟨?live, Option.isNone_iff_eq_none.mp ?bug,
      fun hok => hok.free _ ?live (Option.isNone_iff_eq_none.mp ?bug)⟩
    · decide +kernel
    · decide +kernel

/-! ## The end of a pool -/

theorem slicePoolRecycle_of_clean (hacc : AcceptedSize objSize) (hlo : 0 < lo)
    (h : PoolInv Pin (fun i => i < usableObjs objSize) objSize lo hi s) (hnone : s.slices = []) :
    ∃ z', slicePoolRecycle s.heap = some z' ∧ BuddyInv z' lo hi s.live := by
  have hout : ∀ a, a ∉ s.slices := by
    rw [hnone]
    exact fun _ => List.not_mem_nil
  obtain ⟨hinactive, hpages⟩ := slicePoolShrink_pages hacc h (fun _ _ _ => hout _)
  have hshrunk : PoolInv Pin _ objSize lo hi { s with heap := slicePoolShrink s.heap } :=
    shrinkLoop_inv (fun _ _ _ _ _ _ _ => hout _) _ _ (List.nodup_append.mp h.pages_nodup).1
      (fun _ hp => hp) h
  have hactive := (List.append_eq_nil_iff.mp hpages).1
  have hbuddy := hshrunk.buddy
  unfold SliceSys.held at hbuddy
  rw [hpages] at hbuddy
  -- the page of the pool itself is the last one
  obtain ⟨hge, hlt⟩ := hbuddy.start_bounds List.mem_cons_self
  refine ⟨freePages (slicePoolShrink s.heap).zone (slicePoolShrink s.heap).pool.page, ?_,
    freePages_buddy hbuddy⟩
  unfold slicePoolRecycle
  simp only [hinactive, hactive]
  exact putPages_pageToAddr (Nat.lt_of_lt_of_le hlo hge) (Nat.lt_of_lt_of_le hlt hshrunk.total)

theorem slicePoolRecycle_of_pinned {Own : Nat → Prop} (hacc : AcceptedSize objSize)
    (h : PoolInv Pin Own objSize lo hi s) (hpin : ∃ i < usableObjs objSize, Pin i)
    (hpages : s.heap.pool.pages ≠ []) : slicePoolRecycle s.heap = none := by
  unfold slicePoolRecycle
  simp only [slicePoolShrink_of_set hacc h hpin]
  by_cases hinactive : s.heap.pool.pagesInactive = []
  · have hactive : s.heap.pool.pagesActive ≠ [] := by
      intro hactive
      exact hpages (List.append_eq_nil_iff.mpr ⟨hactive, hinactive⟩)
    simp [hactive]
  · simp [hinactive]

/-- A pool on a zone of four pages takes one, gives back the slice and keeps the page. -/
theorem exists_kept_page (hacc : AcceptedSize objSize) (hstuck : 32 ≤ usableObjs objSize)
    (hmod : 2 ≤ usableObjs objSize % 32) :
    ∃ h calls s', slicePoolCreate (memZoneInit (rawZone 4)) (fun _ => 0#32) objSize = some h ∧
      (∀ c ∈ calls, c.AllocOrFree) ∧ run SliceSys.call ⟨h, [], []⟩ calls = some s' ∧
      s'.slices = [] ∧ slicePoolRecycle s'.heap = none := by
  obtain ⟨h, hcreate, -, rfl, hactive, hpg⟩ := slicePoolCreate_rawZone hacc (fun _ => 0#32)
  have hinv := slicePoolCreate_inv (fun i => i = 32 * (usableObjs h.pool.objSize / 32))
    (fun _ => False) (Nat.dvd_zero _) (Nat.le_refl 4) (memZoneInit_buddy (rawZone 4) (by decide))
    hcreate
  have halloc := call_alloc_startPage (s := ⟨h, [], []⟩) hactive hpg
  have hinv₁ := hinv.startPage hacc (freshBits_stuck hacc hstuck hmod) hactive hpg
  generalize (h.startPage 3).object 3 (usableObjs h.pool.objSize - 1) = a at halloc hinv₁
  obtain ⟨h', hfree, hperm, hinv₂⟩ := hinv₁.free hacc.1 List.mem_cons_self
  have hrun : run SliceSys.call ⟨h, [], []⟩ [.alloc, .free a] = some ⟨h', [], []⟩ := by
    refine run_cons_eq_some.mpr ⟨_, halloc, ?_⟩
    simp [run_cons, SliceSys.call, hfree]
  have hpages : h'.pool.pages ≠ [] := by
    intro hnil
    rw [hnil] at hperm
    cases hperm.symm.eq_nil
  have hpin : 32 * (usableObjs h.pool.objSize / 32) < usableObjs h.pool.objSize := by omega
  have hbug := slicePoolRecycle_of_pinned hacc hinv₂ ⟨_, hpin, rfl⟩ hpages
  refine ⟨h, [.alloc, .free a], ⟨h', [], []⟩, hcreate, ?_, hrun, rfl, hbug⟩
  simp [SliceCall.AllocOrFree]

/-- A pool without slices can be recycled and leaves the zone as it was, after any calls of
`slice_alloc` and `slice_free` and over any memory, exactly when `bitmap_zero` misses no bit of a
usable object but that of the slice a new page returns. -/
theorem slicePool_recycles_iff (objSize : Nat) (hacc : AcceptedSize objSize) :
    (∀ (z : Zone) (live : List Block) (mem : Words) (h : SliceHeap) (calls : List SliceCall)
      (s' : SliceSys), PAGE_SIZE ∣ z.base →
      BuddyInv z (consumedPages z.totalPages) z.totalPages live →
      slicePoolCreate z mem objSize = some h → (∀ c ∈ calls, c.AllocOrFree) →
      run SliceSys.call ⟨h, live, []⟩ calls = some s' → s'.slices = [] →
      ∃ z', slicePoolRecycle s'.heap = some z' ∧ freePageSet z' = freePageSet z) ↔
    usableObjs objSize < BITS_PER_LONG ∨ usableObjs objSize % BITS_PER_LONG ≤ 1 := by
  constructor
  · intro hall
    by_contra hnot
    unfold BITS_PER_LONG at hnot
    obtain ⟨h, calls, s', hcreate, hcalls, hrun, hnone, hbug⟩ :=
      exists_kept_page hacc (by omega) (by omega)
    obtain ⟨z', hsome, -⟩ := hall (memZoneInit (rawZone 4)) [] _ h calls s' (Nat.dvd_zero _)
      (memZoneInit_buddy (rawZone 4) (by decide)) hcreate hcalls hrun hnone
    rw [hbug] at hsome
    cases hsome
  · intro hclean z live mem h calls s' hbase hbuddy hcreate hcalls hrun hnone
    have hinv := slicePoolCreate_inv (fun _ => False) (fun i => i < usableObjs objSize) hbase
      (Nat.le_refl _) hbuddy hcreate
    obtain ⟨hinv', hlive⟩ := hinv.run_allocOrFree hacc (freshBits_clean hclean) hcalls hrun
    obtain ⟨z', hsome, hbuddy'⟩ := slicePoolRecycle_of_clean hacc (Nat.succ_pos _) hinv' hnone
    refine ⟨z', hsome, ?_⟩
    ext x
    rw [hbuddy'.mem_freePageSet_iff, hlive]
    exact hbuddy.mem_freePageSet_iff.symm

theorem slicePool_recycles_132 :
    AcceptedSize 132 ∧ ∀ (z : Zone) (live : List Block) (mem : Words) (h : SliceHeap)
      (calls : List SliceCall) (s' : SliceSys), PAGE_SIZE ∣ z.base →
      BuddyInv z (consumedPages z.totalPages) z.totalPages live →
      slicePoolCreate z mem 132 = some h → (∀ c ∈ calls, c.AllocOrFree) →
      run SliceSys.call ⟨h, live, []⟩ calls = some s' → s'.slices = [] →
      ∃ z', slicePoolRecycle s'.heap = some z' ∧ freePageSet z' = freePageSet z :=
  ⟨by decide, (slicePool_recycles_iff 132 (by decide)).mpr (Or.inl (by decide))⟩

/-- Objects of 64 bytes: one slice is taken and given back, and the pool cannot be
recycled. -/
theorem slicePool_64_kept : AcceptedSize 64 ∧ ∃ h s',
      slicePoolCreate (memZoneInit (rawZone 4)) (fun _ => 0#32) 64 = some h ∧
      run SliceSys.call ⟨h, [], []⟩ [.alloc, .free (3 * PAGE_SIZE + 62 * 64)] = some s' ∧
      s'.slices = [] ∧ slicePoolRecycle s'.heap = none := by
  refine ⟨by decide,
    (slicePoolCreate (memZoneInit (rawZone 4)) (fun _ => 0#32) 64).get (by decide), ?_⟩
  refine ⟨Option.get _ ?_, (Option.some_get _).symm, (Option.some_get _).symm, ?_,
    Option.isNone_iff_eq_none.mp ?_⟩
  · decide +kernel
  · decide +kernel
  · decide +kernel

end Koowaldah
