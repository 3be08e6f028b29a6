import Koowaldah.MemArea.Copy
import Koowaldah.MemArea.Plist

/-!
# The range of an area and its pages

The pages of an area are to fill its range: there are `m_pages` of them, the range is that many
pages long, and every page address in it is the address of one of them.

* `Geometry` is that statement.  The range may go over the end of the address space, so its
  length and the addresses in it are taken modulo the word.
* `Filled` says the same with the addresses listed from `m_start` on, and is what the proofs
  work with: `Filled.geometry` and `Geometry.filled`.
* `Filled.addPage` and `Filled.removePage_iff` are the two operations.  A page that is added
  gets the address next to the range; for a page that is removed `__mem_area_remove_page` takes
  the last page address off the range, whatever the address of the page was.
* `areaRun_geometry_iff` puts them together for every sequence of calls.
-/

namespace Koowaldah

open Function SysLib SysLib.Dyadic SysLib.Links

namespace VmState

/-- The area has these pages, and they fill its range. -/
structure Geometry (s : VmState) (a : Nat) (r : MemArea) (pages : List Nat) : Prop where
  record : s.areas a = some r
  plist : s.PlistIs a pages
  count : r.mPages = pages.length
  size : subWord r.mEnd r.mStart = r.mPages * PAGE_SIZE
  distinct : (pages.map s.zone.virt).Nodup
  virts : ∀ va, va ∈ pages.map s.zone.virt ↔ r.Covers va ∧ PAGE_SIZE ∣ subWord va r.mStart

def GeometryOk (s : VmState) (a : Nat) : Prop := ∃ r pages, s.Geometry a r pages

/-- The pages have the addresses from the start of the area on, in some order. -/
structure Filled (s : VmState) (a : Nat) (r : MemArea) (pages : List Nat) : Prop where
  record : s.areas a = some r
  plist : s.PlistIs a pages
  start : r.mStart < WORD_RANGE
  stop : r.mEnd = pageSlot r.mStart pages.length
  count : r.mPages = pages.length
  virts : (pages.map s.zone.virt).Perm ((List.range pages.length).map (pageSlot r.mStart))

end VmState

/-! ## Page addresses -/

section Slots

variable {start n va : Nat}

theorem nodup_pageSlots (hn : n ≤ ADDR_PAGES) : ((List.range n).map (pageSlot start)).Nodup := by
  refine List.Nodup.map_on ?_ List.nodup_range
  intro i hi j hj heq
  have hi' := List.mem_range.mp hi
  have hj' := List.mem_range.mp hj
  exact pageSlot_inj (by omega) (by omega) heq

theorem pageSlot_of_dvd (hstart : start < WORD_RANGE) (hva : va < WORD_RANGE)
    (hdvd : PAGE_SIZE ∣ subWord va start) : pageSlot start (subWord va start / PAGE_SIZE) = va := by
  have hsum : start + (va + (WORD_RANGE - start)) = va + WORD_RANGE := by omega
  unfold pageSlot
  rw [Nat.div_mul_cancel hdvd]
  unfold subWord
  rw [Nat.add_mod_mod, hsum, Nat.add_mod_right, Nat.mod_eq_of_lt hva]

theorem mem_pageSlots_iff (hstart : start < WORD_RANGE) (hn : n < ADDR_PAGES) :
    va ∈ (List.range n).map (pageSlot start) ↔
      (va < WORD_RANGE ∧ subWord va start < n * PAGE_SIZE) ∧ PAGE_SIZE ∣ subWord va start := by
  rw [List.mem_map]
  constructor
  · rintro ⟨k, hk, rfl⟩
    have hk' := List.mem_range.mp hk
    rw [subWord_pageSlot hstart (Nat.lt_trans hk' hn)]
    exact ⟨⟨pageSlot_lt start k, Nat.mul_lt_mul_of_pos_right hk' (by decide)⟩,
      Nat.dvd_mul_left _ _⟩
  · rintro ⟨⟨hva, hlt⟩, hdvd⟩
    refine ⟨subWord va start / PAGE_SIZE, List.mem_range.mpr ?_,
      pageSlot_of_dvd hstart hva hdvd⟩
    exact (Nat.div_lt_iff_lt_mul (by decide)).mpr hlt

theorem pageSlots_subWord (start n : Nat) :
    (List.range (n + 1)).map (pageSlot (subWord start PAGE_SIZE)) =
      subWord start PAGE_SIZE :: (List.range n).map (pageSlot start) := by
  have hzero : pageSlot (subWord start PAGE_SIZE) 0 = subWord start PAGE_SIZE :=
    pageSlot_zero (subWord_lt _ _)
  have hsucc : pageSlot (subWord start PAGE_SIZE) ∘ Nat.succ = pageSlot start := by
    funext k
    rw [Function.comp_apply, pageSlot_subWord]
  rw [List.range_succ_eq_map, List.map_cons, List.map_map, hzero, hsucc]

theorem pageSlots_succ (start n : Nat) : (List.range (n + 1)).map (pageSlot start) =
      (List.range n).map (pageSlot start) ++ [pageSlot start n] := by
  rw [List.range_succ, List.map_append, List.map_singleton]

theorem subWord_pageSlot_succ (start n : Nat) :
    subWord (pageSlot start (n + 1)) PAGE_SIZE = pageSlot start n := by
  have hword : PAGE_SIZE ≤ WORD_RANGE := by decide
  have hsum : start + (n + 1) * PAGE_SIZE + (WORD_RANGE - PAGE_SIZE) =
      start + n * PAGE_SIZE + WORD_RANGE := by
    rw [Nat.add_mul]
    omega
  unfold pageSlot subWord
  rw [Nat.mod_add_mod, hsum, Nat.add_mod_right]

end Slots

/-- The area with another number of pages and another end. -/
def MemArea.resized (r : MemArea) (pages stop : Nat) : MemArea :=
  { r with mPages := pages, mEnd := stop }

theorem MemArea.resized_mStart (r : MemArea) (pages stop : Nat) :
    (r.resized pages stop).mStart = r.mStart := rfl

def MemArea.shrunk (r : MemArea) : MemArea :=
  r.resized (subWord r.mPages 1) (subWord r.mEnd PAGE_SIZE)

theorem MemArea.shrunk_mStart (r : MemArea) : r.shrunk.mStart = r.mStart := by
  rw [shrunk, resized_mStart]

namespace VmState

section Fill

variable {s s' : VmState} {a pg : Nat} {r : MemArea} {pages : List Nat}

theorem Filled.geometry (h : s.Filled a r pages) (hfit : pages.length < ADDR_PAGES) :
    s.Geometry a r pages := by
  have hsize : subWord r.mEnd r.mStart = pages.length * PAGE_SIZE := by
    rw [h.stop]
    exact subWord_pageSlot h.start hfit
  refine ⟨h.record, h.plist, h.count, ?_, ?_, ?_⟩
  · rw [hsize, h.count]
  · exact h.virts.nodup_iff.mpr (nodup_pageSlots (Nat.le_of_lt hfit))
  · intro va
    rw [h.virts.mem_iff, mem_pageSlots_iff h.start hfit]
    unfold MemArea.Covers
    rw [hsize]

theorem Geometry.filled (h : s.Geometry a r pages) (hstart : r.mStart < WORD_RANGE)
    (hend : r.mEnd < WORD_RANGE) (hfit : pages.length < ADDR_PAGES) : s.Filled a r pages := by
  have hsize : subWord r.mEnd r.mStart = pages.length * PAGE_SIZE := by
    rw [h.size, h.count]
  have hstop : r.mEnd = pageSlot r.mStart pages.length := by
    have hslot := pageSlot_of_dvd hstart hend (hsize ▸ Nat.dvd_mul_left _ _)
    rw [hsize, Nat.mul_div_cancel _ (by decide)] at hslot
    exact hslot.symm
  refine ⟨h.record, h.plist, hstart, hstop, h.count, ?_⟩
  refine (List.perm_ext_iff_of_nodup h.distinct (nodup_pageSlots (Nat.le_of_lt hfit))).mpr ?_
  intro va
  rw [h.virts, mem_pageSlots_iff hstart hfit]
  unfold MemArea.Covers
  rw [hsize]

theorem Filled.congr (h : s.Filled a r pages) (hareas : s'.areas a = s.areas a)
    (hvirt : s'.zone.virt = s.zone.virt) (hlinks : s'.zone.areaList = s.zone.areaList) :
    s'.Filled a r pages where
  record := hareas.trans h.record
  plist := by
    unfold PlistIs
    rw [hlinks]
    exact h.plist
  start := h.start
  stop := h.stop
  count := h.count
  virts := by
    rw [hvirt]
    exact h.virts

theorem map_virt_update {virt : Nat → Nat} {x : Nat} (hpg : pg ∉ pages) :
    pages.map (Function.update virt pg x) = pages.map virt := by
  refine List.map_congr_left (fun q hq => ?_)
  have hne : q ≠ pg := fun he => hpg (he ▸ hq)
  exact update_of_ne hne _ _

theorem Filled.addPage (h : s.Filled a r pages) (hop : s.memAreaAddPage a pg = .ok s')
    (hfit : pages.length + 1 < ADDR_PAGES) : s'.Filled a r.grown (pages ++ [pg]) := by
  obtain ⟨hnot, hplist⟩ := memAreaAddPage_isRing h.plist hop
  obtain ⟨r₀, hr₀, hs'⟩ := memAreaAddPage_eq hop
  obtain rfl : r₀ = r := Option.some.inj (hr₀.symm.trans h.record)
  rw [rawMemAreaAddPage_eq] at hs'
  have hvirt : s'.zone.virt = Function.update s.zone.virt pg r₀.nextAddr := by
    rw [hs']
    rfl
  have hlen : (pages ++ [pg]).length = pages.length + 1 := by simp
  refine ⟨?_, hplist, MemArea.grown_start_lt h.start, ?_, ?_, ?_⟩
  · rw [hs']
    exact update_self ..
  · rw [hlen]
    exact MemArea.grown_mEnd h.stop
  · rw [hlen]
    exact MemArea.grown_mPages h.count hfit
  · rw [hlen, hvirt, List.map_append, map_virt_update hnot, List.map_singleton,
      update_self]
    cases hstack : hasFlag r₀.mFlags MMA_STACK with
    | true =>
      -- the new address comes in front of the others
      have hnext : r₀.nextAddr = subWord r₀.mStart PAGE_SIZE := if_pos hstack
      rw [MemArea.grown_of_stack hstack, hnext]
      rw [pageSlots_subWord]
      exact (List.perm_append_singleton _ _).trans (h.virts.cons _)
    | false =>
      have hnext : r₀.nextAddr = pageSlot r₀.mStart pages.length :=
        (if_neg (Bool.eq_false_iff.mp hstack)).trans h.stop
      rw [MemArea.grown_of_up hstack, hnext]
      rw [pageSlots_succ]
      exact h.virts.append_right _

theorem memAreaRemovePage_isRing {as bs : List Nat} (hr : s.areas a = some r)
    (h : s.PlistIs a (as ++ pg :: bs)) :
    ∃ s', s.memAreaRemovePage a pg = .ok s' ∧ s'.PlistIs a (as ++ bs) ∧
      s'.areas a = some r.shrunk ∧
      s'.zone.virt = Function.update s.zone.virt pg NOPAGE_ADDR := by
  have hne : klist0Empty (.page pg) s.zone.areaList ≠ true := by
    intro hempty
    exact h.not_mem hempty (by simp)
  refine ⟨(s.setLinks (klist0Unlink (.page pg) s.zone.areaList)).rawMemAreaRemovePage a r pg,
    ?_, ?_, ?_, rfl⟩
  · unfold memAreaRemovePage
    rw [if_neg hne]
    exact bind_eq_ok.mpr ⟨r, area_eq_ok.mpr hr, rfl⟩
  · unfold PlistIs at h ⊢
    rw [List.map_append] at h
    rw [List.map_append]
    exact klist0Unlink_isRing h
  · exact update_self ..

/-- `mem_area_remove_page`: the pages that are left fill the range that is left when the page
was the one at its end. -/
theorem Filled.removePage {as bs : List Nat} (h : s.Filled a r (as ++ pg :: bs))
    (hfit : (as ++ pg :: bs).length < ADDR_PAGES) (hop : s.memAreaRemovePage a pg = .ok s') :
    s'.Filled a r.shrunk (as ++ bs) ↔ s.zone.virt pg = subWord r.mEnd PAGE_SIZE := by
  obtain ⟨t, ht, hplist, hrecord, hvirt⟩ := memAreaRemovePage_isRing h.record h.plist
  obtain rfl : t = s' := Except.ok.inj (ht.symm.trans hop)
  have hlen : (as ++ pg :: bs).length = (as ++ bs).length + 1 := by
    simp only [List.length_append, List.length_cons]
    omega
  have hstop : subWord r.mEnd PAGE_SIZE = pageSlot r.mStart (as ++ bs).length := by
    rw [h.stop, hlen, subWord_pageSlot_succ]
  have hcount : subWord r.mPages 1 = (as ++ bs).length := by
    rw [h.count, hlen]
    have hword : ADDR_PAGES < WORD_RANGE := by decide
    exact subWord_of_le (Nat.le_add_left 1 _) (by omega)
  have hnot : pg ∉ as ++ bs := by
    have hnodup := List.perm_middle.nodup_iff.mp (nodup_of_ring h.plist)
    exact (List.nodup_cons.mp hnodup).1
  have hold : (s.zone.virt pg :: (as ++ bs).map s.zone.virt).Perm
      (pageSlot r.mStart (as ++ bs).length ::
        (List.range (as ++ bs).length).map (pageSlot r.mStart)) := by
    have hfront : (s.zone.virt pg :: (as ++ bs).map s.zone.virt).Perm
        ((as ++ pg :: bs).map s.zone.virt) :=
      (List.perm_middle.symm.map s.zone.virt)
    refine hfront.trans (h.virts.trans ?_)
    rw [hlen, pageSlots_succ]
    exact List.perm_append_singleton _ _
  rw [hstop]
  constructor
  · intro hleft
    have hvirts := hleft.virts
    rw [hvirt, map_virt_update hnot, MemArea.shrunk_mStart] at hvirts
    have hboth := Multiset.coe_eq_coe.mpr (hold.trans (hvirts.symm.cons _))
    rw [← Multiset.cons_coe] at hboth
    exact (Multiset.cons_inj_left _).mp hboth
  · intro hlast
    rw [hlast] at hold
    refine ⟨hrecord, hplist, ?_, ?_, ?_, ?_⟩
    · rw [MemArea.shrunk_mStart]
      exact h.start
    · rw [MemArea.shrunk_mStart]
      exact hstop
    · exact hcount
    · rw [hvirt, map_virt_update hnot, MemArea.shrunk_mStart]
      exact hold.cons_inv

theorem Filled.removePage_iff (h : s.Filled a r pages) (hmem : pg ∈ pages)
    (hfit : pages.length < ADDR_PAGES) : ∃ s', s.memAreaRemovePage a pg = .ok s' ∧
      (s'.GeometryOk a ↔ s.zone.virt pg = subWord r.mEnd PAGE_SIZE) ∧
      (s.zone.virt pg = subWord r.mEnd PAGE_SIZE →
        ∃ r' pages', s'.Filled a r' pages' ∧ ∀ q ∈ pages', q ∈ pages) := by
  obtain ⟨as, bs, rfl⟩ := List.append_of_mem hmem
  obtain ⟨s', hop, hplist, hrecord, -⟩ := memAreaRemovePage_isRing h.record h.plist
  have hiff := h.removePage hfit hop
  have hfit' : (as ++ bs).length < ADDR_PAGES := by
    simp only [List.length_append, List.length_cons] at hfit ⊢
    omega
  refine ⟨s', hop, ⟨?_, ?_⟩, ?_⟩
  · rintro ⟨r', pages', hgeo⟩
    cases hgeo.record.symm.trans hrecord
    have hpages : pages' = as ++ bs :=
      List.map_injective_iff.mpr (fun _ _ he => AreaNode.page.inj he)
        (isRing_unique hgeo.plist hplist)
    subst hpages
    refine hiff.mp (hgeo.filled ?_ ?_ hfit')
    · rw [MemArea.shrunk_mStart]
      exact h.start
    · exact subWord_lt _ _
  · intro hlast
    exact ⟨_, _, (hiff.mpr hlast).geometry hfit'⟩
  · intro hlast
    refine ⟨_, _, hiff.mpr hlast, ?_⟩
    intro q hq
    simp only [List.mem_append] at hq ⊢
    tauto

end Fill

/-! ## Runs -/

inductive AreaCall where
  | grow (pages : Nat)
  | addPage (pg : Nat)
  | removePage (pg : Nat)
deriving DecidableEq, Repr

/-- One call on the area `a`.  There is no state after a call that stops the kernel, and none
after a call with a page that is not a page of the zone. -/
def areaCall (a lo hi : Nat) (s : VmState) : AreaCall → Option VmState
  | .grow pages => (s.memAreaGrow a pages).toOption
  | .addPage pg => if lo ≤ pg ∧ pg < hi then (s.memAreaAddPage a pg).toOption else none
  | .removePage pg => (s.memAreaRemovePage a pg).toOption

def Belongs (a : Nat) (s : VmState) : AreaCall → Prop
  | .removePage pg => s.zone.areaList.Reaches (.head a) (.page pg)
  | _ => True

/-- A page that is removed has the last page address of the range. -/
def RemovesLast (a : Nat) (s : VmState) : AreaCall → Prop
  | .removePage pg => ∀ r, s.areas a = some r → s.zone.virt pg = subWord r.mEnd PAGE_SIZE
  | _ => True

/-- What a call leaves has the geometry. -/
def KeepsGeometry (a lo hi : Nat) (s : VmState) (c : AreaCall) : Prop :=
  ∀ s', areaCall a lo hi s c = some s' → s'.GeometryOk a

/-- An area between two calls, with pages of the zone. -/
structure AreaOk (lo hi a : Nat) (s : VmState) (r : MemArea) (live : List Block)
    (pages : List Nat) : Prop where
  filled : s.Filled a r pages
  buddy : BuddyInv s.zone lo hi live
  bounds : ∀ pg ∈ pages, lo ≤ pg ∧ pg < hi

section Runs

variable {s s' : VmState} {a lo hi : Nat} {r : MemArea} {live : List Block} {pages : List Nat}

theorem AreaOk.length_lt (h : AreaOk lo hi a s r live pages) (hlo : 1 ≤ lo)
    (hspace : hi * PAGE_SIZE ≤ WORD_RANGE) : pages.length < ADDR_PAGES :=
  length_lt_addrPages (nodup_of_ring h.filled.plist) h.bounds hlo hspace

theorem AreaOk.addPage (h : AreaOk lo hi a s r live pages) (hlo : 1 ≤ lo)
    (hspace : hi * PAGE_SIZE ≤ WORD_RANGE) {pg : Nat} (hpg : lo ≤ pg ∧ pg < hi)
    (hop : s.memAreaAddPage a pg = .ok s') : AreaOk lo hi a s' r.grown live (pages ++ [pg]) := by
  obtain ⟨-, hplist⟩ := memAreaAddPage_isRing h.filled.plist hop
  obtain ⟨-, -, hlevels, -⟩ := memAreaAddPage_eq_ok hop
  have hbounds : ∀ q ∈ pages ++ [pg], lo ≤ q ∧ q < hi := by
    intro q hq
    obtain hold | hnew := List.mem_append.mp hq
    · exact h.bounds q hold
    · rw [List.mem_singleton.mp hnew]
      exact hpg
  have hfit := length_lt_addrPages (nodup_of_ring hplist) hbounds hlo hspace
  rw [List.length_append] at hfit
  exact ⟨h.filled.addPage hop hfit, h.buddy.congr hlevels, hbounds⟩

theorem AreaOk.growLoop (hlo : 1 ≤ lo) (hspace : hi * PAGE_SIZE ≤ WORD_RANGE) : ∀ (n : Nat)
    {s s' : VmState} {r : MemArea} {live : List Block} {pages : List Nat},
    AreaOk lo hi a s r live pages → s.growLoop a n = .ok s' →
    ∃ r' live' pages', AreaOk lo hi a s' r' live' pages' := by
  intro n
  induction n with
  | zero =>
    intro s s' r live pages h hop
    exact ⟨r, live, pages, Except.ok.inj hop ▸ h⟩
  | succ n ih =>
    intro s s' r live pages h hop
    obtain ⟨pg, t, rt, hp, hadd, -, hloop⟩ := growLoop_succ_eq_ok hop
    have hsame := rawAllocPages_sameRest s.zone 0
    have hbuddy := rawAllocPages_buddy h.buddy hp
    have htaken : AreaOk lo hi a { s with zone := (rawAllocPages s.zone 0).1 } r
        (⟨0, pg⟩ :: live) pages :=
      ⟨h.filled.congr rfl hsame.virt hsame.areaList, hbuddy, h.bounds⟩
    have hadded := htaken.addPage hlo hspace (hbuddy.start_bounds List.mem_cons_self) hadd
    -- `map_page` writes the tables of the mapping only
    exact ih (s := t.mapPage _ _ _ _)
      ⟨hadded.filled.congr rfl rfl rfl, hadded.buddy, hadded.bounds⟩ hloop

/-- The pages are given and taken, and the area is as it should be. -/
def AreaInRun (lo hi a : Nat) (s : VmState) : Prop :=
  ∃ r live pages, AreaOk lo hi a s r live pages

theorem AreaInRun.geometryOk (h : AreaInRun lo hi a s) (hlo : 1 ≤ lo)
    (hspace : hi * PAGE_SIZE ≤ WORD_RANGE) : s.GeometryOk a := by
  obtain ⟨r, live, pages, hok⟩ := h
  exact ⟨r, pages, hok.filled.geometry (hok.length_lt hlo hspace)⟩

theorem AreaInRun.grows (h : AreaInRun lo hi a s) (hlo : 1 ≤ lo)
    (hspace : hi * PAGE_SIZE ≤ WORD_RANGE) {c : AreaCall} (hc : ∀ pg, c ≠ .removePage pg)
    (hop : areaCall a lo hi s c = some s') : AreaInRun lo hi a s' := by
  obtain ⟨r, live, pages, hok⟩ := h
  cases c with
  | grow n =>
    obtain ⟨r₀, -, hrest⟩ := bind_eq_ok.mp (toOption_eq_some.mp hop)
    split at hrest
    · exact hok.growLoop hlo hspace n hrest
    · exact ⟨r, live, pages, Except.ok.inj hrest ▸ hok⟩
  | addPage pg =>
    dsimp only [areaCall] at hop
    split at hop
    · rename_i hpg
      exact ⟨_, _, _, hok.addPage hlo hspace hpg (toOption_eq_some.mp hop)⟩
    · cases hop
  | removePage pg => exact absurd rfl (hc pg)

/-- One call of a run: what it leaves is right when a page it removes was the last one, and
then the run can go on. -/
theorem AreaInRun.call (h : AreaInRun lo hi a s) (hlo : 1 ≤ lo)
    (hspace : hi * PAGE_SIZE ≤ WORD_RANGE) {c : AreaCall} (hc : Belongs a s c) :
    (KeepsGeometry a lo hi s c ↔ RemovesLast a s c) ∧
      (RemovesLast a s c → ∀ s', areaCall a lo hi s c = some s' → AreaInRun lo hi a s') := by
  by_cases hremove : ∃ pg, c = .removePage pg
  · obtain ⟨pg, rfl⟩ := hremove
    obtain ⟨r, live, pages, hok⟩ := h
    have hmem : pg ∈ pages :=
      page_mem_ring_iff.mp ((IsRing.reaches_iff hok.filled.plist _).mp hc)
    obtain ⟨t, ht, hiff, hnext⟩ := hok.filled.removePage_iff hmem (hok.length_lt hlo hspace)
    have hcall : areaCall a lo hi s (.removePage pg) = some t := toOption_eq_some.mpr ht
    have hlast : RemovesLast a s (.removePage pg) ↔
        s.zone.virt pg = subWord r.mEnd PAGE_SIZE := by
      constructor
      · intro hall
        exact hall r hok.filled.record
      · intro hvirt r' hr'
        rw [Option.some.inj (hr'.symm.trans hok.filled.record)]
        exact hvirt
    refine ⟨?_, ?_⟩
    · rw [hlast, ← hiff]
      constructor
      · intro hkeep
        exact hkeep t hcall
      · intro hgeo s' hs'
        cases hcall.symm.trans hs'
        exact hgeo
    · intro hrem s' hs'
      cases hcall.symm.trans hs'
      obtain ⟨r', pages', hfilled, hsub⟩ := hnext (hlast.mp hrem)
      obtain ⟨-, -, hlevels, -⟩ := memAreaRemovePage_eq_ok ht
      exact ⟨r', live, pages', hfilled, hok.buddy.congr hlevels,
        fun q hq => hok.bounds q (hsub q hq)⟩
  · have hno : ∀ pg, c ≠ .removePage pg := fun pg he => hremove ⟨pg, he⟩
    have hlast : RemovesLast a s c := by
      cases c with
      | removePage pg => exact absurd rfl (hno pg)
      | _ => trivial
    refine ⟨iff_of_true ?_ hlast, fun _ s' hs' => h.grows hlo hspace hno hs'⟩
    intro s' hs'
    exact (h.grows hlo hspace hno hs').geometryOk hlo hspace

theorem perm_slotOf (stack : Bool) (n : Nat) :
    ((List.range n).map (slotOf stack n)).Perm (List.range n) := by
  have hnodup : ((List.range n).map (slotOf stack n)).Nodup := by
    refine List.Nodup.map_on ?_ List.nodup_range
    intro i hi j hj heq
    exact slotOf_inj (List.mem_range.mp hi) (List.mem_range.mp hj) heq
  have hsub : (List.range n).map (slotOf stack n) ⊆ List.range n := by
    intro k hk
    obtain ⟨i, hi, rfl⟩ := List.mem_map.mp hk
    exact List.mem_range.mpr (slotOf_lt (List.mem_range.mp hi))
  exact (List.subperm_of_subset hnodup hsub).perm_of_length_le (by simp)

theorem AreaInv.filled (h : AreaInv s a r lo hi live pages) : s.Filled a r pages where
  record := h.placed.record
  plist := h.ring
  start := h.placed.start
  stop := h.placed.stop
  count := h.placed.count
  virts := by
    have hmap : pages.map s.zone.virt =
        ((List.range pages.length).map
          (slotOf (hasFlag r.mFlags MMA_STACK) pages.length)).map (pageSlot r.mStart) := by
      refine List.ext_getElem (by simp) (fun i hi _ => ?_)
      rw [List.length_map] at hi
      simp only [List.getElem_map, List.getElem_range]
      exact (h.placed.entry i _ (List.getElem?_eq_getElem hi)).1
    rw [hmap]
    exact (perm_slotOf _ _).map _

/-- An area that `mem_area_alloc_new` makes has the geometry, and every call of a sequence
leaves it so exactly when every page that is removed is the last one of the range. -/
theorem areaRun_geometry_iff {fuel list map start npages flags : Nat}
    (hbuddy : BuddyInv s.zone lo hi live) (hlo : 1 ≤ lo) (hspace : hi * PAGE_SIZE ≤ WORD_RANGE)
    (hstart : start < WORD_RANGE) (hpos : 1 ≤ npages) (hclone : hasFlag flags MMA_CLONE = false)
    (hla : list ≠ a) (hnew : s.memAreaAllocNew fuel list map start npages flags a = .ok (true, s'))
    {calls : List AreaCall} (hcalls : Meets (areaCall a lo hi) (Belongs a) s' calls) :
    s'.GeometryOk a ∧
      (Meets (areaCall a lo hi) (KeepsGeometry a lo hi) s' calls ↔
        Meets (areaCall a lo hi) (RemovesLast a) s' calls) := by
  obtain ⟨r, live', xs, -, harea⟩ :=
    memAreaAllocNew_eq_ok hbuddy hlo hspace hstart hpos hclone hla hnew
  have hrun : AreaInRun lo hi a s' :=
    ⟨r, live', xs, harea.inv.filled, harea.inv.held.buddy, harea.inv.held.bounds⟩
  refine ⟨hrun.geometryOk hlo hspace, ?_⟩
  exact meets_congr_of_meets (AreaInRun lo hi a) (fun t c ht hc => (ht.call hlo hspace hc).1)
    (fun t c t' ht hc hlast => (ht.call hlo hspace hc).2 hlast t') hrun hcalls

theorem Filled.exists_page (h : s.Filled a r pages) {k : Nat} (hk : k < pages.length) :
    ∃ pg ∈ pages, s.zone.virt pg = pageSlot r.mStart k := by
  have hslot : pageSlot r.mStart k ∈ pages.map s.zone.virt :=
    h.virts.mem_iff.mpr (List.mem_map_of_mem (List.mem_range.mpr hk))
  exact List.mem_map.mp hslot

end Runs

theorem newArea_two : ∃ s r live pages,
    emptyVm.memAreaAllocNew 9 9 7 0x8000000 2 (MMA_RW ||| MMA_GROWS) 0 = .ok (true, s) ∧
      AreaOk 1 12 0 s r live pages ∧ pages.length = 2 := by
  have hgot : ((emptyVm.memAreaAllocNew 9 9 7 0x8000000 2 (MMA_RW ||| MMA_GROWS) 0).map
      Prod.fst).toOption = some true := by decide +kernel
  cases hnew : emptyVm.memAreaAllocNew 9 9 7 0x8000000 2 (MMA_RW ||| MMA_GROWS) 0 with
  | error e =>
    rw [hnew] at hgot
    cases hgot
  | ok res =>
    obtain ⟨got, s⟩ := res
    rw [hnew] at hgot
    obtain rfl : got = true := Option.some.inj hgot
    obtain ⟨r, live, pages, -, harea⟩ := memAreaAllocNew_eq_ok emptyVm_buddy (Nat.le_refl 1)
      (by decide) (by decide) (by decide) (by decide) (by decide) hnew
    refine ⟨s, r, live, pages, rfl, ?_, ?_⟩
    · exact ⟨harea.inv.filled, harea.inv.held.buddy, harea.inv.held.bounds⟩
    · rw [harea.lengthEq]
      decide

theorem areaRun_remove_last : ∃ s pg,
    emptyVm.memAreaAllocNew 9 9 7 0x8000000 2 (MMA_RW ||| MMA_GROWS) 0 = .ok (true, s) ∧
      s.GeometryOk 0 ∧ Meets (areaCall 0 1 12) (Belongs 0) s [.removePage pg, .grow 1] ∧
      Meets (areaCall 0 1 12) (KeepsGeometry 0 1 12) s [.removePage pg, .grow 1] := by
  obtain ⟨s, r, live, pages, hnew, hok, hlen⟩ := newArea_two
  obtain ⟨pg, hmem, hvirt⟩ := hok.filled.exists_page (k := 1) (by omega)
  have hcalls : Meets (areaCall 0 1 12) (Belongs 0) s [.removePage pg, .grow 1] :=
    ⟨(IsRing.reaches_iff hok.filled.plist _).mpr (page_mem_ring_iff.mpr hmem),
      fun _ _ => ⟨trivial, fun _ _ => trivial⟩⟩
  obtain ⟨hgeo, hiff⟩ := areaRun_geometry_iff emptyVm_buddy (Nat.le_refl 1) (by decide)
    (by decide) (by decide) (by decide) (by decide) hnew hcalls
  refine ⟨s, pg, hnew, hgeo, hcalls, hiff.mpr ⟨?_, fun _ _ => ⟨trivial, fun _ _ => trivial⟩⟩⟩
  intro r' hr'
  rw [Option.some.inj (hr'.symm.trans hok.filled.record), hvirt, hok.filled.stop, hlen,
    subWord_pageSlot_succ]

/-- The page at the start is removed: the range still begins with its address. -/
theorem area_remove_first_wrong : ∃ s s' pg,
    emptyVm.memAreaAllocNew 9 9 7 0x8000000 2 (MMA_RW ||| MMA_GROWS) 0 = .ok (true, s) ∧
      s.GeometryOk 0 ∧ s.zone.areaList.Reaches (.head 0) (.page pg) ∧
      s.memAreaRemovePage 0 pg = .ok s' ∧ ¬ s'.GeometryOk 0 := by
  obtain ⟨s, r, live, pages, hnew, hok, hlen⟩ := newArea_two
  obtain ⟨pg, hmem, hvirt⟩ := hok.filled.exists_page (k := 0) (by omega)
  have hfit := hok.length_lt (Nat.le_refl 1) (by decide)
  obtain ⟨s', hop, hiff, -⟩ := hok.filled.removePage_iff hmem hfit
  refine ⟨s, s', pg, hnew, ⟨r, pages, hok.filled.geometry hfit⟩,
    (IsRing.reaches_iff hok.filled.plist _).mpr (page_mem_ring_iff.mpr hmem), hop, ?_⟩
  rw [hiff, hvirt, hok.filled.stop, hlen, subWord_pageSlot_succ]
  intro heq
  exact absurd (pageSlot_inj (by decide) (by decide) heq) (by decide)

end VmState

end Koowaldah
