import Koowaldah.MemArea.Alloc

/-!
# The page list of an area

`m_plist` of an area is to be a list of its pages from the start.  `mem_area_alloc` writes it with
`klist0_reparent` and returns before that when there are no pages to give it, so an area
without pages has the list head that its slice of `mma_pool` held before.

`memAreaAllocPages_plist_iff` says when the list of a new area is the one it was given.
-/

namespace Koowaldah

open SysLib SysLib.Links

namespace VmState

/-- `mem_area_alloc` on the slice `a`.  No page list is `NULL`. -/
def memAreaAllocPages (fuel a map start flags : Nat) (pageList : Option Nat) (s : VmState) :
    Except VmFault VmState :=
  match pageList with
  | none => .ok (s.memAreaAlloc a map start flags)
  | some list => s.memAreaAllocList fuel a map start flags list

/-- The list of the area has these pages, in this order. -/
def PlistIs (s : VmState) (a : Nat) (pages : List Nat) : Prop :=
  s.zone.areaList.IsRing (.head a) (pages.map AreaNode.page)

section Pages

variable {s s' : VmState} {a pg : Nat} {pages : List Nat}

theorem PlistIs.not_mem (h : s.PlistIs a pages)
    (hempty : klist0Empty (.page pg) s.zone.areaList = true) : pg ∉ pages := by
  intro hmem
  exact h.next_ne_self (List.mem_map_of_mem hmem) (of_decide_eq_true hempty)

theorem memAreaAddPage_empty (hop : s.memAreaAddPage a pg = .ok s') :
    klist0Empty (.page pg) s.zone.areaList = true := by
  unfold memAreaAddPage at hop
  split at hop
  · cases hop
  · rename_i hne
    exact Bool.not_eq_false _ ▸ hne

theorem memAreaAddPage_isRing (h : s.PlistIs a pages) (hop : s.memAreaAddPage a pg = .ok s') :
    pg ∉ pages ∧ s'.PlistIs a (pages ++ [pg]) := by
  have hnot := h.not_mem (memAreaAddPage_empty hop)
  obtain ⟨r, -, rfl⟩ := memAreaAddPage_eq hop
  refine ⟨hnot, ?_⟩
  have hring := klist0Prepend_isRing h (fun hm => hnot (page_mem_ring_iff.mp hm))
  rw [rawMemAreaAddPage_eq]
  show (klist0Prepend _ _ _).IsRing _ _
  rw [List.map_append, List.map_singleton]
  exact hring

theorem addPages_isRing {added : List Nat} (h : s.PlistIs a pages)
    (hop : added.foldlM (fun s pg => s.memAreaAddPage a pg) s = .ok s') :
    s'.PlistIs a (pages ++ added) := by
  induction added generalizing s pages with
  | nil =>
    rw [← Except.ok.inj hop, List.append_nil]
    exact h
  | cons pg added ih =>
    obtain ⟨t, hadd, hrest⟩ := bind_eq_ok.mp hop
    have hnext := ih (memAreaAddPage_isRing h hadd).2 hrest
    rw [List.append_assoc] at hnext
    exact hnext

end Pages

section New

variable {s : VmState} {a map start flags : Nat} {pages : List Nat}

theorem mmaMapPages_total {r : MemArea} (hr : s.areas a = some r)
    (hclone : hasFlag r.mFlags MMA_CLONE = false) (h : s.PlistIs a pages) :
    ∃ s', s.mmaMapPages (pages.length + 1) a = .ok s' ∧ MapsInto a s s' := by
  have horg : s.mmaOriginal (pages.length + 1) a = .ok a := by
    rw [mmaOriginal, hr]
    dsimp only
    rw [hclone, if_neg Bool.false_ne_true]
  have hstep : ∀ pg (l : List Nat) t, MapsInto a s t →
      ∃ t', mapPageOf a (.page pg) t = .ok t' ∧ MapsInto a s t' := by
    intro pg l t ht
    obtain ⟨rt, hrt, -⟩ := ht.record r hr
    have hok : mapPageOf a (.page pg) t = .ok ((t.mapPage rt.mMap rt.nextAddr
        (pageToAddr t.zone pg) rt.mProt).rawMemAreaAddPage a rt pg) := by
      unfold mapPageOf
      rw [area_eq_ok.mpr hrt]
      rfl
    exact ⟨_, hok, ht.trans (mapPageOf_eq_ok hok)⟩
  obtain ⟨s', hwalk, hinto⟩ := walk_ring (mapPageOf a) h (fun _ t => MapsInto a s t)
    (fun _ t ht => ht.links) hstep (List.nil_append pages).symm (MapsInto.refl a s)
    (Nat.lt_succ_self _)
  refine ⟨s', bind_eq_ok.mpr ⟨a, horg, ?_⟩, hinto⟩
  rw [h.next_head]
  exact hwalk

/-- The pages of a page list: none for `NULL`. -/
def PageListIs (s : VmState) (pageList : Option Nat) (pages : List Nat) : Prop :=
  match pageList with
  | none => pages = []
  | some list => s.PlistIs list pages

theorem memAreaAllocPages_nil {fuel : Nat} {pageList : Option Nat}
    (hlist : s.PageListIs pageList []) : s.memAreaAllocPages fuel a map start flags pageList =
      .ok (s.memAreaAlloc a map start flags) := by
  cases pageList with
  | none => rfl
  | some list =>
    have hempty : klist0Empty (.head list)
        (s.memAreaAlloc a map start flags).zone.areaList = true :=
      (klist0Empty_iff hlist).mpr rfl
    exact if_pos hempty

theorem memAreaAllocPages_cons {pageList : Option Nat} (hlist : s.PageListIs pageList pages)
    (hne : pages ≠ []) (hla : pageList ≠ some a) (hclone : hasFlag flags MMA_CLONE = false) :
    ∃ fuel s', s.memAreaAllocPages fuel a map start flags pageList = .ok s' ∧
      s'.PlistIs a pages := by
  cases pageList with
  | none => exact absurd hlist hne
  | some list =>
    obtain ⟨heq, hring⟩ := memAreaAllocList_eq map start flags hlist hne
      (fun he => hla (congrArg some he))
    obtain ⟨s', hmap, hinto⟩ := mmaMapPages_total
      (s := (s.memAreaAlloc a map start flags).setLinks
        (klist0Reparent (.head list) (.head a) s.zone.areaList))
      (Function.update_self ..) hclone hring
    refine ⟨_, s', (heq _).trans hmap, ?_⟩
    unfold PlistIs
    rw [hinto.links]
    exact hring

/-- The area that `mem_area_alloc` returns has the pages of the list it was given, in order,
and after calls of `mem_area_add_page` the pages that were added too, exactly when there were
pages or the list head was an empty list before. -/
theorem memAreaAllocPages_plist_iff {pageList : Option Nat} (hlist : s.PageListIs pageList pages)
    (hla : pageList ≠ some a) (hclone : hasFlag flags MMA_CLONE = false) :
    (∃ fuel s', s.memAreaAllocPages fuel a map start flags pageList = .ok s' ∧
      s'.PlistIs a pages ∧
      ∀ (added : List Nat) (s'' : VmState),
        added.foldlM (fun s pg => s.memAreaAddPage a pg) s' = .ok s'' →
        s''.PlistIs a (pages ++ added)) ↔
      pages ≠ [] ∨ s.PlistIs a [] := by
  constructor
  · rintro ⟨fuel, s', hop, hplist, -⟩
    by_cases hnil : pages = []
    · subst hnil
      rw [memAreaAllocPages_nil hlist] at hop
      rw [← Except.ok.inj hop] at hplist
      exact Or.inr hplist
    · exact Or.inl hnil
  · intro hcond
    have hnew : ∃ fuel s', s.memAreaAllocPages fuel a map start flags pageList = .ok s' ∧
        s'.PlistIs a pages := by
      by_cases hnil : pages = []
      · subst hnil
        exact ⟨0, _, memAreaAllocPages_nil hlist, hcond.resolve_left (fun h => h rfl)⟩
      · exact memAreaAllocPages_cons hlist hnil hla hclone
    obtain ⟨fuel, s', hop, hplist⟩ := hnew
    exact ⟨fuel, s', hop, hplist, fun added s'' hadd => addPages_isRing hplist hadd⟩

end New

def linkPage (pg list : Nat) : VmState :=
  emptyVm.setLinks (klist0Prepend (.page pg) (.head list) emptyVm.zone.areaList)

theorem linkPage_plistIs {pg list : Nat} (hnil : emptyVm.PlistIs list []) :
    (linkPage pg list).PlistIs list [pg] :=
  klist0Prepend_isRing hnil (by simp)

theorem memAreaAllocPages_one : (linkPage 3 9).PlistIs 9 [3] ∧
    ∃ fuel s', (linkPage 3 9).memAreaAllocPages fuel 0 7 0x8000000 MMA_RW (some 9) = .ok s' ∧
      s'.PlistIs 0 [3] ∧
      ∀ (added : List Nat) (s'' : VmState),
        added.foldlM (fun s pg => s.memAreaAddPage 0 pg) s' = .ok s'' →
        s''.PlistIs 0 ([3] ++ added) := by
  have hlist : (linkPage 3 9).PageListIs (some 9) [3] :=
    linkPage_plistIs (isRing_nil_iff.mpr ⟨by decide, by decide⟩)
  exact ⟨hlist,
    (memAreaAllocPages_plist_iff hlist (by decide) (by decide)).mpr (Or.inl (by decide))⟩

/-- An area without pages in a slice whose last area had a page: it is on the list. -/
theorem memAreaAllocPages_stale :
    ∃ s', (linkPage 5 0).memAreaAllocPages 1 0 7 0x8000000 MMA_RW none = .ok s' ∧
      s'.PlistIs 0 [5] ∧ ¬ s'.PlistIs 0 [] := by
  have hplist : ((linkPage 5 0).memAreaAlloc 0 7 0x8000000 MMA_RW).PlistIs 0 [5] :=
    linkPage_plistIs (isRing_nil_iff.mpr ⟨by decide, by decide⟩)
  exact ⟨_, rfl, hplist, fun hnil => nomatch isRing_unique hplist hnil⟩

end VmState

end Koowaldah
