import Koowaldah.MemArea.Put

/-!
# What the walks along a page list do to its pages

`free_pagelist` is to hand every page of a list to `free_pages` and leave the list
empty, and `mem_area_unmap` is to unmap every page of an area, be it an original or
a clone.

* `freesEach_iff`: `free_pagelist` returns and frees every page once exactly when each
  page joins a free pile on its left.  The pages then stay on the list, so it is left
  empty only when it was (`freesList_iff`).
* `unmapsPages_iff`: `mem_area_unmap` comes to the end of the list of an original.  For a
  clone it looks for the head of the clone on the list of the original, and goes round
  that list for ever (`unmapWalk_never`).
-/

namespace Koowaldah

open Function SysLib SysLib.Dyadic SysLib.Links

namespace VmState

/-! ## `free_pagelist` -/

/-- `free_pagelist` returns in `s'`, and has handed every page to `free_pages` once. -/
def FreesEach (s : VmState) (a : Nat) (pages : List Nat) (s' : VmState) : Prop :=
  ∃ fuel met, s.freePagelist fuel (.head a) = .ok s' ∧
    visits (.head a) freePageOf fuel (s.zone.areaList.next (.head a)) s = .ok (met, s') ∧
    met.Perm (pages.map AreaNode.page)

def FreesList (s : VmState) (a : Nat) (pages : List Nat) : Prop :=
  ∃ s', FreesEach s a pages s' ∧ klist0Empty (.head a) s'.zone.areaList = true

section FreeList

variable {s : VmState} {a lo hi : Nat} {pages : List Nat} {rest : List Block}

theorem listFreeing_of_apart
    (hring : s.zone.areaList.IsRing (.head a) (pages.map AreaNode.page))
    (hapart : s.zone.areaList.Apart (.head a :: pages.map AreaNode.page))
    (hbuddy : BuddyInv s.zone lo hi (pages.map (Block.mk 0) ++ rest)) :
    ListFreeing a pages lo hi rest pages s.zone where
  ring := hring
  buddy := hbuddy
  outside _ _ hp := not_mem_pages_of_mem_level hbuddy hp
  apart := Or.inr hapart

/-- `free_pagelist` frees every page once exactly when each joins a pile on its left, and
the list is then what it was. -/
theorem ListFreeing.freesEach_iff (hinv : ListFreeing a pages lo hi rest pages s.zone)
    (s' : VmState) : FreesEach s a pages s' ↔ JoinsLeftInTurn (freePageSet s.zone) pages ∧
      visits (.head a) freePageOf (pages.length + 1) (s.zone.areaList.next (.head a)) s =
        .ok (pages.map AreaNode.page, s') := by
  constructor
  · intro hfrees
    rcases hfrees with ⟨fuel, met, hop, hvisits, -⟩
    have hjoin : JoinsLeftInTurn (freePageSet s.zone) pages := by
      by_contra hno
      exact hinv.never hno fuel s' hop
    rcases hinv.visits_eq hjoin (Nat.lt_succ_self _) with ⟨t, ht, -⟩
    have heq := visits_unique freePageOf hvisits ht
    rw [(Prod.mk.inj heq).2]
    exact ⟨hjoin, ht⟩
  · intro h
    refine ⟨pages.length + 1, pages.map AreaNode.page, ?_, h.2, List.Perm.refl _⟩
    unfold freePagelist
    rw [← visits_map_snd, h.2]
    rfl

/-- `free_pagelist` on a list of single pages that are handed out, which no node outside
of the list leads into.  It does its work exactly when there is no page on the list: a page
that joins no pile on its left is freed for ever, and one that does is never unlinked. -/
theorem freesList_iff (hring : s.zone.areaList.IsRing (.head a) (pages.map AreaNode.page))
    (hapart : s.zone.areaList.Apart (.head a :: pages.map AreaNode.page))
    (hbuddy : BuddyInv s.zone lo hi (pages.map (Block.mk 0) ++ rest)) :
    FreesList s a pages ↔ pages = [] := by
  have hinv := listFreeing_of_apart hring hapart hbuddy
  constructor
  · intro hfrees
    rcases hfrees with ⟨s', heach, hempty⟩
    rcases (hinv.freesEach_iff s').mp heach with ⟨hjoin, hvisits⟩
    rcases hinv.visits_eq hjoin (Nat.lt_succ_self _) with ⟨t, ht, hinv'⟩
    obtain rfl : t = s' := (Prod.mk.inj (visits_unique freePageOf ht hvisits)).2
    exact List.map_eq_nil_iff.mp ((klist0Empty_iff hinv'.ring).mp hempty)
  · intro hpages
    have hjoin : JoinsLeftInTurn (freePageSet s.zone) pages := by
      rw [hpages]
      trivial
    rcases hinv.visits_eq hjoin (Nat.lt_succ_self _) with ⟨t, ht, hinv'⟩
    refine ⟨t, (hinv.freesEach_iff t).mpr ⟨hjoin, ht⟩, ?_⟩
    rw [klist0Empty_iff hinv'.ring, hpages]
    rfl

end FreeList

/-- One area in the zone of `sampleVm`, with the page `pg` in its list. -/
def listVm (pg : Nat) : VmState :=
  { sampleVm with
    zone := { sampleZone with areaList := klist0Append (.page pg) (.head 0) ⟨id, id⟩ } }

theorem listVm_ring (pg : Nat) :
    (listVm pg).zone.areaList.IsRing (.head 0) ([pg].map AreaNode.page) := by
  have hempty : (⟨id, id⟩ : Links AreaNode).IsRing (.head 0) [] :=
    isRing_nil_iff.mpr ⟨rfl, rfl⟩
  exact klist0Append_isRing hempty (by simp)

theorem listVm_apart (pg : Nat) :
    (listVm pg).zone.areaList.Apart (.head 0 :: [pg].map AreaNode.page) := by
  intro x hx
  rw [List.map_singleton, List.mem_cons, List.mem_singleton, not_or] at hx
  have hnext : (listVm pg).zone.areaList.next x = x := by
    simp [listVm, klist0Append, hx.1, hx.2]
  have hprev : (listVm pg).zone.areaList.prev x = x := by
    simp [listVm, klist0Append, hx.1, hx.2]
  rw [hnext, hprev, List.map_singleton, List.mem_cons, List.mem_singleton, not_or]
  exact ⟨hx, hx⟩

theorem listVm_buddy (pg : Nat) : BuddyInv (listVm pg).zone 1 12 [⟨0, 3⟩, ⟨0, 1⟩] :=
  sampleVm_buddy.congr ⟨rfl, rfl, rfl, rfl⟩

theorem freesList_listVm_three : ¬ FreesList (listVm 3) 0 [3] := by
  have hbuddy : BuddyInv (listVm 3).zone 1 12 ([3].map (Block.mk 0) ++ [⟨0, 1⟩]) :=
    listVm_buddy 3
  rw [freesList_iff (listVm_ring 3) (listVm_apart 3) hbuddy]
  exact nofun

/-- Page 1 joins no other page.  The list of it is as it should be, and `free_pagelist`
does not return. -/
theorem freePagelist_listVm_one :
    (listVm 1).zone.areaList.IsRing (.head 0) ([1].map AreaNode.page) ∧
      (listVm 1).zone.areaList.Apart (.head 0 :: [1].map AreaNode.page) ∧
      BuddyInv (listVm 1).zone 1 12 ([1].map (Block.mk 0) ++ [⟨0, 3⟩]) ∧
      (∀ fuel s', (listVm 1).freePagelist fuel (.head 0) ≠ .ok s') ∧
      ¬ FreesList (listVm 1) 0 [1] := by
  have hbuddy : BuddyInv (listVm 1).zone 1 12 ([1].map (Block.mk 0) ++ [⟨0, 3⟩]) :=
    (listVm_buddy 1).perm (List.Perm.swap _ _ _)
  have hinv := listFreeing_of_apart (listVm_ring 1) (listVm_apart 1) hbuddy
  have hjoin : ¬ JoinsLeftInTurn (freePageSet (listVm 1).zone) [1] := by
    intro hjoin
    have horder : idxOrder 1 = 0 := by decide
    have hfree := hjoin.1.2 0 (by rw [horder]; decide) (by rw [horder]; decide) (by decide)
    exact absurd (hbuddy.mem_freePageSet_iff.mp hfree).1.1 (by decide)
  refine ⟨listVm_ring 1, listVm_apart 1, hbuddy, hinv.never hjoin, ?_⟩
  intro hfrees
  rcases hfrees with ⟨s', ⟨fuel, met, hop, -⟩, -⟩
  exact hinv.never hjoin fuel s' hop

/-! ## `mem_area_unmap` -/

/-- `org` is the original of the area `a`, at any depth of cloning, and `pages` is the page
list of `org`.  The head of a list without pages need not be linked, because `mem_area_alloc`
does not write it then. -/
structure PageListOf (s : VmState) (a : Nat) (r : MemArea) (org : Nat) (pages : List Nat) :
    Prop where
  record : s.areas a = some r
  original : ∃ depth, s.mmaOriginal depth a = .ok org
  linked : pages ≠ [] → s.zone.areaList.IsRing (.head org) (pages.map AreaNode.page)

/-- `mem_area_unmap` returns, has called `unmap_page` once for each of the pages, with
the mapping of the area and the address of the page, and no other address is touched in any
mapping. -/
def UnmapsPages (s : VmState) (a : Nat) (r : MemArea) (org : Nat) (pages : List Nat) : Prop :=
  ∃ fuel met t s', s.memAreaUnmap fuel a = .ok s' ∧
    visits (.head a) (unmapPageOf r.mMap) fuel (s.zone.areaList.next (.head org)) s =
      .ok (met, t) ∧
    met.Perm (pages.map AreaNode.page) ∧
    ∀ map page, s'.pgtable map page =
      if map = r.mMap ∧ ∃ pg ∈ pages, s.zone.virt pg / PAGE_SIZE = page then none
      else s.pgtable map page

section Unmap

variable {s : VmState} {a org : Nat} {r : MemArea} {pages : List Nat}

theorem mmaOriginal_mono {n m : Nat} (hop : s.mmaOriginal n a = .ok org) (hle : n ≤ m) :
    s.mmaOriginal m a = .ok org := by
  induction n generalizing a m with
  | zero => exact nomatch hop
  | succ n ih =>
    obtain ⟨m, rfl⟩ : ∃ k, m = k + 1 := ⟨m - 1, by omega⟩
    rw [mmaOriginal] at hop ⊢
    cases hr : s.areas a with
    | none =>
      rw [hr] at hop
      cases hop
    | some r =>
      rw [hr] at hop
      dsimp only at hop ⊢
      split_ifs at hop ⊢ with hclone
      · exact ih hop (Nat.le_of_succ_le_succ hle)
      · exact hop

theorem mmaOriginal_flags {n : Nat} (hop : s.mmaOriginal n a = .ok org) :
    ∃ r, s.areas org = some r ∧ hasFlag r.mFlags MMA_CLONE = false := by
  induction n generalizing a with
  | zero => exact nomatch hop
  | succ n ih =>
    rw [mmaOriginal] at hop
    split at hop
    · cases hop
    · rename_i r hr
      split at hop
      · exact ih hop
      · rename_i hclone
        cases hop
        exact ⟨r, hr, Bool.eq_false_iff.mpr hclone⟩

theorem eq_mmaOriginal_iff {n : Nat} (hr : s.areas a = some r)
    (hop : s.mmaOriginal n a = .ok org) : a = org ↔ hasFlag r.mFlags MMA_CLONE = false := by
  constructor
  · intro heq
    rcases mmaOriginal_flags hop with ⟨r', hr', hflag⟩
    rw [← heq, hr] at hr'
    rw [Option.some.inj hr']
    exact hflag
  · intro hflag
    cases n with
    | zero => exact nomatch hop
    | succ n =>
      rw [mmaOriginal, hr] at hop
      dsimp only at hop
      rw [hflag] at hop
      exact Except.ok.inj hop

/-- What the loop of `mem_area_unmap` has done when the pages of `l` are left: those
before them are unmapped. -/
structure Unmapping (s : VmState) (map : Nat) (pages l : List Nat) (t : VmState) : Prop where
  zone : t.zone = s.zone
  areas : t.areas = s.areas
  done : ∃ pre, pages = pre ++ l ∧ ∀ m page, t.pgtable m page =
    if m = map ∧ ∃ pg ∈ pre, s.zone.virt pg / PAGE_SIZE = page then none else s.pgtable m page

theorem Unmapping.step {map pg : Nat} {l : List Nat} {t : VmState}
    (h : Unmapping s map pages (pg :: l) t) :
    ∃ t', unmapPageOf map (.page pg) t = .ok t' ∧ Unmapping s map pages l t' := by
  rcases h.done with ⟨pre, hpages, htable⟩
  refine ⟨_, rfl, h.zone, h.areas, pre ++ [pg], ?_, ?_⟩
  · rw [hpages, List.append_assoc]
    rfl
  · intro m page
    have hmem : (∃ p ∈ pre ++ [pg], s.zone.virt p / PAGE_SIZE = page) ↔
        (∃ p ∈ pre, s.zone.virt p / PAGE_SIZE = page) ∨ s.zone.virt pg / PAGE_SIZE = page := by
      simp only [List.mem_append, List.mem_singleton, or_and_right, exists_or, exists_eq_left]
    simp only [hmem]
    show Function.update t.pgtable map
      (Function.update (t.pgtable map) (t.zone.virt pg / PAGE_SIZE) none) m page = _
    rw [h.zone]
    by_cases hm : m = map
    · subst hm
      rw [update_self, update_apply, htable]
      by_cases hpg : s.zone.virt pg / PAGE_SIZE = page
      · rw [if_pos hpg.symm, if_pos ⟨rfl, Or.inr hpg⟩]
      · rw [if_neg (Ne.symm hpg)]
        simp only [hpg, or_false]
    · rw [update_of_ne hm, htable, if_neg (fun hc => hm hc.1), if_neg (fun hc => hm hc.1)]

theorem visits_unmap {map : Nat}
    (hring : s.zone.areaList.IsRing (.head a) (pages.map AreaNode.page)) {fuel : Nat}
    (hfuel : pages.length < fuel) :
    ∃ t, visits (.head a) (unmapPageOf map) fuel (s.zone.areaList.next (.head a)) s =
      .ok (pages.map AreaNode.page, t) ∧ Unmapping s map pages [] t := by
  rw [hring.next_head]
  refine visits_ring (unmapPageOf map) (Unmapping s map pages) (fun l t ht => ht.zone ▸ hring)
    (fun pg l t ht => ht.step) (List.nil_append pages).symm ⟨rfl, rfl, [], rfl, ?_⟩ hfuel
  intro m page
  rw [if_neg]
  intro hc
  rcases hc.2 with ⟨pg, hpg, -⟩
  cases hpg

theorem memAreaUnmap_eq {fuel : Nat} (horg : s.mmaOriginal fuel a = .ok org)
    (hr : s.areas a = some r) : s.memAreaUnmap fuel a =
      (visits (.head a) (unmapPageOf r.mMap) fuel (s.zone.areaList.next (.head org)) s).map
        (fun v => v.2.sliceFree a) := by
  unfold memAreaUnmap
  rw [horg, area_eq_ok.mpr hr]
  show (walk (.head a) (unmapPageOf r.mMap) fuel (s.zone.areaList.next (.head org)) s >>= _) = _
  rw [← visits_map_snd]
  cases visits (.head a) (unmapPageOf r.mMap) fuel (s.zone.areaList.next (.head org)) s with
  | error e => rfl
  | ok v => rfl

/-- `mem_area_unmap` does its work exactly when the walk comes to the head it looks for: the
area is no clone or, when there is no page, the head of the list leads to the head of the
area. -/
theorem unmapsPages_iff (hlist : PageListOf s a r org pages) : UnmapsPages s a r org pages ↔
      (pages ≠ [] → hasFlag r.mFlags MMA_CLONE = false) ∧
        (pages = [] → s.zone.areaList.next (.head org) = .head a) := by
  rcases hlist.original with ⟨depth, horg⟩
  rw [← eq_mmaOriginal_iff hlist.record horg]
  constructor
  · intro hunmaps
    rcases hunmaps with ⟨fuel, met, t, s', -, hvisits, hperm, -⟩
    constructor
    · intro hpages
      by_contra hne
      apply unmapWalk_never (hlist.linked hpages) hne r.mMap fuel t
      rw [← visits_map_snd, hvisits]
      rfl
    · intro hpages
      rw [hpages, List.map_nil, List.perm_nil] at hperm
      -- the walk has met no node, so its first node is the one it stops at
      cases fuel with
      | zero => cases hvisits
      | succ fuel =>
        by_contra hne
        rw [visits, if_neg hne] at hvisits
        rcases bind_eq_ok.mp hvisits with ⟨s₁, -, hrest⟩
        rcases bind_eq_ok.mp hrest with ⟨v, -, hmet⟩
        rw [hperm] at hmet
        exact List.cons_ne_nil _ _ (Prod.mk.inj (Except.ok.inj hmet)).1
  · intro hcond
    have hdone : ∃ met t, met = pages.map AreaNode.page ∧
        visits (.head a) (unmapPageOf r.mMap) (max depth (pages.length + 1))
          (s.zone.areaList.next (.head org)) s = .ok (met, t) ∧
        Unmapping s r.mMap pages [] t := by
      have hfuel : pages.length < max depth (pages.length + 1) :=
        Nat.lt_of_lt_of_le (Nat.lt_succ_self _) (Nat.le_max_right _ _)
      by_cases hpages : pages = []
      · refine ⟨[], s, by rw [hpages]; rfl, ?_, rfl, rfl, [], by rw [hpages]; rfl, ?_⟩
        · rw [hcond.2 hpages]
          obtain ⟨k, hk⟩ : ∃ k, max depth (pages.length + 1) = k + 1 :=
            ⟨max depth (pages.length + 1) - 1, by omega⟩
          rw [hk, visits, if_pos rfl]
        · intro m page
          rw [if_neg]
          intro hc
          rcases hc.2 with ⟨pg, hpg, -⟩
          cases hpg
      · obtain rfl := hcond.1 hpages
        rcases visits_unmap (hlist.linked hpages) hfuel with ⟨t, ht, hunmapping⟩
        exact ⟨_, t, rfl, ht, hunmapping⟩
    rcases hdone with ⟨met, t, hmet, hvisits, hunmapping⟩
    rcases hunmapping.done with ⟨pre, hpages, htable⟩
    rw [List.append_nil] at hpages
    refine ⟨_, met, t, t.sliceFree a, ?_, hvisits, hmet ▸ List.Perm.refl _, ?_⟩
    · rw [memAreaUnmap_eq (mmaOriginal_mono horg (Nat.le_max_left _ _)) hlist.record, hvisits]
      rfl
    · rw [hpages]
      exact htable

end Unmap

theorem unmapsPages_sampleVm :
    UnmapsPages sampleVm 0 ⟨0x8000000, 0x8001000, 1, 1, 0, MMA_EXEC, 0, 7⟩ 0 [3] := by
  refine (unmapsPages_iff ⟨rfl, ⟨1, by decide +kernel⟩, fun _ => sampleVm_original.ring⟩).mpr ?_
  exact ⟨fun _ => sampleVm_original.flags, nofun⟩

/-- A clone of that area: `mem_area_unmap` does not return. -/
theorem memAreaUnmap_clone_wrong : ∃ s' r, sampleVm.memAreaClone 3 8 0 1 = .ok s' ∧
    PageListOf s' 1 r 0 [3] ∧ ∀ fuel t, s'.memAreaUnmap fuel 1 ≠ .ok t := by
  have hok : (sampleVm.memAreaClone 3 8 0 1).isOk = true := by decide +kernel
  cases hclone : sampleVm.memAreaClone 3 8 0 1 with
  | error e =>
    rw [hclone] at hok
    cases hok
  | ok s' =>
    have horg : s'.mmaOriginal 2 1 = .ok 0 := by
      have hboth : (sampleVm.memAreaClone 3 8 0 1 >>= fun t => t.mmaOriginal 2 1) = .ok 0 := by
        decide +kernel
      rw [hclone] at hboth
      exact hboth
    have hfresh : sampleVm.areas 1 = none := rfl
    rcases memAreaClone_eq_ok hfresh hclone with ⟨_, r, _, _, _, hlinks, _, hr, _⟩
    have hring : s'.zone.areaList.IsRing (.head 0) ([3].map AreaNode.page) := by
      rw [hlinks]
      exact sampleVm_original.ring
    refine ⟨s', r, rfl, ⟨hr, ⟨2, horg⟩, fun _ => hring⟩, ?_⟩
    intro fuel t hop
    rcases memAreaUnmap_eq_ok hop with ⟨org, r, t₁, horg', -, hwalk, -⟩
    obtain rfl : org = 0 := by
      have hmax := mmaOriginal_mono horg (Nat.le_max_left 2 fuel)
      rw [mmaOriginal_mono horg' (Nat.le_max_right 2 fuel)] at hmax
      exact Except.ok.inj hmax
    exact unmapWalk_never hring (by decide) r.mMap fuel t₁ hwalk

end VmState

end Koowaldah
