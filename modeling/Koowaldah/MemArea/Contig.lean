import Koowaldah.MemArea.Plist

/-!
# Contiguous areas and their pile

An area with `MMA_CONT` has one pile.  `alloc_pagelist_contig` links its pages with
`klist0_append`, which puts each in front of the others, so the first one on the list is the last
one of the pile.  `mem_area_kill` hands the first one on the list to `free_pages`, which takes it
for the page that opens the pile.

The free pages are the same as before for one page only (`contigArea_givesBack_iff`).
-/

namespace Koowaldah

open Function SysLib SysLib.Dyadic SysLib.Links

namespace VmState

/-- The pages of a pile in the order of the list. -/
def pilePages (k p : Nat) : List Nat := (List.range (2 ^ k)).reverse.map (fun i => p + i)

theorem pilePages_eq_cons (k p : Nat) : ∃ l, pilePages k p = (p + (2 ^ k - 1)) :: l := by
  have hpow : 2 ^ k = (2 ^ k - 1) + 1 := (Nat.sub_add_cancel (Nat.two_pow_pos k)).symm
  unfold pilePages
  rw [hpow, List.range_succ, List.reverse_append]
  exact ⟨_, rfl⟩

theorem pilePages_ne_nil (k p : Nat) : pilePages k p ≠ [] := by
  obtain ⟨l, hl⟩ := pilePages_eq_cons k p
  rw [hl]
  exact List.cons_ne_nil _ _

section Pile

variable {s s₁ s₂ : VmState} {list a map start flags npages fuel k p lo hi : Nat}
variable {live : List Block}

theorem appendRun_rest (s : VmState) (list p : Nat) : ∀ i,
    s.zone.SameLevels (s.appendRun list p i).zone ∧ (s.appendRun list p i).areas = s.areas
  | 0 => ⟨⟨rfl, rfl, rfl, rfl⟩, rfl⟩
  | i + 1 => by
    obtain ⟨hlevels, hareas⟩ := appendRun_rest s list p i
    exact ⟨⟨hlevels.base, hlevels.totalPages, hlevels.allocLevels, hlevels.order⟩, hareas⟩

theorem appendRun_plistIs (h : s.PlistIs list []) : ∀ i,
    (s.appendRun list p i).PlistIs list ((List.range i).reverse.map (fun j => p + j))
  | 0 => h
  | i + 1 => by
    have ih := appendRun_plistIs h i
    have hnot : p + i ∉ (List.range i).reverse.map (fun j => p + j) := by
      simp
    have hring := klist0Append_isRing ih (fun hm => hnot (page_mem_ring_iff.mp hm))
    have hlist : (List.range (i + 1)).reverse.map (fun j => p + j) =
        (p + i) :: (List.range i).reverse.map (fun j => p + j) := by
      rw [List.range_succ, List.reverse_append]
      rfl
    rw [hlist]
    exact hring

/-- An area that has a pile, with one user. -/
structure ContigArea (s : VmState) (a k p lo hi : Nat) (live : List Block) : Prop where
  record : ∃ r, s.areas a = some r ∧ r.mUsers = 1 ∧ hasFlag r.mFlags MMA_CLONE = false ∧
    hasFlag r.mFlags MMA_CONT = true
  plist : s.PlistIs a (pilePages k p)
  buddy : BuddyInv s.zone lo hi (⟨k, p⟩ :: live)

theorem mmaMapPages_eq_ok (hop : s.mmaMapPages fuel a = .ok s₁) :
    MapsInto a s s₁ ∧ (s₁.areas a).map MemArea.mUsers = (s.areas a).map MemArea.mUsers := by
  obtain ⟨org, -, hwalk⟩ := bind_eq_ok.mp hop
  refine walk_invariant (fun t => MapsInto a s t ∧
    (t.areas a).map MemArea.mUsers = (s.areas a).map MemArea.mUsers) ?_
    ⟨MapsInto.refl a s, rfl⟩ hwalk
  intro node t t' ht hbody
  refine ⟨ht.1.trans (mapPageOf_eq_ok hbody), ?_⟩
  obtain ⟨pg, -, hbody₁⟩ := bind_eq_ok.mp hbody
  obtain ⟨r, hr, hret⟩ := bind_eq_ok.mp hbody₁
  have hrecord := area_eq_ok.mp hr
  rw [← ht.2, hrecord, ← Except.ok.inj hret, rawMemAreaAddPage_eq]
  have hgrown : r.grown.mUsers = r.mUsers := by
    unfold MemArea.grown
    split <;> rfl
  have harea : ((((t.mapPage r.mMap r.nextAddr (pageToAddr t.zone pg) r.mProt).setVirt pg
      r.nextAddr).setArea a r.grown).areas a) = some r.grown := update_self ..
  exact (congrArg (Option.map MemArea.mUsers) harea).trans (congrArg some hgrown)

theorem memAreaAllocList_contig (map start : Nat) (hplist : s.PlistIs list (pilePages k p))
    (hbuddy : BuddyInv s.zone lo hi (⟨k, p⟩ :: live)) (hla : list ≠ a)
    (hcont : hasFlag flags MMA_CONT = true) (hclone : hasFlag flags MMA_CLONE = false) :
    (∃ s₁, s.memAreaAllocList ((pilePages k p).length + 1) a map start flags list = .ok s₁) ∧
      ∀ fuel s₁, s.memAreaAllocList fuel a map start flags list = .ok s₁ →
        ContigArea s₁ a k p lo hi live := by
  obtain ⟨hlist, hring⟩ :=
    memAreaAllocList_eq map start flags hplist (pilePages_ne_nil k p) hla
  have hrecord : ((s.memAreaAlloc a map start flags).setLinks
      (klist0Reparent (.head list) (.head a) s.zone.areaList)).areas a =
        some ⟨start, start, 0, 1, protOf flags, flags, 0, map⟩ := update_self ..
  refine ⟨?_, ?_⟩
  · obtain ⟨s₁, hmap, -⟩ := mmaMapPages_total hrecord hclone hring
    exact ⟨s₁, (hlist _).trans hmap⟩
  · intro fuel s₁ hop
    rw [hlist] at hop
    obtain ⟨hinto, husers⟩ := mmaMapPages_eq_ok hop
    obtain ⟨r, hr, hflags, -⟩ := hinto.record _ hrecord
    rw [hr, hrecord] at husers
    refine ⟨⟨r, hr, Option.some.inj husers, ?_, ?_⟩, ?_, ?_⟩
    · rw [hflags]
      exact hclone
    · rw [hflags]
      exact hcont
    · unfold PlistIs
      rw [hinto.links]
      exact hring
    · have hbuddy₁ : BuddyInv ((s.memAreaAlloc a map start flags).setLinks
          (klist0Reparent (.head list) (.head a) s.zone.areaList)).zone lo hi (⟨k, p⟩ :: live) :=
        hbuddy.congr ⟨rfl, rfl, rfl, rfl⟩
      exact hbuddy₁.congr hinto.zone

theorem rawAllocPages_isSome_congr {z z' : Zone} (hbuddy : BuddyInv z lo hi live)
    (hsame : z.SameLevels z') (hp : (rawAllocPages z k).2 = some p) :
    ∃ q, (rawAllocPages z' k).2 = some q := by
  have horder : k < MAX_ORDER :=
    ((rawAllocPages_buddy hbuddy hp).piles.held _ List.mem_cons_self).1
  obtain ⟨m, hkm, hm, hlevel⟩ :=
    hbuddy.level_ne_nil horder (hbuddy.freePageSet_alloc hp).1
  cases hq : (rawAllocPages z' k).2 with
  | some q => exact ⟨q, rfl⟩
  | none =>
    refine absurd ?_ hlevel
    rw [← hsame.allocLevels]
    exact (rawAllocPages_none hq).2 m hkm hm

theorem memAreaAllocNew_contig (start : Nat) (hbuddy : BuddyInv s.zone lo hi live)
    (hmap : map ≠ ROOT_MAP) (hla : list ≠ a) (hcont : hasFlag flags MMA_CONT = true)
    (hclone : hasFlag flags MMA_CLONE = false)
    (hpile : ((rawAllocPages s.zone (log2 npages)).2).isSome = true) :
    ∃ p, (∃ s₁, s.memAreaAllocNew (2 ^ log2 npages + 1) list map start npages flags a =
        .ok (true, s₁)) ∧
      ∀ fuel s₁, s.memAreaAllocNew fuel list map start npages flags a = .ok (true, s₁) →
        ContigArea s₁ a (log2 npages) p lo hi live := by
  obtain ⟨q, hq⟩ := Option.isSome_iff_exists.mp hpile
  have hsame : s.zone.SameLevels
      (s.setLinks (klist0Init (.head list) s.zone.areaList)).zone := ⟨rfl, rfl, rfl, rfl⟩
  obtain ⟨p, hp⟩ := rawAllocPages_isSome_congr hbuddy hsame hq
  have hinit : (s.setLinks (klist0Init (.head list) s.zone.areaList)).PlistIs list [] :=
    klist0Init_isRing _ _
  have hbuddy₀ := rawAllocPages_buddy (hbuddy.congr hsame) hp
  generalize hs₀ : s.setLinks (klist0Init (.head list) s.zone.areaList) = s₀ at *
  have hrest := rawAllocPages_sameRest s₀.zone (log2 npages)
  have htaken : ({ s₀ with zone := (rawAllocPages s₀.zone (log2 npages)).1 } :
      VmState).PlistIs list [] := by
    unfold PlistIs
    rw [hrest.areaList]
    exact hinit
  have hplist := appendRun_plistIs (p := p) htaken (2 ^ log2 npages)
  have hrun := appendRun_rest { s₀ with zone := (rawAllocPages s₀.zone (log2 npages)).1 }
    list p (2 ^ log2 npages)
  obtain ⟨⟨s₁, hs₁⟩, hall⟩ := memAreaAllocList_contig map start hplist
    (hbuddy₀.congr hrun.1) hla hcont hclone
  have hnew : ∀ fuel, s.memAreaAllocNew fuel list map start npages flags a =
      (({ s₀ with zone := (rawAllocPages s₀.zone (log2 npages)).1 } : VmState).appendRun list p
        (2 ^ log2 npages)).memAreaAllocList fuel a map start flags list >>=
          fun t => .ok (true, t) := by
    intro fuel
    unfold memAreaAllocNew
    rw [if_neg hmap]
    dsimp only
    rw [hs₀]
    unfold allocPagelist allocPagelistContig
    rw [if_pos hcont]
    simp only [hp]
    rfl
  have hlen : (pilePages (log2 npages) p).length = 2 ^ log2 npages := by
    simp [pilePages]
  refine ⟨p, ⟨s₁, ?_⟩, ?_⟩
  · rw [hlen] at hs₁
    rw [hnew]
    exact bind_eq_ok.mpr ⟨s₁, hs₁, rfl⟩
  · intro fuel t hop
    rw [hnew] at hop
    obtain ⟨t', ht', hret⟩ := bind_eq_ok.mp hop
    rw [← (Prod.mk.inj (Except.ok.inj hret)).2]
    exact hall fuel t' ht'

theorem ContigArea.put (h : ContigArea s a k p lo hi live) :
    (∃ s₂, s.memAreaPut (2 ^ k + 1) a = .ok s₂) ∧
      ∀ fuel s₂, s.memAreaPut fuel a = .ok s₂ →
        ∃ z, BuddyInv z lo hi (⟨k, p⟩ :: live) ∧
          s₂.zone = freePages z (p + (2 ^ k - 1)) := by
  obtain ⟨r, hr, husers, hclone, hcont⟩ := h.record
  obtain ⟨l, hl⟩ := pilePages_eq_cons k p
  have hring : (s.setArea a { r with mUsers := 0 }).zone.areaList.IsRing (.head a)
      ((pilePages k p).map AreaNode.page) := h.plist
  have hempty : klist0Empty (.head a) (s.setArea a { r with mUsers := 0 }).zone.areaList =
      false := by
    rw [Bool.eq_false_iff]
    intro he
    exact pilePages_ne_nil k p (List.map_eq_nil_iff.mp ((klist0Empty_iff hring).mp he))
  have hkill : ∀ fuel t, (s.setArea a { r with mUsers := 0 }).memAreaKill fuel a = .ok t ↔ _ :=
    fun fuel t => memAreaKill_eq_ok (update_self ..) hclone hempty
  have hfirst : ∀ t : VmState, KeepsLists (s.setArea a { r with mUsers := 0 }) t →
      pageOf (t.zone.areaList.next (.head a)) = .ok (p + (2 ^ k - 1)) := by
    intro t ht
    rw [ht.2, hring.next_head, hl]
    rfl
  refine ⟨?_, ?_⟩
  · have hlen : (pilePages k p).length < 2 ^ k + 1 := by
      simp [pilePages]
    obtain ⟨t, hloop, hkeeps⟩ := killLoop_ok r.mMap hring hlen
    refine ⟨({ t with zone := freePages t.zone (p + (2 ^ k - 1)) } : VmState).sliceFree a,
      (memAreaPut_last hr husers hclone (2 ^ k)).trans ((hkill _ _).mpr ⟨t, hloop, ?_⟩)⟩
    rw [if_pos hcont]
    exact ⟨_, hfirst t hkeeps, rfl⟩
  · intro fuel s₂ hop
    cases fuel with
    | zero => exact nomatch hop
    | succ fuel =>
      rw [memAreaPut_last hr husers hclone] at hop
      obtain ⟨t, hloop, hrest⟩ := (hkill _ _).mp hop
      rw [if_pos hcont] at hrest
      obtain ⟨pg, hpg, rfl⟩ := hrest
      have hkeeps := killLoop_eq_ok hloop
      have heq : p + (2 ^ k - 1) = pg := Except.ok.inj ((hfirst t hkeeps).symm.trans hpg)
      refine ⟨t.zone, ?_, ?_⟩
      · have hbuddy : BuddyInv (s.setArea a { r with mUsers := 0 }).zone lo hi
            (⟨k, p⟩ :: live) := h.buddy
        exact hbuddy.congr hkeeps.1
      · rw [heq]
        rfl

theorem ContigArea.start_free (h : ContigArea s a k p lo hi live) {z : Zone}
    (hbuddy : BuddyInv z lo hi live) : p ∈ freePageSet z := by
  have hpw :=
    (List.pairwise_append.mp (pairwise_of_cover_le_one h.buddy.piles.cover_le_one)).2.1
  rw [hbuddy.mem_freePageSet_iff]
  exact ⟨h.buddy.start_bounds List.mem_cons_self,
    fun b hb => (List.pairwise_cons.mp hpw).1 b hb p (Block.start_mem ⟨k, p⟩)⟩

/-- The page that opens a pile of two pages or more is not free after the put. -/
theorem ContigArea.put_leaks (h : ContigArea s a (k + 1) p lo hi live)
    (hput : s.memAreaPut fuel a = .ok s₂) : p ∉ freePageSet s₂.zone := by
  obtain ⟨z, hz, hzone⟩ := h.put.2 fuel s₂ hput
  rw [hzone]
  exact hz.start_not_freed

/-- `mem_area_alloc_new` with `MMA_CONT` and `mem_area_put` of what it answers, when there is a
pile: they come back and leave the free pages as they were exactly for one page. -/
theorem contigArea_givesBack_iff (hbuddy : BuddyInv s.zone lo hi live) (hpos : 1 ≤ npages)
    (hword : npages < WORD_RANGE) (hmap : map ≠ ROOT_MAP) (hla : list ≠ a)
    (hcont : hasFlag flags MMA_CONT = true) (hclone : hasFlag flags MMA_CLONE = false)
    (hpile : ((rawAllocPages s.zone (log2 npages)).2).isSome = true) :
    (∃ fuel s₁ s₂, s.memAreaAllocNew fuel list map start npages flags a = .ok (true, s₁) ∧
      s₁.memAreaPut fuel a = .ok s₂ ∧ freePageSet s₂.zone = freePageSet s.zone) ↔
      npages = 1 := by
  obtain ⟨p, ⟨s₁, hnew⟩, hall⟩ :=
    memAreaAllocNew_contig start hbuddy hmap hla hcont hclone hpile
  have hone : log2 npages = 0 ↔ npages = 1 := by
    have hle := log2_le_iff (k := 0) hpos hword
    omega
  constructor
  · rintro ⟨fuel, t₁, t₂, halloc, hput, hfree⟩
    have harea := hall fuel t₁ halloc
    by_contra hne
    obtain ⟨k, hk⟩ : ∃ k, log2 npages = k + 1 :=
      Nat.exists_eq_succ_of_ne_zero (fun hzero => hne (hone.mp hzero))
    rw [hk] at harea
    -- the page that opens the pile was free and is not free now
    refine harea.put_leaks hput ?_
    rw [hfree]
    exact harea.start_free hbuddy
  · intro hnpages
    have hzero := hone.mpr hnpages
    have harea := hall _ s₁ hnew
    rw [hzero] at hnew harea
    obtain ⟨⟨s₂, hput⟩, hputs⟩ := harea.put
    obtain ⟨z, hz, hzone⟩ := hputs _ s₂ hput
    have hback : BuddyInv s₂.zone lo hi live := by
      rw [hzone]
      exact freePages_buddy hz
    refine ⟨_, s₁, s₂, hnew, hput, ?_⟩
    ext x
    rw [hback.mem_freePageSet_iff, hbuddy.mem_freePageSet_iff]

end Pile

theorem contigArea_one_givesBack : ((rawAllocPages emptyVm.zone (log2 1)).2).isSome = true ∧
      ∃ fuel s₁ s₂,
        emptyVm.memAreaAllocNew fuel 9 7 0x8000000 1 (MMA_RW ||| MMA_CONT) 0 = .ok (true, s₁) ∧
        s₁.memAreaPut fuel 0 = .ok s₂ ∧ freePageSet s₂.zone = freePageSet emptyVm.zone := by
  have hpile : ((rawAllocPages emptyVm.zone (log2 1)).2).isSome = true := by decide +kernel
  exact ⟨hpile, (contigArea_givesBack_iff emptyVm_buddy (Nat.le_refl 1) (by decide) (by decide)
    (by decide) (by decide) (by decide) hpile).mpr rfl⟩

/-- Two pages: the first one of the pile is lost. -/
theorem contigArea_two_leaks : ∃ s₁ s₂ p,
    emptyVm.memAreaAllocNew 3 9 7 0x8000000 2 (MMA_RW ||| MMA_CONT) 0 = .ok (true, s₁) ∧
      s₁.memAreaPut 3 0 = .ok s₂ ∧ p ∈ freePageSet emptyVm.zone ∧ p ∉ freePageSet s₂.zone := by
  have hpile : ((rawAllocPages emptyVm.zone (log2 2)).2).isSome = true := by decide +kernel
  have hmap : 7 ≠ ROOT_MAP := by decide
  have hla : 9 ≠ 0 := by decide
  have hcont : hasFlag (MMA_RW ||| MMA_CONT) MMA_CONT = true := by decide
  obtain ⟨p, ⟨s₁, hnew⟩, hall⟩ :=
    memAreaAllocNew_contig 0x8000000 emptyVm_buddy hmap hla hcont (by decide) hpile
  have harea := hall _ s₁ hnew
  obtain ⟨⟨s₂, hput⟩, -⟩ := harea.put
  exact ⟨s₁, s₂, p, hnew, hput, harea.start_free emptyVm_buddy, harea.put_leaks hput⟩

end VmState

end Koowaldah
