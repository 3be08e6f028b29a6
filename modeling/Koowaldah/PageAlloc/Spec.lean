import Koowaldah.PageAlloc.Piles

/-!
# What the page allocator does to the piles

One spec lemma for each function of `kernel/page_alloc.c`:
`memZoneInit_buddy`, `rawAllocPages_buddy` and `freePages_buddy`.  Each says
that the function keeps `BuddyInv`, the invariant of a zone between two
calls: the piles on the levels and the piles handed out cut the managed pages
into aligned blocks, every opening page stores its order, and no level holds
both halves of a pile that could be one.

The loops are inductions.  `tileZone_inv` carries the greedy choice of
`mem_zone_init`, `splitPile_inv` the pile in hand of `__alloc_pages`, and
`coalesce_inv` the pile in hand of `free_pages`, whose opening page changes
with every merge to the left.
-/

namespace Koowaldah

open SysLib SysLib.Dyadic

variable {z z' : Zone} {pg a n : Nat}

/-- No level below the top holds both halves of a larger pile. -/
def NoBuddies (z : Zone) : Prop :=
  ∀ k i, k + 1 < MAX_ORDER → 2 ^ (k + 1) ∣ i → i ∈ z.allocLevels k →
    i + 2 ^ k ∉ z.allocLevels k

/-- The state of a zone between two calls, with the piles of `live` handed
out. -/
structure BuddyInv (z : Zone) (lo hi : Nat) (live : List Block) : Prop where
  piles : PilesInv z lo hi live
  stored : Stored z live
  merged : NoBuddies z

theorem NoBuddies.setLevel (h : NoBuddies z) {k : Nat} {l : List Nat}
    (hl : ∀ i, k + 1 < MAX_ORDER → 2 ^ (k + 1) ∣ i → i ∈ l → i + 2 ^ k ∉ l) :
    NoBuddies (z.setLevel k l) := by
  intro j i hj hi hmem
  rw [Zone.setLevel_allocLevels] at hmem ⊢
  split_ifs at hmem ⊢ with hjk
  · subst hjk
    exact hl i hj hi hmem
  · exact h j i hj hi hmem

theorem NoBuddies.setLevel_of_subset (h : NoBuddies z) {k : Nat} {l : List Nat}
    (hl : ∀ p ∈ l, p ∈ z.allocLevels k) : NoBuddies (z.setLevel k l) :=
  h.setLevel fun i hk hi hmem hmem' => h k i hk hi (hl i hmem) (hl _ hmem')

/-! ## Initialisation -/

section Init

variable {z : Zone} {lo i k : Nat} {held : List Block}

theorem PilesInv.extend (h : PilesInv z lo i held) (hlo : lo ≤ i)
    (hk : k < MAX_ORDER) (hal : 2 ^ k ∣ i) :
    PilesInv z lo (i + 2 ^ k) (⟨k, i⟩ :: held) where
  covers x := by
    have hx := h.covers x
    rw [cover_cons, ← Nat.add_assoc, hx]
    simp only [Block.mem_def]
    split_ifs <;> omega
  level := h.level
  held b hb := by
    rcases List.mem_cons.mp hb with rfl | hb
    · exact ⟨hk, hal⟩
    · exact h.held b hb

/-- Every pile that could open a larger one is followed by too few pages. -/
def Greedy (z : Zone) : Prop :=
  ∀ k p, p ∈ z.allocLevels k → k + 1 < MAX_ORDER → 2 ^ (k + 1) ∣ p →
    z.totalPages < p + 2 ^ (k + 1)

theorem tile_step (h : PilesInv z lo i []) (hg : Greedy z) (hlo : lo ≤ i)
    (hi : i < z.totalPages) (hk : k = reduceOrder (idxOrder i) (z.totalPages - i)) :
    PilesInv ((z.setOrder i k).setLevel k (z.allocLevels k ++ [i])) lo (i + 2 ^ k) [] ∧
      Greedy ((z.setOrder i k).setLevel k (z.allocLevels k ++ [i])) ∧
      i + 2 ^ k ≤ z.totalPages := by
  obtain ⟨hfit, hle, hmax⟩ := reduceOrder_spec (idxOrder i) (z.totalPages - i) (by omega)
  rw [← hk] at hfit hle hmax
  have hcap : k < MAX_ORDER := Nat.lt_of_le_of_lt hle (idxOrder_lt i)
  have hal : 2 ^ k ∣ i := Nat.dvd_trans (Nat.pow_dvd_pow 2 hle) (pow_idxOrder_dvd i)
  refine ⟨?_, ?_, by omega⟩
  · have hext := (h.extend hlo hcap hal).setOrder (b := ⟨k, i⟩) k
    exact hext.put (by simp) (List.perm_append_singleton i _)
  · intro j p hp hj hdvd
    rw [Zone.setLevel_allocLevels] at hp
    split_ifs at hp with hjk
    · subst hjk
      rcases List.mem_append.mp hp with hp | hp
      · exact hg j p hp hj hdvd
      · obtain rfl : p = i := by simpa using hp
        have hlt : j < idxOrder p := (lt_idxOrder_iff p j).mpr ⟨hj, hdvd⟩
        simp only [Zone.setLevel_totalPages, Zone.setOrder_totalPages]
        omega
    · exact hg j p hp hj hdvd

theorem tileZone_inv : ∀ (fuel i : Nat) (z : Zone), PilesInv z lo i [] → Greedy z →
    lo ≤ i → i ≤ z.totalPages → z.totalPages ≤ i + fuel →
    PilesInv (tileZone fuel i z) lo z.totalPages [] ∧ Greedy (tileZone fuel i z) ∧
      (tileZone fuel i z).totalPages = z.totalPages
  | 0, i, z, h, hg, _, hi, hfuel => by
    obtain rfl : i = z.totalPages := by omega
    exact ⟨h, hg, rfl⟩
  | fuel + 1, i, z, h, hg, hlo, hi, hfuel => by
    rw [tileZone]
    split_ifs with hlt
    · obtain ⟨h', hg', hle⟩ := tile_step h hg hlo hlt rfl
      have hpos := Nat.two_pow_pos (reduceOrder (idxOrder i) (z.totalPages - i))
      exact tileZone_inv fuel _ _ h' hg' (by omega) hle
        (by simp only [Zone.setLevel_totalPages, Zone.setOrder_totalPages]; omega)
    · obtain rfl : i = z.totalPages := by omega
      exact ⟨h, hg, rfl⟩

/-- A greedy tiling of all the pages has no pair of buddies: the pile that
opens the pair was cut short by the end of the zone, so the second half does
not fit. -/
theorem Greedy.noBuddies (hg : Greedy z) (h : PilesInv z lo z.totalPages []) : NoBuddies z := by
  intro k i hk hdvd hmem hmem'
  have hlt := hg k i hmem hk hdvd
  have hx : i + 2 ^ k + (2 ^ k - 1) ∈ Block.mk k (i + 2 ^ k) := by
    simp only [Block.mem_def]
    omega
  have hpos : 0 < cover (freePiles z) (i + 2 ^ k + (2 ^ k - 1)) :=
    cover_pos_iff.mpr ⟨_, mem_freePiles.mpr ⟨Nat.lt_of_succ_lt hk, hmem'⟩, hx⟩
  have hcov := h.covers (i + 2 ^ k + (2 ^ k - 1))
  split_ifs at hcov with hin <;> simp only [cover_nil] at hcov <;> omega

end Init

theorem blankZone_piles (z : Zone) {lo hi : Nat} (hle : hi ≤ lo) :
    PilesInv (blankZone z) lo hi [] := by
  refine ⟨fun x => ?_, fun k p hp => ?_, fun b hb => ?_⟩
  · have hfree : freePiles (blankZone z) = [] := by
      simp [freePiles, pilesBelow, blankZone]
    have hout : ¬ (lo ≤ x ∧ x < hi) := by omega
    simp [hfree, hout]
  · simp [blankZone] at hp
  · simp at hb

/-- `mem_zone_init` cuts the pages after the `struct page` array into piles
and hands out none. -/
theorem memZoneInit_buddy (z : Zone) (hz : consumedPages z.totalPages < z.totalPages) :
    BuddyInv (memZoneInit z) (consumedPages z.totalPages) z.totalPages [] := by
  obtain ⟨hpiles, hgreedy, htotal⟩ := tileZone_inv z.totalPages _ (blankZone z)
    (blankZone_piles z (Nat.le_refl (consumedPages z.totalPages)))
    (fun k p hp => by simp [blankZone] at hp) (Nat.le_refl _) (Nat.le_of_lt hz)
    (Nat.le_add_left _ _)
  have htotal' : (memZoneInit z).totalPages = z.totalPages := htotal
  have hall : PilesInv (memZoneInit z) (consumedPages z.totalPages)
      (memZoneInit z).totalPages [] := by
    rw [htotal']
    exact hpiles
  exact ⟨hpiles, fun b hb => by simp at hb, Greedy.noBuddies hgreedy hall⟩

theorem tileZone_of_le {i : Nat} (hle : z.totalPages ≤ i) :
    ∀ fuel, tileZone fuel i z = z
  | 0 => rfl
  | fuel + 1 => by rw [tileZone, if_neg (by omega)]

/-- `mem_zone_init` of a zone of any size.  A zone that the `struct page` array
fills has no pile. -/
theorem memZoneInit_inv (z : Zone) :
    BuddyInv (memZoneInit z) (consumedPages z.totalPages) z.totalPages [] := by
  by_cases hz : consumedPages z.totalPages < z.totalPages
  · exact memZoneInit_buddy z hz
  · have hle : z.totalPages ≤ consumedPages z.totalPages := Nat.le_of_not_lt hz
    have hblank : memZoneInit z = blankZone z := tileZone_of_le (z := blankZone z) hle _
    rw [hblank]
    refine ⟨blankZone_piles z hle, fun b hb => by simp at hb, ?_⟩
    intro k i _ _ hi
    simp [blankZone] at hi

/-! ## Allocation -/

theorem findLevel_some : ∀ {n i j : Nat}, findLevel z n i = some j →
    i ≤ j ∧ j < i + n ∧ z.allocLevels j ≠ [] ∧
      ∀ m, i ≤ m → m < j → z.allocLevels m = []
  | 0, i, j, h => by simp [findLevel] at h
  | n + 1, i, j, h => by
    rw [findLevel] at h
    split_ifs at h with hempty
    · obtain ⟨hij, hjn, hne, hlow⟩ := findLevel_some h
      refine ⟨by omega, by omega, hne, fun m him hmj => ?_⟩
      rcases Nat.lt_or_ge i m with hlt | hge
      · exact hlow m hlt hmj
      · obtain rfl : i = m := by omega
        exact List.isEmpty_iff.mp hempty
    · obtain rfl : i = j := Option.some_inj.mp h
      refine ⟨Nat.le_refl _, by omega, fun he => hempty (by simp [he]), ?_⟩
      intro m him hmi
      omega

theorem findLevel_none : ∀ {n i : Nat}, findLevel z n i = none →
    ∀ m, i ≤ m → m < i + n → z.allocLevels m = []
  | 0, i, _, m, him, hmi => by omega
  | n + 1, i, h, m, him, hmi => by
    rw [findLevel] at h
    split_ifs at h with hempty
    · rcases Nat.lt_or_ge i m with hlt | hge
      · exact findLevel_none h m hlt (by omega)
      · obtain rfl : i = m := by omega
        exact List.isEmpty_iff.mp hempty

section Alloc

variable {lo hi order : Nat} {live : List Block}

theorem splitPile_inv : ∀ (i pile : Nat) (z : Zone), order ≤ i →
    PilesInv z lo hi (⟨i, pile⟩ :: live) → Stored z live → NoBuddies z →
    (∀ j, order ≤ j → j < i → z.allocLevels j = []) →
    PilesInv (splitPile order i pile z).1 lo hi
        (⟨order, (splitPile order i pile z).2⟩ :: live) ∧
      Stored (splitPile order i pile z).1 live ∧
      NoBuddies (splitPile order i pile z).1
  | 0, pile, z, hle, h, hs, hb, _ => by
    obtain rfl : order = 0 := by omega
    exact ⟨h, hs, hb⟩
  | i + 1, pile, z, hle, h, hs, hb, hempty => by
    rw [splitPile]
    split_ifs with hgt
    · have hsplit := h.split
      have hs' : Stored (z.setOrder pile i) live := hs.setOrder h i
      have hput := (hsplit.setOrder (b := ⟨i, pile⟩) i).put (by simp)
        (List.Perm.refl (pile :: (z.setOrder pile i).allocLevels i))
      have hb' : NoBuddies ((z.setOrder pile i).setLevel i
          (pile :: (z.setOrder pile i).allocLevels i)) := by
        refine NoBuddies.setLevel (z := z.setOrder pile i) hb ?_
        intro p _ _ hp hp'
        simp only [Zone.setOrder_allocLevels, hempty i (by omega) (by omega),
          List.mem_singleton] at hp hp'
        omega
      refine splitPile_inv i (pile + 2 ^ i) _ (by omega) hput hs' hb' ?_
      intro j hj hji
      rw [Zone.setLevel_allocLevels, if_neg (by omega)]
      exact hempty j hj (by omega)
    · obtain rfl : order = i + 1 := by omega
      exact ⟨h, hs, hb⟩

/-- `__alloc_pages` answers `none` only when no level from the order asked for
up holds a pile, and then it leaves the zone alone. -/
theorem rawAllocPages_none {z : Zone} (h : (rawAllocPages z order).2 = none) :
    (rawAllocPages z order).1 = z ∧
      ∀ m, order ≤ m → m < MAX_ORDER → z.allocLevels m = [] := by
  rw [rawAllocPages] at h ⊢
  cases hfind : findLevel z (MAX_ORDER - order) order with
  | none =>
    refine ⟨rfl, fun m hm hcap => ?_⟩
    exact findLevel_none hfind m hm (by omega)
  | some i =>
    obtain ⟨-, -, hne, -⟩ := findLevel_some hfind
    obtain ⟨pile, rest, hlevel⟩ := List.exists_cons_of_ne_nil hne
    simp [hfind, hlevel] at h

theorem rawAllocPages_buddy {z : Zone} {pg : Nat} (h : BuddyInv z lo hi live)
    (hsome : (rawAllocPages z order).2 = some pg) :
    BuddyInv (rawAllocPages z order).1 lo hi (⟨order, pg⟩ :: live) := by
  rw [rawAllocPages] at hsome ⊢
  cases hfind : findLevel z (MAX_ORDER - order) order with
  | none => simp [hfind] at hsome
  | some i =>
    obtain ⟨hle, -, hne, hlow⟩ := findLevel_some hfind
    obtain ⟨pile, rest, hlevel⟩ := List.exists_cons_of_ne_nil hne
    have htake := h.piles.take (k := i) (p := pile) (l := rest) (by rw [hlevel])
    have hb : NoBuddies (z.setLevel i rest) :=
      h.merged.setLevel_of_subset (by rw [hlevel]; simp +contextual)
    obtain ⟨hpiles, hstored, hmerged⟩ := splitPile_inv i pile (z.setLevel i rest) hle
      htake h.stored hb (by
        intro j hj hji
        rw [Zone.setLevel_allocLevels, if_neg (by omega)]
        exact hlow j hj hji)
    simp only [hfind, hlevel] at hsome ⊢
    obtain rfl := Option.some_inj.mp hsome
    refine ⟨hpiles.setOrder (b := ⟨order, _⟩) order, ?_, hmerged⟩
    intro c hc
    rcases List.mem_cons.mp hc with rfl | hc
    · simp
    · exact hstored.setOrder hpiles order c hc

end Alloc

/-! ## Deallocation -/

section Free

variable {lo hi : Nat} {live : List Block}

variable {z : Zone} {pg : Nat}

theorem merge_step {k neighbour : Nat} (h : PilesInv z lo hi (⟨k, pg⟩ :: live)) (hs : Stored z live)
    (hnb : neighbour ∈ z.allocLevels k)
    (hmerge : (mergesLeft pg k neighbour || mergesRight pg k neighbour) = true)
    (hord : z.order pg = k) :
    let z' := z.setLevel k ((z.allocLevels k).erase neighbour)
    let pg' := if mergesLeft pg k neighbour then neighbour else pg
    z.order pg' = k ∧ k + 1 < MAX_ORDER ∧
      PilesInv (z'.setOrder pg' (k + 1)) lo hi (⟨k + 1, pg'⟩ :: live) ∧
      Stored (z'.setOrder pg' (k + 1)) live := by
  intro z' pg'
  have htake : PilesInv z' lo hi (⟨k, neighbour⟩ :: ⟨k, pg⟩ :: live) :=
    h.take (List.perm_cons_erase hnb)
  suffices hjoin : z.order pg' = k ∧ k + 1 < MAX_ORDER ∧
      PilesInv z' lo hi (⟨k + 1, pg'⟩ :: live) by
    refine ⟨hjoin.1, hjoin.2.1, hjoin.2.2.setOrder (b := ⟨k + 1, pg'⟩) (k + 1), ?_⟩
    exact Stored.setOrder (z := z') hs hjoin.2.2 (k + 1)
  by_cases hleft : mergesLeft pg k neighbour = true
  · have hpg' : pg' = neighbour := if_pos hleft
    simp only [mergesLeft, Bool.and_eq_true, decide_eq_true_eq] at hleft
    obtain ⟨hcap, hdvd⟩ := (lt_idxOrder_iff _ _).mp hleft.2
    rw [hpg']
    refine ⟨(h.level k neighbour hnb).2.2, hcap, ?_⟩
    rw [hleft.1] at htake
    exact htake.join hcap hdvd
  · have hpg' : pg' = pg := if_neg hleft
    have hright : mergesRight pg k neighbour = true := by
      simpa [hleft] using hmerge
    simp only [mergesRight, Bool.and_eq_true, decide_eq_true_eq] at hright
    obtain ⟨hcap, hdvd⟩ := (lt_idxOrder_iff _ _).mp hright.2
    rw [hpg']
    refine ⟨hord, hcap, ?_⟩
    rw [hright.1] at htake
    exact htake.swap.join hcap hdvd

/-- The merging loop leaves a pile in hand that has no neighbour to merge
with on its level. -/
theorem coalesce_inv : ∀ (fuel k pg : Nat) (z : Zone), MAX_ORDER ≤ fuel + k →
    PilesInv z lo hi (⟨k, pg⟩ :: live) → z.order pg = k → Stored z live → NoBuddies z →
    ∃ k', (coalesce fuel pg z).1.order (coalesce fuel pg z).2 = k' ∧
      PilesInv (coalesce fuel pg z).1 lo hi (⟨k', (coalesce fuel pg z).2⟩ :: live) ∧
      Stored (coalesce fuel pg z).1 live ∧ NoBuddies (coalesce fuel pg z).1 ∧
      ∀ nb ∈ (coalesce fuel pg z).1.allocLevels k',
        ¬ (mergesLeft (coalesce fuel pg z).2 k' nb ||
          mergesRight (coalesce fuel pg z).2 k' nb) = true
  | 0, k, pg, z, hfuel, h, _, _, _ => by
    have hk : k < MAX_ORDER := (h.held ⟨k, pg⟩ (by simp)).1
    omega
  | fuel + 1, k, pg, z, hfuel, h, hord, hs, hb => by
    rw [coalesce]
    simp only [hord]
    cases hfind : (z.allocLevels k).find?
        (fun nb => mergesLeft pg k nb || mergesRight pg k nb) with
    | none =>
      refine ⟨k, hord, h, hs, hb, ?_⟩
      exact List.find?_eq_none.mp hfind
    | some neighbour =>
      have hnb : neighbour ∈ z.allocLevels k := List.mem_of_find?_eq_some hfind
      have hmerge := List.find?_some hfind
      obtain ⟨hord', hcap, hpiles, hstored⟩ :=
        merge_step h hs hnb hmerge hord
      have hb' : NoBuddies (z.setLevel k ((z.allocLevels k).erase neighbour)) :=
        hb.setLevel_of_subset fun p hp => List.mem_of_mem_erase hp
      simp only [Zone.setLevel_order, hord']
      rw [if_pos (by simp [hcap])]
      exact coalesce_inv fuel (k + 1) _ _ (by omega) hpiles (by simp) hstored hb'

theorem NoBuddies.put (h : NoBuddies z) {k : Nat}
    (hno : ∀ nb ∈ z.allocLevels k, ¬ (mergesLeft pg k nb || mergesRight pg k nb) = true) :
    NoBuddies (z.setLevel k (pg :: z.allocLevels k)) := by
  refine h.setLevel ?_
  intro i hk hdvd hi hi'
  have hidx : k < idxOrder i := (lt_idxOrder_iff i k).mpr ⟨hk, hdvd⟩
  rcases List.mem_cons.mp hi with rfl | hi <;>
    rcases List.mem_cons.mp hi' with he | hi'
  · omega
  · exact hno _ hi' (by simp [mergesRight, hidx])
  · exact hno i hi (by simp [mergesLeft, hidx, he])
  · exact h k i hk hdvd hi hi'

theorem freePages_buddy {order : Nat} (h : BuddyInv z lo hi (⟨order, pg⟩ :: live)) :
    BuddyInv (freePages z pg) lo hi live := by
  have hord : z.order pg = order := h.stored ⟨order, pg⟩ (by simp)
  have hs : Stored z live := fun c hc => h.stored c (by simp [hc])
  obtain ⟨k, hk, hpiles, hstored, hmerged, hno⟩ := coalesce_inv MAX_ORDER order pg z
    (Nat.le_add_right _ _) h.piles hord hs h.merged
  have hput := hpiles.put hk (List.Perm.refl _)
  have hb := hmerged.put hno
  rw [freePages]
  simp only [hk]
  split_ifs
  · exact ⟨hput, hstored, hb⟩
  · exact ⟨⟨hput.covers, hput.level, hput.held⟩, hstored, hb⟩

theorem BuddyInv.perm {live' : List Block} (h : BuddyInv z lo hi live) (hperm : live.Perm live') :
    BuddyInv z lo hi live' where
  piles := h.piles.congr_held (fun x => cover_perm hperm.symm x)
    (fun c hc => h.piles.held c (hperm.mem_iff.mpr hc))
  stored c hc := h.stored c (hperm.mem_iff.mpr hc)
  merged := h.merged

theorem BuddyInv.free {order : Nat} (h : BuddyInv z lo hi live) (hb : ⟨order, pg⟩ ∈ live) :
    BuddyInv (freePages z pg) lo hi (live.erase ⟨order, pg⟩) :=
  freePages_buddy (h.perm (List.perm_cons_erase hb))

theorem BuddyInv.start_bounds {b : Block} (h : BuddyInv z lo hi live) (hb : b ∈ live) :
    lo ≤ b.start ∧ b.start < hi := by
  have hcover : 0 < cover live b.start := cover_pos_iff.mpr ⟨b, hb, b.start_mem⟩
  have hx := h.piles.covers b.start
  by_contra hout
  rw [if_neg hout] at hx
  omega

end Free

/-! ## What no call changes -/

def Zone.SamePages (z z' : Zone) : Prop := z'.base = z.base ∧ z'.totalPages = z.totalPages

/-- Two zones that differ in the levels, the orders and the count of free pages at most. -/
structure Zone.SameRest (z z' : Zone) : Prop where
  base : z'.base = z.base
  totalPages : z'.totalPages = z.totalPages
  virt : z'.virt = z.virt
  areaList : z'.areaList = z.areaList

theorem Zone.SameRest.samePages (h : z.SameRest z') : z.SamePages z' :=
  ⟨h.base, h.totalPages⟩

theorem tileZone_sameRest : ∀ (fuel i : Nat) (z : Zone), z.SameRest (tileZone fuel i z)
  | 0, _, _ => ⟨rfl, rfl, rfl, rfl⟩
  | fuel + 1, i, z => by
    unfold tileZone
    split
    · have hrest := tileZone_sameRest fuel
      exact ⟨(hrest ..).base, (hrest ..).totalPages, (hrest ..).virt, (hrest ..).areaList⟩
    · exact ⟨rfl, rfl, rfl, rfl⟩

theorem memZoneInit_samePages (z : Zone) : z.SamePages (memZoneInit z) :=
  (tileZone_sameRest _ _ (blankZone z)).samePages

theorem splitPile_sameRest (order : Nat) : ∀ (i pile : Nat) (z : Zone),
    z.SameRest (splitPile order i pile z).1
  | 0, _, _ => ⟨rfl, rfl, rfl, rfl⟩
  | i + 1, pile, z => by
    unfold splitPile
    split
    · have hrest := splitPile_sameRest order i
      exact ⟨(hrest ..).base, (hrest ..).totalPages, (hrest ..).virt, (hrest ..).areaList⟩
    · exact ⟨rfl, rfl, rfl, rfl⟩

theorem rawAllocPages_sameRest (z : Zone) (order : Nat) : z.SameRest (rawAllocPages z order).1 := by
  unfold rawAllocPages
  split
  · exact ⟨rfl, rfl, rfl, rfl⟩
  · split
    · exact ⟨rfl, rfl, rfl, rfl⟩
    · have hrest := splitPile_sameRest order
      exact ⟨(hrest ..).base, (hrest ..).totalPages, (hrest ..).virt, (hrest ..).areaList⟩

theorem rawAllocPages_samePages (z : Zone) (order : Nat) : z.SamePages (rawAllocPages z order).1 :=
  (rawAllocPages_sameRest z order).samePages

theorem coalesce_sameRest : ∀ (fuel pg : Nat) (z : Zone), z.SameRest (coalesce fuel pg z).1
  | 0, _, _ => ⟨rfl, rfl, rfl, rfl⟩
  | fuel + 1, pg, z => by
    have hrest := coalesce_sameRest fuel
    unfold coalesce
    dsimp only
    split
    · exact ⟨rfl, rfl, rfl, rfl⟩
    · split_ifs
      · exact ⟨(hrest ..).base, (hrest ..).totalPages, (hrest ..).virt, (hrest ..).areaList⟩
      · exact ⟨rfl, rfl, rfl, rfl⟩
      · exact ⟨(hrest ..).base, (hrest ..).totalPages, (hrest ..).virt, (hrest ..).areaList⟩
      · exact ⟨rfl, rfl, rfl, rfl⟩

theorem freePages_samePages (z : Zone) (pg : Nat) : z.SamePages (freePages z pg) := by
  have hrest := (coalesce_sameRest MAX_ORDER pg z).samePages
  unfold freePages
  dsimp only
  split
  · exact hrest
  · exact hrest

/-- The levels and the orders are the same too. -/
structure Zone.SameLevels (z z' : Zone) : Prop where
  base : z'.base = z.base
  totalPages : z'.totalPages = z.totalPages
  allocLevels : z'.allocLevels = z.allocLevels
  order : z'.order = z.order

theorem BuddyInv.congr {lo hi : Nat} {live : List Block} (h : BuddyInv z lo hi live)
    (hsame : z.SameLevels z') : BuddyInv z' lo hi live where
  piles :=
    { covers := by
        unfold freePiles pilesBelow
        rw [hsame.allocLevels]
        exact h.piles.covers
      level := by
        rw [hsame.allocLevels, hsame.order]
        exact h.piles.level
      held := h.piles.held }
  stored := by
    unfold Stored
    rw [hsame.order]
    exact h.stored
  merged := by
    unfold NoBuddies
    rw [hsame.allocLevels]
    exact h.merged

theorem pageToAddr_congr (hsame : z.SamePages z') (pg : Nat) :
    pageToAddr z' pg = pageToAddr z pg := by
  unfold pageToAddr
  rw [hsame.1]

theorem addrToPage_pageToAddr (hpos : 0 < pg) (hlt : pg < z.totalPages) :
    addrToPage z (pageToAddr z pg) = some pg := by
  unfold addrToPage pageToAddr
  have hmul := Nat.mul_lt_mul_of_pos_right hlt (show 0 < PAGE_SIZE by decide)
  have hbase : 0 < pg * PAGE_SIZE := Nat.mul_pos hpos (by decide)
  rw [if_pos (by omega), Nat.add_sub_cancel_left, Nat.mul_div_cancel _ (by decide)]

theorem putPages_pageToAddr (hpos : 0 < pg) (hlt : pg < z.totalPages) :
    putPages z (pageToAddr z pg) = some (freePages z pg) := by
  unfold putPages
  rw [addrToPage_pageToAddr hpos hlt]
  rfl

theorem apartFrom_page : ApartFrom z ⟨0, pg⟩ a n ↔
      a + n ≤ pageToAddr z pg ∨ pageToAddr z pg + PAGE_SIZE ≤ a := by
  unfold ApartFrom pageToAddr
  rw [Nat.pow_zero, Nat.add_mul, Nat.one_mul, Nat.add_assoc]

theorem ApartFrom.congr {b : Block} (h : ApartFrom z b a n) (hsame : z.SamePages z') :
    ApartFrom z' b a n := by
  unfold ApartFrom at *
  rw [pageToAddr_congr hsame, pageToAddr_congr hsame]
  exact h

theorem ApartFrom.mono {b : Block} {a' n' : Nat} (h : ApartFrom z b a n) (hlo : a ≤ a')
    (hhi : a' + n' ≤ a + n) : ApartFrom z b a' n' := by
  unfold ApartFrom at *
  omega

end Koowaldah
