import Koowaldah.PageAlloc.Runs

/-!
# The page that opens the merged pile

`free_pages` merges the pile it is given with its free neighbours, and the page
that opens the result need not be the one it was called with.  The last lines
of the function unlink the `area_list` node of the opening page only, so the
callers that walk along an `area_list` depend on which page that is.
-/

namespace Koowaldah

open SysLib SysLib.Dyadic

/-- The page that opens the pile that `free_pages` puts on a level. -/
def opener (z : Zone) (pg : Nat) : Nat := (coalesce MAX_ORDER pg z).2

/-- Every other page is free in the smallest block of the buddy system that `pg`
lies in and does not open. -/
def JoinsLeft (F : Set Nat) (pg : Nat) : Prop :=
  idxOrder pg + 1 < MAX_ORDER ∧
    ∀ x, pg - 2 ^ idxOrder pg ≤ x → x < pg + 2 ^ idxOrder pg → x ≠ pg → x ∈ F

/-! ## What `free_pages` changes -/

/-- One round of the merging loop: it is the last one, or a neighbour is taken
off its level and the loop goes on, or ends, with the merged pile. -/
theorem coalesce_succ (fuel pg : Nat) (z : Zone) :
    coalesce (fuel + 1) pg z = (z, pg) ∨
      ∃ nb pg', nb ∈ z.allocLevels (z.order pg) ∧
        (pg' = pg ∨ pg' = nb ∧ pg = nb + 2 ^ z.order pg) ∧
        let z' := (z.setLevel (z.order pg) ((z.allocLevels (z.order pg)).erase nb)).setOrder pg'
          (z.order pg' + 1)
        coalesce (fuel + 1) pg z = coalesce fuel pg' z' ∨ coalesce (fuel + 1) pg z = (z', pg') := by
  rw [coalesce]
  cases hfind : (z.allocLevels (z.order pg)).find?
      (fun nb => mergesLeft pg (z.order pg) nb || mergesRight pg (z.order pg) nb) with
  | none => exact Or.inl rfl
  | some nb =>
    have hpg' : (if mergesLeft pg (z.order pg) nb then nb else pg) = pg ∨
        (if mergesLeft pg (z.order pg) nb then nb else pg) = nb ∧ pg = nb + 2 ^ z.order pg := by
      by_cases hleft : mergesLeft pg (z.order pg) nb = true
      · refine Or.inr ⟨if_pos hleft, ?_⟩
        unfold mergesLeft at hleft
        rw [Bool.and_eq_true, decide_eq_true_eq] at hleft
        exact hleft.1
      · exact Or.inl (if_neg hleft)
    refine Or.inr ⟨nb, _, List.mem_of_find?_eq_some hfind, hpg', ?_⟩
    exact ite_eq_or_eq _ _ _

/-- The merging loop only takes piles off the levels, and the page it ends with
is the one it was given or opened one of them. -/
theorem coalesce_levels : ∀ (fuel pg : Nat) (z : Zone),
    (∀ k, ∀ p ∈ (coalesce fuel pg z).1.allocLevels k, p ∈ z.allocLevels k) ∧
      ((coalesce fuel pg z).2 = pg ∨ ∃ k, (coalesce fuel pg z).2 ∈ z.allocLevels k)
  | 0, _, _ => ⟨fun _ _ hp => hp, Or.inl rfl⟩
  | fuel + 1, pg, z => by
    rcases coalesce_succ fuel pg z with heq | ⟨nb, pg', hnb, hpg', hcase⟩
    · rw [heq]
      exact ⟨fun _ _ hp => hp, Or.inl rfl⟩
    · have hsub : ∀ j, ∀ p ∈ ((z.setLevel (z.order pg)
          ((z.allocLevels (z.order pg)).erase nb)).setOrder pg' (z.order pg' + 1)).allocLevels j,
          p ∈ z.allocLevels j := by
        intro j p hp
        rw [Zone.setOrder_allocLevels, Zone.setLevel_allocLevels] at hp
        split_ifs at hp with hj
        · rw [hj]
          exact List.mem_of_mem_erase hp
        · exact hp
      have hopen : pg' = pg ∨ ∃ j, pg' ∈ z.allocLevels j := by
        rcases hpg' with heq | ⟨heq, -⟩
        · exact Or.inl heq
        · exact Or.inr ⟨_, heq ▸ hnb⟩
      rcases hcase with heq | heq
      · rw [heq]
        rcases coalesce_levels fuel pg' ((z.setLevel (z.order pg)
          ((z.allocLevels (z.order pg)).erase nb)).setOrder pg' (z.order pg' + 1))
          with ⟨hlevels, hsnd⟩
        refine ⟨fun j p hp => hsub j p (hlevels j p hp), ?_⟩
        rcases hsnd with hsnd | ⟨j, hj⟩
        · rw [hsnd]
          exact hopen
        · exact Or.inr ⟨j, hsub j _ hj⟩
      · rw [heq]
        exact ⟨hsub, hopen⟩

theorem freePages_areaList (z : Zone) (pg : Nat) :
    (freePages z pg).areaList =
      if klist0Empty (.page (opener z pg)) z.areaList then z.areaList
      else klist0Unlink (.page (opener z pg)) z.areaList := by
  have hlinks := (coalesce_sameRest MAX_ORDER pg z).areaList
  unfold freePages opener
  generalize coalesce MAX_ORDER pg z = r at hlinks ⊢
  rw [← hlinks]
  rcases r with ⟨z', q⟩
  show (if klist0Empty (.page q) z'.areaList = true then _ else _ : Zone).areaList = _
  split
  · rfl
  · rfl

theorem freePages_allocLevels (z : Zone) (pg : Nat) : (freePages z pg).allocLevels =
      ((coalesce MAX_ORDER pg z).1.setLevel ((coalesce MAX_ORDER pg z).1.order (opener z pg))
        (opener z pg ::
          (coalesce MAX_ORDER pg z).1.allocLevels
            ((coalesce MAX_ORDER pg z).1.order (opener z pg)))).allocLevels := by
  unfold freePages opener
  generalize coalesce MAX_ORDER pg z = r
  dsimp only
  split
  · rfl
  · rfl

/-- The piles on the levels after `free_pages` are the merged one and some of
those that were there. -/
theorem mem_freePages_level {z : Zone} {pg k p : Nat}
    (hp : p ∈ (freePages z pg).allocLevels k) : p = opener z pg ∨ p ∈ z.allocLevels k := by
  rw [freePages_allocLevels, Zone.setLevel_allocLevels] at hp
  split_ifs at hp with hk
  · rcases List.mem_cons.mp hp with heq | hmem
    · exact Or.inl heq
    · exact Or.inr ((coalesce_levels _ _ _).1 k p (hk ▸ hmem))
  · exact Or.inr ((coalesce_levels _ _ _).1 k p hp)

theorem opener_mem (z : Zone) (pg : Nat) : ∃ k, opener z pg ∈ (freePages z pg).allocLevels k := by
  refine ⟨(coalesce MAX_ORDER pg z).1.order (opener z pg), ?_⟩
  rw [freePages_allocLevels, Zone.setLevel_allocLevels, if_pos rfl]
  exact List.mem_cons_self

/-- The page that opens the merged pile opened one before, unless it is the page
that is freed. -/
theorem opener_cases (z : Zone) (pg : Nat) :
    opener z pg = pg ∨ ∃ k, opener z pg ∈ z.allocLevels k :=
  (coalesce_levels MAX_ORDER pg z).2

/-! ## A single page -/

section Single

variable {z : Zone} {lo hi pg : Nat} {live : List Block}

theorem BuddyInv.freePageSet_free (h : BuddyInv z lo hi (⟨0, pg⟩ :: live)) :
    freePageSet (freePages z pg) = insert pg (freePageSet z) := by
  have h' : BuddyInv (freePages z pg) lo hi live := freePages_buddy h
  have hpw := (List.pairwise_append.mp (pairwise_of_cover_le_one h.piles.cover_le_one)).2.1
  have hout := (List.pairwise_cons.mp hpw).1
  ext x
  rw [Set.mem_insert_iff, h.mem_freePageSet_iff, h'.mem_freePageSet_iff, List.forall_mem_cons]
  have hx : x ∈ Block.mk 0 pg ↔ x = pg := by
    rw [Block.mem_def]
    dsimp only
    omega
  rw [hx]
  constructor
  · intro hfree
    by_cases heq : x = pg
    · exact Or.inl heq
    · exact Or.inr ⟨hfree.1, heq, hfree.2⟩
  · intro hor
    rcases hor with rfl | hfree
    · exact ⟨h.start_bounds List.mem_cons_self, fun b hb => hout b hb x (hx.mpr rfl)⟩
    · exact ⟨hfree.1, hfree.2.2⟩

theorem BuddyInv.mem_opener (h : BuddyInv z lo hi (⟨0, pg⟩ :: live)) :
    ∃ k, ⟨k, opener z pg⟩ ∈ freePiles (freePages z pg) ∧ pg ∈ Block.mk k (opener z pg) := by
  have hfree : pg ∈ freePageSet (freePages z pg) := by
    rw [h.freePageSet_free]
    exact Set.mem_insert _ _
  have hnot : pg ∉ freePageSet z := by
    intro hmem
    exact (h.mem_freePageSet_iff.mp hmem).2 _ List.mem_cons_self (Block.start_mem ⟨0, pg⟩)
  rcases hfree with ⟨b, hb, hpg⟩
  rcases mem_freePages_level (mem_freePiles.mp hb).2 with heq | hold
  · refine ⟨b.order, ?_, ?_⟩
    · rw [← heq]
      exact hb
    · rw [← heq]
      exact hpg
  · exact absurd ⟨b, mem_freePiles.mpr ⟨(mem_freePiles.mp hb).1, hold⟩, hpg⟩ hnot

theorem joinBlock_aligned (hcap : idxOrder pg + 1 < MAX_ORDER) :
    2 ^ idxOrder pg ≤ pg ∧ (Block.mk (idxOrder pg + 1) (pg - 2 ^ idxOrder pg)).Aligned := by
  have hodd : ¬ 2 ^ (idxOrder pg + 1) ∣ pg := by
    intro hdvd
    have hlt := (lt_idxOrder_iff pg (idxOrder pg)).mpr ⟨hcap, hdvd⟩
    exact Nat.lt_irrefl _ hlt
  rcases pow_idxOrder_dvd pg with ⟨q, hq⟩
  have hq₂ : q % 2 = 1 := by
    rcases Nat.mod_two_eq_zero_or_one q with heven | hone
    · rcases Nat.dvd_of_mod_eq_zero heven with ⟨c, rfl⟩
      refine absurd ⟨c, ?_⟩ hodd
      rw [Nat.pow_succ, Nat.mul_assoc]
      exact hq
    · exact hone
  have hqpos : 1 ≤ q := by omega
  have hle : 2 ^ idxOrder pg ≤ pg := by
    calc 2 ^ idxOrder pg ≤ 2 ^ idxOrder pg * q := Nat.le_mul_of_pos_right _ hqpos
      _ = pg := hq.symm
  refine ⟨hle, q / 2, ?_⟩
  have hhalf : q - 1 = 2 * (q / 2) := by omega
  calc pg - 2 ^ idxOrder pg = 2 ^ idxOrder pg * (q - 1) := by
        rw [Nat.mul_sub, Nat.mul_one, ← hq]
    _ = 2 ^ (idxOrder pg + 1) * (q / 2) := by rw [hhalf, Nat.pow_succ, Nat.mul_assoc]

/-- A single page joins a pile on its left exactly when the block around it is
free but for the page. -/
theorem opener_ne_iff (h : BuddyInv z lo hi (⟨0, pg⟩ :: live)) :
    opener z pg ≠ pg ↔ JoinsLeft (freePageSet z) pg := by
  have h' : BuddyInv (freePages z pg) lo hi live := freePages_buddy h
  rcases h.mem_opener with ⟨k, hpile, hpg⟩
  have hpileAl := h'.tiling.aligned _ hpile
  constructor
  · intro hne
    have hlt : idxOrder pg < k := by
      by_contra hge
      have hal : (Block.mk k pg).Aligned :=
        Nat.dvd_trans (Nat.pow_dvd_pow 2 (Nat.not_lt.mp hge)) (pow_idxOrder_dvd pg)
      have heq := hpileAl.eq_of_mem hal rfl hpg (Block.start_mem ⟨k, pg⟩)
      exact hne (Block.mk.inj heq).2
    have hcap : idxOrder pg + 1 < MAX_ORDER :=
      Nat.lt_of_le_of_lt hlt (mem_freePiles.mp hpile).1
    rcases joinBlock_aligned hcap with ⟨hle, hal⟩
    refine ⟨hcap, ?_⟩
    intro x hlo hhi hx
    have hmem : pg ∈ Block.mk (idxOrder pg + 1) (pg - 2 ^ idxOrder pg) := by
      rw [Block.mem_def]
      dsimp only
      omega
    have hsub := hal.subset_of_mem hpileAl hlt hmem hpg x (by
      rw [Block.mem_def]
      dsimp only
      omega)
    have hfree : x ∈ freePageSet (freePages z pg) := ⟨_, hpile, hsub⟩
    rw [h.freePageSet_free] at hfree
    exact hfree.resolve_left hx
  · intro hjoin heq
    rcases joinBlock_aligned hjoin.1 with ⟨hle, hal⟩
    have hpos := Nat.two_pow_pos (idxOrder pg)
    rcases h'.tiling.exists_tile h'.coalesced _ _ hjoin.1 hal (by
      intro x hx
      rw [Block.mem_def] at hx
      dsimp only at hx
      rw [h.freePageSet_free]
      by_cases hxpg : x = pg
      · exact Or.inl hxpg
      · exact Or.inr (hjoin.2 x (by omega) (by omega) hxpg)) with ⟨c, hc, -, hsub⟩
    have hpgc : pg ∈ c := hsub pg (by
      rw [Block.mem_def]
      dsimp only
      omega)
    have hstart := hsub _ (Block.start_mem _)
    rw [h'.tiling.eq_of_mem c hc _ hpile pg hpgc hpg, Block.mem_def] at hstart
    dsimp only at hstart
    omega

end Single

/-! ## No pile before the page -/

/-- When no free pile ends right before the page, it opens the merged pile. -/
theorem coalesce_eq_of_gap : ∀ (fuel pg : Nat) (z : Zone),
    (∀ k, ∀ p ∈ z.allocLevels k, p + 2 ^ k ≠ pg) → (coalesce fuel pg z).2 = pg
  | 0, _, _, _ => rfl
  | fuel + 1, pg, z, hgap => by
    rcases coalesce_succ fuel pg z with heq | ⟨nb, pg', hnb, hpg', hcase⟩
    · rw [heq]
    · have hsame : pg' = pg := by
        rcases hpg' with heq | ⟨-, hend⟩
        · exact heq
        · exact absurd hend.symm (hgap _ nb hnb)
      rw [hsame] at hcase
      rcases hcase with heq | heq
      · rw [heq]
        apply coalesce_eq_of_gap
        intro k p hp
        rw [Zone.setOrder_allocLevels, Zone.setLevel_allocLevels] at hp
        split_ifs at hp with hk
        · rw [hk]
          exact hgap _ p (List.mem_of_mem_erase hp)
        · exact hgap k p hp
      · rw [heq]

theorem opener_eq_of_gap {z : Zone} {pg : Nat}
    (hgap : ∀ k, ∀ p ∈ z.allocLevels k, p + 2 ^ k ≠ pg) : opener z pg = pg :=
  coalesce_eq_of_gap MAX_ORDER pg z hgap

theorem BuddyInv.start_not_freed {z : Zone} {lo hi k start : Nat} {live : List Block}
    (h : BuddyInv z lo hi (⟨k + 1, start⟩ :: live)) :
    start ∉ freePageSet (freePages z (start + (2 ^ (k + 1) - 1))) := by
  intro hfree
  have hpow : 2 ≤ 2 ^ (k + 1) := by
    have hpos := Nat.two_pow_pos k
    omega
  have hheld : ∀ x, x ∈ Block.mk (k + 1) start → x ∉ freePageSet z :=
    fun x hx hfree => (h.mem_freePageSet_iff.mp hfree).2 _ List.mem_cons_self hx
  have hgap : opener z (start + (2 ^ (k + 1) - 1)) = start + (2 ^ (k + 1) - 1) := by
    apply opener_eq_of_gap
    intro j p hp hend
    refine hheld (start + (2 ^ (k + 1) - 1) - 1) ?_ ⟨⟨j, p⟩, ?_, ?_⟩
    · rw [Block.mem_def]
      dsimp only
      omega
    · exact mem_freePiles.mpr ⟨(h.piles.level j p hp).1, hp⟩
    · have hpos := Nat.two_pow_pos j
      rw [Block.mem_def]
      dsimp only
      omega
  rcases hfree with ⟨b, hb, hmem⟩
  rcases mem_freePages_level (mem_freePiles.mp hb).2 with heq | hold
  · rw [Block.mem_def] at hmem
    omega
  · exact hheld start (Block.start_mem ⟨k + 1, start⟩)
      ⟨b, mem_freePiles.mpr ⟨(mem_freePiles.mp hb).1, hold⟩, hmem⟩

theorem BuddyInv.not_freed_by_last {z : Zone} {lo hi k start : Nat} {live : List Block}
    (h : BuddyInv z lo hi (⟨k + 1, start⟩ :: live)) :
    ¬ BuddyInv (freePages z (start + (2 ^ (k + 1) - 1))) lo hi live := by
  intro h'
  have hpw := (List.pairwise_append.mp (pairwise_of_cover_le_one h.piles.cover_le_one)).2.1
  refine h.start_not_freed (h'.mem_freePageSet_iff.mpr
    ⟨h.start_bounds List.mem_cons_self, fun b hb => ?_⟩)
  exact (List.pairwise_cons.mp hpw).1 b hb start (Block.start_mem ⟨k + 1, start⟩)

theorem Zone.SameLevels.freePageSet_eq {z z' : Zone} (h : z.SameLevels z') :
    freePageSet z' = freePageSet z := by
  unfold freePageSet freePiles pilesBelow
  rw [h.allocLevels]

end Koowaldah
