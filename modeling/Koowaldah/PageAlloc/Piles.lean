import Koowaldah.PageAlloc.Basic

/-!
# The piles of a zone

`PilesInv z lo hi held` says that the piles on the levels of `z` together
with the piles of `held` cut the pages from `lo` up to `hi` into aligned
blocks, each page in one block.  `held` lists the piles that are on no level:
those handed out, and the one an operation has in hand.

The allocator takes a pile off its level and puts one on it, cuts and joins piles
in hand, and writes the order of one (`PilesInv.take`, `put`, `split`, `join`,
`setOrder`).  Each keeps the invariant, and the functions of the source are
compositions of these, so no later proof counts pages.
-/

namespace Koowaldah

open SysLib SysLib.Dyadic

def pilesBelow (z : Zone) (n : Nat) : List Block :=
  (List.range n).flatMap (fun k => (z.allocLevels k).map (Block.mk k))

def freePiles (z : Zone) : List Block := pilesBelow z MAX_ORDER

theorem pilesBelow_succ (z : Zone) (n : Nat) :
    pilesBelow z (n + 1) = pilesBelow z n ++ (z.allocLevels n).map (Block.mk n) := by
  simp [pilesBelow, List.range_succ]

theorem mem_freePiles {z : Zone} {b : Block} :
    b ∈ freePiles z ↔ b.order < MAX_ORDER ∧ b.start ∈ z.allocLevels b.order := by
  simp only [freePiles, pilesBelow, List.mem_flatMap, List.mem_range, List.mem_map]
  constructor
  · rintro ⟨k, hk, p, hp, rfl⟩
    exact ⟨hk, hp⟩
  · rintro ⟨hk, hp⟩
    exact ⟨b.order, hk, b.start, hp, rfl⟩

theorem pilesBelow_setLevel_of_le (z : Zone) (k : Nat) (l : List Nat) :
    ∀ n, n ≤ k → pilesBelow (z.setLevel k l) n = pilesBelow z n
  | 0, _ => rfl
  | n + 1, h => by
    rw [pilesBelow_succ, pilesBelow_succ, pilesBelow_setLevel_of_le z k l n (by omega),
      Zone.setLevel_allocLevels, if_neg (by omega)]

theorem cover_pilesBelow_setLevel (z : Zone) (k : Nat) (l : List Nat) (x : Nat) :
    ∀ n, k < n →
      cover (pilesBelow (z.setLevel k l) n) x + cover ((z.allocLevels k).map (Block.mk k)) x =
        cover (pilesBelow z n) x + cover (l.map (Block.mk k)) x
  | 0, h => absurd h (Nat.not_lt_zero k)
  | n + 1, h => by
    rw [pilesBelow_succ, pilesBelow_succ, cover_append, cover_append,
      Zone.setLevel_allocLevels]
    rcases Nat.lt_or_ge k n with hlt | hge
    · have ih := cover_pilesBelow_setLevel z k l x n hlt
      rw [if_neg (by omega)]
      omega
    · obtain rfl : k = n := by omega
      rw [pilesBelow_setLevel_of_le z k l k (Nat.le_refl k), if_pos rfl]
      omega

/-- The piles on the levels and the piles of `held` cut the pages of
`[lo, hi)` into aligned blocks. -/
structure PilesInv (z : Zone) (lo hi : Nat) (held : List Block) : Prop where
  covers : ∀ x, cover (freePiles z) x + cover held x = if lo ≤ x ∧ x < hi then 1 else 0
  level : ∀ k p, p ∈ z.allocLevels k → k < MAX_ORDER ∧ 2 ^ k ∣ p ∧ z.order p = k
  held : ∀ b ∈ held, b.order < MAX_ORDER ∧ b.Aligned

/-- The opening page of every pile of `held` stores the order of the pile. -/
def Stored (z : Zone) (held : List Block) : Prop :=
  ∀ b ∈ held, z.order b.start = b.order

/-! ## What the count says -/

section Distinct

variable {z : Zone} {lo hi : Nat} {held : List Block} {b : Block}

theorem PilesInv.cover_le_one (h : PilesInv z lo hi held) (x : Nat) :
    cover (freePiles z ++ held) x ≤ 1 := by
  have := h.covers x
  rw [cover_append]
  split_ifs at this <;> omega

theorem PilesInv.start_not_mem_level (h : PilesInv z lo hi (b :: held)) (k : Nat) :
    b.start ∉ z.allocLevels k := by
  intro hmem
  have hk := (h.level k _ hmem).1
  have hfree : 0 < cover (freePiles z) b.start := by
    refine cover_pos_iff.mpr ⟨⟨k, b.start⟩, mem_freePiles.mpr ⟨hk, hmem⟩, ?_⟩
    exact Block.start_mem ⟨k, b.start⟩
  have hle := h.cover_le_one b.start
  rw [cover_append, cover_cons, if_pos b.start_mem] at hle
  omega

theorem PilesInv.start_ne_of_mem (h : PilesInv z lo hi (b :: held)) {c : Block}
    (hc : c ∈ held) : c.start ≠ b.start := by
  intro heq
  have hpos : 0 < cover held b.start := cover_pos_iff.mpr ⟨c, hc, heq ▸ c.start_mem⟩
  have hle := h.cover_le_one b.start
  rw [cover_append, cover_cons, if_pos b.start_mem] at hle
  omega

theorem PilesInv.nodup_level (h : PilesInv z lo hi held) (k : Nat) : (z.allocLevels k).Nodup := by
  rw [List.nodup_iff_count_le_one]
  intro p
  by_contra hgt
  have hmem : p ∈ z.allocLevels k := List.count_pos_iff.mp (by omega)
  have hk := (h.level k p hmem).1
  have hcount : (z.allocLevels k).count p ≤
      cover ((z.allocLevels k).map (Block.mk k)) p := by
    rw [cover, List.countP_map]
    refine List.countP_mono_left ?_
    intro q _ hq
    rw [beq_iff_eq] at hq
    simpa [hq] using Block.start_mem ⟨k, p⟩
  have hsplit := cover_pilesBelow_setLevel z k [] p MAX_ORDER hk
  have hle := h.cover_le_one p
  rw [cover_append] at hle
  simp only [List.map_nil, cover_nil, freePiles] at hsplit hle
  omega

end Distinct

/-! ## The four moves -/

section Moves

variable {z : Zone} {lo hi k p : Nat} {held : List Block}

variable {l : List Nat} {b : Block}

/-- The list of piles off the levels may be reordered, and more generally
replaced by one that covers the same pages. -/
theorem PilesInv.congr_held {held' : List Block} (h : PilesInv z lo hi held)
    (hcov : ∀ x, cover held' x = cover held x)
    (hheld : ∀ b ∈ held', b.order < MAX_ORDER ∧ b.Aligned) :
    PilesInv z lo hi held' where
  covers x := by rw [hcov, h.covers]
  level := h.level
  held := hheld

theorem PilesInv.setLevel {held' : List Block} (h : PilesInv z lo hi held) (hk : k < MAX_ORDER)
    (hl : ∀ q ∈ l, 2 ^ k ∣ q ∧ z.order q = k) (hheld : ∀ b ∈ held', b.order < MAX_ORDER ∧ b.Aligned)
    (hcov : ∀ x, cover (l.map (Block.mk k)) x + cover held' x =
      cover ((z.allocLevels k).map (Block.mk k)) x + cover held x) :
    PilesInv (z.setLevel k l) lo hi held' where
  covers x := by
    have hset := cover_pilesBelow_setLevel z k l x MAX_ORDER hk
    have hx := h.covers x
    have hc := hcov x
    rw [freePiles] at hx ⊢
    omega
  level j q hq := by
    rw [Zone.setLevel_allocLevels] at hq
    split_ifs at hq with hj
    · subst hj
      exact ⟨hk, hl q hq⟩
    · exact h.level j q hq
  held := hheld

theorem PilesInv.take (h : PilesInv z lo hi held) (hperm : (z.allocLevels k).Perm (p :: l)) :
    PilesInv (z.setLevel k l) lo hi (⟨k, p⟩ :: held) := by
  have hp := h.level k p (hperm.mem_iff.mpr (by simp))
  refine h.setLevel hp.1 ?_ ?_ ?_
  · intro q hq
    exact (h.level k q (hperm.mem_iff.mpr (by simp [hq]))).2
  · intro b hb
    rcases List.mem_cons.mp hb with rfl | hb
    · exact ⟨hp.1, hp.2.1⟩
    · exact h.held b hb
  · intro x
    rw [cover_perm (hperm.map (Block.mk k)) x, List.map_cons, cover_cons, cover_cons]
    omega

theorem PilesInv.put (h : PilesInv z lo hi (⟨k, p⟩ :: held)) (hord : z.order p = k)
    (hperm : l.Perm (p :: z.allocLevels k)) : PilesInv (z.setLevel k l) lo hi held := by
  have hb := h.held ⟨k, p⟩ (by simp)
  refine h.setLevel hb.1 ?_ (fun c hc => h.held c (by simp [hc])) ?_
  · intro q hq
    rcases List.mem_cons.mp (hperm.mem_iff.mp hq) with rfl | hq
    · exact ⟨hb.2, hord⟩
    · exact (h.level k q hq).2
  · intro x
    rw [cover_perm (hperm.map (Block.mk k)) x, List.map_cons, cover_cons, cover_cons]
    omega

theorem PilesInv.setOrder (h : PilesInv z lo hi (b :: held)) (j : Nat) :
    PilesInv (z.setOrder b.start j) lo hi (b :: held) where
  covers := h.covers
  level i q hq := by
    have hne : q ≠ b.start := fun he => h.start_not_mem_level i (he ▸ hq)
    rw [Zone.setOrder_order, if_neg hne]
    exact h.level i q hq
  held := h.held

theorem Stored.setOrder (hs : Stored z held) (h : PilesInv z lo hi (b :: held)) (j : Nat) :
    Stored (z.setOrder b.start j) held := by
  intro c hc
  rw [Zone.setOrder_order, if_neg (h.start_ne_of_mem hc)]
  exact hs c hc

theorem PilesInv.split (h : PilesInv z lo hi (⟨k + 1, p⟩ :: held)) :
    PilesInv z lo hi (⟨k, p⟩ :: ⟨k, p + 2 ^ k⟩ :: held) := by
  obtain ⟨hk, hal⟩ := h.held ⟨k + 1, p⟩ (by simp)
  refine h.congr_held (fun x => (cover_split k p held x).symm) ?_
  intro b hb
  rcases List.mem_cons.mp hb with rfl | hb
  · exact ⟨by simp only at hk ⊢; omega, Block.aligned_lower hal⟩
  rcases List.mem_cons.mp hb with rfl | hb
  · exact ⟨by simp only at hk ⊢; omega, Block.aligned_upper hal⟩
  · exact h.held b (by simp [hb])

theorem PilesInv.join (h : PilesInv z lo hi (⟨k, p⟩ :: ⟨k, p + 2 ^ k⟩ :: held))
    (hk : k + 1 < MAX_ORDER) (hal : 2 ^ (k + 1) ∣ p) : PilesInv z lo hi (⟨k + 1, p⟩ :: held) := by
  refine h.congr_held (fun x => cover_split k p held x) ?_
  intro b hb
  rcases List.mem_cons.mp hb with rfl | hb
  · exact ⟨hk, hal⟩
  · exact h.held b (by simp [hb])

theorem PilesInv.swap {a : Block} (h : PilesInv z lo hi (a :: b :: held)) :
    PilesInv z lo hi (b :: a :: held) :=
  h.congr_held (fun x => cover_perm (List.Perm.swap a b held) x)
    (fun c hc => h.held c ((List.Perm.swap a b held).mem_iff.mp hc))

end Moves

end Koowaldah
