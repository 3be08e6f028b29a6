import Mathlib

/-!
# Dyadic blocks and their tilings

A block is a run of `2 ^ order` consecutive indices.  It is aligned when it
opens at a multiple of its own length.  Two aligned blocks are nested or
disjoint, so a set of indices has at most one tiling by aligned blocks in
which no two halves of a larger block stand side by side.  That uniqueness
is the mathematics behind every buddy system.

The lemmas do three things:

* relate a block to its two halves and to the block around it
  (`mem_split`, `mem_parent`);
* count how often a list of blocks covers an index (`cover`), which turns
  a split or a merge into an equation of numbers (`cover_split`), and read
  disjointness back off the count (`pairwise_of_cover_le_one`);
* characterise a coalesced tiling by the set it covers
  (`Tiling.mem_iff_maximal`, `Tiling.unique`).

The cap `M` on the orders is a parameter everywhere.
-/

namespace SysLib.Dyadic

/-- A run of `2 ^ order` consecutive indices that opens at `start`. -/
structure Block where
  order : Nat
  start : Nat
deriving DecidableEq, Repr

namespace Block

variable {b : Block} {x : Nat}

instance : Membership Nat Block where
  mem b x := b.start ≤ x ∧ x < b.start + 2 ^ b.order

theorem mem_def :
    x ∈ b ↔ b.start ≤ x ∧ x < b.start + 2 ^ b.order := Iff.rfl

instance (b : Block) (x : Nat) : Decidable (x ∈ b) :=
  inferInstanceAs (Decidable (_ ∧ _))

/-- The block opens at a multiple of its length. -/
def Aligned (b : Block) : Prop := 2 ^ b.order ∣ b.start

instance (b : Block) : Decidable b.Aligned :=
  inferInstanceAs (Decidable (_ ∣ _))

/-- The aligned block of twice the length around `b`. -/
def parent (b : Block) : Block where
  order := b.order + 1
  start := b.start / 2 ^ (b.order + 1) * 2 ^ (b.order + 1)

/-- No index lies in both blocks. -/
def Disjoint (a b : Block) : Prop := ∀ x, x ∈ a → x ∉ b

instance : Std.Symm Block.Disjoint where
  symm _ _ h x hb ha := h x ha hb

theorem start_mem (b : Block) : b.start ∈ b :=
  ⟨Nat.le_refl _, Nat.lt_add_of_pos_right (Nat.two_pow_pos _)⟩

theorem Aligned.mem_iff_div (hb : b.Aligned) (x : Nat) :
    x ∈ b ↔ x / 2 ^ b.order = b.start / 2 ^ b.order := by
  have hpos : 0 < 2 ^ b.order := Nat.two_pow_pos _
  obtain ⟨q, hq⟩ := hb
  rw [mem_def, hq, Nat.mul_div_cancel_left _ hpos, Nat.div_eq_iff hpos]
  rw [Nat.mul_comm]
  omega

/-- Two aligned blocks that share an index are nested, the one of lower
order inside the other. -/
theorem Aligned.subset_of_mem {a : Block} (ha : a.Aligned) (hb : b.Aligned)
    (hle : a.order ≤ b.order) (hxa : x ∈ a) (hxb : x ∈ b) : ∀ y ∈ a, y ∈ b := by
  intro y hy
  rw [ha.mem_iff_div] at hxa hy
  rw [hb.mem_iff_div] at hxb ⊢
  have hpow : 2 ^ b.order = 2 ^ a.order * 2 ^ (b.order - a.order) := by
    rw [← Nat.pow_add, Nat.add_sub_cancel' hle]
  rw [← hxb, hpow, ← Nat.div_div_eq_div_mul, ← Nat.div_div_eq_div_mul, hy, hxa]

theorem Aligned.eq_of_mem {a : Block} (ha : a.Aligned) (hb : b.Aligned) (hord : a.order = b.order)
    (hxa : x ∈ a) (hxb : x ∈ b) : a = b := by
  have hab := ha.subset_of_mem hb (Nat.le_of_eq hord) hxa hxb _ a.start_mem
  have hba := hb.subset_of_mem ha (Nat.le_of_eq hord.symm) hxb hxa _ b.start_mem
  have hstart : a.start = b.start := Nat.le_antisymm hba.1 hab.1
  cases a
  cases b
  simp_all

theorem parent_aligned (b : Block) : b.parent.Aligned :=
  Nat.dvd_mul_left _ _

theorem mem_parent (hb : b.Aligned) (hx : x ∈ b) : x ∈ b.parent := by
  have hstart : b.start ∈ b.parent := by
    have hlt := Nat.lt_div_mul_add (a := b.start) (Nat.two_pow_pos (b.order + 1))
    exact ⟨Nat.div_mul_le_self _ _, hlt⟩
  exact hb.subset_of_mem b.parent_aligned (Nat.le_succ _) b.start_mem hstart x hx

theorem mem_split (k p x : Nat) :
    x ∈ Block.mk (k + 1) p ↔ x ∈ Block.mk k p ∨ x ∈ Block.mk k (p + 2 ^ k) := by
  simp only [mem_def]
  omega

theorem not_mem_both_halves (k p x : Nat) : ¬ (x ∈ Block.mk k p ∧ x ∈ Block.mk k (p + 2 ^ k)) := by
  simp only [mem_def]
  omega

theorem aligned_lower {k p : Nat} (h : (Block.mk (k + 1) p).Aligned) : (Block.mk k p).Aligned :=
  Nat.dvd_trans (Nat.pow_dvd_pow 2 (Nat.le_succ k)) h

theorem aligned_upper {k p : Nat} (h : (Block.mk (k + 1) p).Aligned) :
    (Block.mk k (p + 2 ^ k)).Aligned :=
  Nat.dvd_add (aligned_lower h) (Nat.dvd_refl _)

end Block

/-! ## Counting how often an index is covered -/

/-- The number of blocks of `l` that hold `x`. -/
def cover (l : List Block) (x : Nat) : Nat := l.countP (fun b => x ∈ b)

@[simp] theorem cover_nil (x : Nat) : cover [] x = 0 := rfl

theorem cover_cons (b : Block) (l : List Block) (x : Nat) :
    cover (b :: l) x = cover l x + if x ∈ b then 1 else 0 := by
  simp [cover, List.countP_cons]

@[simp] theorem cover_append (l l' : List Block) (x : Nat) :
    cover (l ++ l') x = cover l x + cover l' x := by
  simp [cover]

theorem cover_perm {l l' : List Block} (h : l.Perm l') (x : Nat) :
    cover l x = cover l' x := h.countP_eq _

theorem cover_pos_iff {l : List Block} {x : Nat} : 0 < cover l x ↔ ∃ b ∈ l, x ∈ b := by
  simp [cover]

theorem cover_split (k p : Nat) (l : List Block) (x : Nat) :
    cover (⟨k + 1, p⟩ :: l) x = cover (⟨k, p⟩ :: ⟨k, p + 2 ^ k⟩ :: l) x := by
  have hsplit := Block.mem_split k p x
  have hboth := Block.not_mem_both_halves k p x
  simp only [cover_cons]
  by_cases hlo : x ∈ Block.mk k p
  · have hhi : x ∉ Block.mk k (p + 2 ^ k) := fun h => hboth ⟨hlo, h⟩
    simp [hsplit.mpr (Or.inl hlo), hlo, hhi]
  · by_cases hhi : x ∈ Block.mk k (p + 2 ^ k)
    · simp [hsplit.mpr (Or.inr hhi), hlo, hhi]
    · have : x ∉ Block.mk (k + 1) p := fun h => (hsplit.mp h).elim hlo hhi
      simp [this, hlo, hhi]

theorem pairwise_of_cover_le_one :
    ∀ {l : List Block}, (∀ x, cover l x ≤ 1) → l.Pairwise Block.Disjoint
  | [], _ => List.Pairwise.nil
  | b :: l, h => by
    have htail : ∀ x, cover l x ≤ 1 := by
      intro x
      have := h x
      rw [cover_cons] at this
      omega
    refine List.Pairwise.cons ?_ (pairwise_of_cover_le_one htail)
    intro c hc x hxb hxc
    have hpos : 0 < cover l x := cover_pos_iff.mpr ⟨c, hc, hxc⟩
    have := h x
    rw [cover_cons, if_pos hxb] at this
    omega

/-! ## Tilings -/

/-- The blocks of `P` tile the set `F`: they are aligned, their orders are
below `M`, they do not overlap, and they cover exactly `F`. -/
structure Tiling (M : Nat) (P : Set Block) (F : Set Nat) : Prop where
  order_lt : ∀ b ∈ P, b.order < M
  aligned : ∀ b ∈ P, b.Aligned
  eq_of_mem : ∀ a ∈ P, ∀ b ∈ P, ∀ x, x ∈ a → x ∈ b → a = b
  covers : ∀ x, x ∈ F ↔ ∃ b ∈ P, x ∈ b

/-- No two halves of one block of order below `M` are both in `P`. -/
def Coalesced (M : Nat) (P : Set Block) : Prop :=
  ∀ k i, k + 1 < M → 2 ^ (k + 1) ∣ i → Block.mk k i ∈ P →
    Block.mk k (i + 2 ^ k) ∉ P

section Canonical

variable {M : Nat} {P : Set Block} {F : Set Nat}

/-- In a coalesced tiling every aligned block inside the covered set lies in
one tile.  The induction is on the order: the two halves lie in a tile each,
and if neither tile is larger than its half then the two halves are a pair
that should have been merged. -/
theorem Tiling.exists_tile (hT : Tiling M P F) (hC : Coalesced M P) :
    ∀ (k p : Nat), k < M → (Block.mk k p).Aligned →
      (∀ x ∈ Block.mk k p, x ∈ F) →
      ∃ c ∈ P, k ≤ c.order ∧ ∀ x ∈ Block.mk k p, x ∈ c := by
  intro k
  induction k with
  | zero =>
    intro p _ _ hF
    obtain ⟨c, hc, hpc⟩ := (hT.covers p).mp (hF p (Block.start_mem _))
    refine ⟨c, hc, Nat.zero_le _, ?_⟩
    intro x hx
    simp only [Block.mem_def] at hx
    have : x = p := by omega
    exact this ▸ hpc
  | succ k ih =>
    intro p hk hal hF
    have hlo := Block.aligned_lower hal
    have hhi := Block.aligned_upper hal
    obtain ⟨c, hc, hkc, hcsub⟩ := ih p (by omega) hlo
      (fun x hx => hF x ((Block.mem_split k p x).mpr (Or.inl hx)))
    obtain ⟨d, hd, hkd, hdsub⟩ := ih (p + 2 ^ k) (by omega) hhi
      (fun x hx => hF x ((Block.mem_split k p x).mpr (Or.inr hx)))
    have hpc : p ∈ c := hcsub p (Block.start_mem _)
    have hpd : p + 2 ^ k ∈ d := hdsub _ (Block.start_mem ⟨k, p + 2 ^ k⟩)
    have hp : p ∈ Block.mk (k + 1) p := Block.start_mem _
    have hp' : p + 2 ^ k ∈ Block.mk (k + 1) p :=
      (Block.mem_split k p _).mpr (Or.inr (Block.start_mem ⟨k, p + 2 ^ k⟩))
    rcases Nat.lt_or_ge k c.order with hcgt | hcle
    · exact ⟨c, hc, hcgt, hal.subset_of_mem (hT.aligned c hc) hcgt hp hpc⟩
    rcases Nat.lt_or_ge k d.order with hdgt | hdle
    · exact ⟨d, hd, hdgt, hal.subset_of_mem (hT.aligned d hd) hdgt hp' hpd⟩
    have hceq : Block.mk k p = c :=
      hlo.eq_of_mem (hT.aligned c hc) (by simp only; omega) (Block.start_mem _) hpc
    have hdeq : Block.mk k (p + 2 ^ k) = d :=
      hhi.eq_of_mem (hT.aligned d hd) (by simp only; omega) (Block.start_mem _) hpd
    exact absurd (hdeq ▸ hd) (hC k p hk hal (hceq ▸ hc))

/-- A coalesced tiling holds exactly the maximal aligned blocks of the set it
covers. -/
theorem Tiling.mem_iff_maximal (hT : Tiling M P F) (hC : Coalesced M P) (b : Block) :
    b ∈ P ↔ b.order < M ∧ b.Aligned ∧ (∀ x ∈ b, x ∈ F) ∧
      (b.order + 1 < M → ∃ x ∈ b.parent, x ∉ F) := by
  constructor
  · intro hb
    refine ⟨hT.order_lt b hb, hT.aligned b hb,
      fun x hx => (hT.covers x).mpr ⟨b, hb, hx⟩, ?_⟩
    intro hM
    by_contra hall
    simp only [not_exists, not_and, not_not] at hall
    obtain ⟨c, hc, hle, hsub⟩ :=
      hT.exists_tile hC _ _ hM b.parent_aligned hall
    have hmem : b.start ∈ c :=
      hsub _ (Block.mem_parent (hT.aligned b hb) b.start_mem)
    have hbc := hT.eq_of_mem b hb c hc _ b.start_mem hmem
    rw [← hbc] at hle
    omega
  · rintro ⟨hM, hal, hF, hmax⟩
    obtain ⟨c, hc, hle, hsub⟩ := hT.exists_tile hC b.order b.start hM hal hF
    have hmem : b.start ∈ c := hsub _ b.start_mem
    rcases Nat.lt_or_ge b.order c.order with hlt | hge
    · have hpar := b.parent_aligned.subset_of_mem (hT.aligned c hc) hlt
        (Block.mem_parent hal b.start_mem) hmem
      obtain ⟨x, hx, hxF⟩ := hmax (by have := hT.order_lt c hc; omega)
      exact absurd ((hT.covers x).mpr ⟨c, hc, hpar x hx⟩) hxF
    · have hbc := hal.eq_of_mem (hT.aligned c hc) (by omega) b.start_mem hmem
      exact hbc ▸ hc

/-- A set has one coalesced tiling. -/
theorem Tiling.unique {Q : Set Block} (hP : Tiling M P F) (hQ : Tiling M Q F)
    (hCP : Coalesced M P) (hCQ : Coalesced M Q) : P = Q := by
  ext b
  rw [hP.mem_iff_maximal hCP, hQ.mem_iff_maximal hCQ]

end Canonical

end SysLib.Dyadic
