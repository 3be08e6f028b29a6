import Koowaldah.Lib.Bytes
import Koowaldah.Arch

/-!
# Moving memory and rounding sizes

A model of `memory_copy` of `kernel/lib/klib.c` and of `log2` and `roundup_l2` of
`include/lib.h`.  It copies upwards when the
destination is below the source and downwards otherwise, so it moves the bytes
whether or not the ranges overlap; `memoryCopy_eq` says so.  A `Copy` is a call of it as
data, for the statements about all the copies that a function makes.

`memoryCopyVia` is the same function under a page table: the addresses are
virtual, every byte is read and written through the translation, and a byte
that is not mapped stops the kernel.  It moves the bytes when the two ranges
have no physical byte in common (`memoryCopyVia_spec`).

`log2` rounds up: it is the order of the smallest pile with room for a number of pages
(`log2_spec`).  `roundupL2` rounds up to a multiple unless the sum passes the end of the
word, and is 0 then (`roundupL2_of_le`, `roundupL2_of_gt`).
-/

namespace Koowaldah

open Function SysLib

/-- The loop of `memory_copy` that goes up, after `n` rounds. -/
def copyUp (mem : ByteMem) (dst src : Nat) : Nat → ByteMem
  | 0 => mem
  | n + 1 =>
    let mem := copyUp mem dst src n
    Function.update mem (dst + n) (mem (src + n))

/-- The loop of `memory_copy` that goes down, with `n` rounds to go. -/
def copyDown (dst src : Nat) : Nat → ByteMem → ByteMem
  | 0, mem => mem
  | n + 1, mem => copyDown dst src n (Function.update mem (dst + n) (mem (src + n)))

def memoryCopy (mem : ByteMem) (dst src n : Nat) : ByteMem :=
  if dst = src then mem
  else if dst < src then copyUp mem dst src n
  else copyDown dst src n mem

theorem copyUp_eq (mem : ByteMem) {dst src : Nat} (h : dst < src) :
    ∀ n, copyUp mem dst src n = moveBytes mem dst src n := by
  intro n
  induction n with
  | zero =>
    funext x
    exact (moveBytes_of_outside (by omega)).symm
  | succ n ih =>
    funext x
    unfold copyUp
    rw [ih, update_apply]
    -- the byte read is above all those written so far
    have hread : moveBytes mem dst src n (src + n) = mem (src + n) :=
      moveBytes_of_outside (by omega)
    rw [hread]
    unfold moveBytes
    by_cases hx : x = dst + n
    · rw [if_pos hx, if_pos (by omega), hx, Nat.add_sub_cancel_left]
    · rw [if_neg hx]
      by_cases hin : dst ≤ x ∧ x < dst + n
      · rw [if_pos hin, if_pos (by omega)]
      · rw [if_neg hin, if_neg (by omega)]

theorem copyDown_eq {dst src : Nat} (h : src < dst) :
    ∀ n mem, copyDown dst src n mem = moveBytes mem dst src n := by
  intro n
  induction n with
  | zero =>
    intro mem
    funext x
    exact (moveBytes_of_outside (by omega)).symm
  | succ n ih =>
    intro mem
    funext x
    unfold copyDown
    rw [ih]
    unfold moveBytes
    simp only [update_apply]
    by_cases hx : x = dst + n
    · rw [if_neg (by omega), if_pos hx, if_pos (by omega), hx, Nat.add_sub_cancel_left]
    · by_cases hin : dst ≤ x ∧ x < dst + n
      · rw [if_pos hin, if_neg (by omega), if_pos (by omega)]
      · rw [if_neg hin, if_neg hx, if_neg (by omega)]

theorem memoryCopy_eq (mem : ByteMem) (dst src n : Nat) :
    memoryCopy mem dst src n = moveBytes mem dst src n := by
  unfold memoryCopy
  by_cases heq : dst = src
  · rw [if_pos heq]
    funext x
    unfold moveBytes
    by_cases hin : dst ≤ x ∧ x < dst + n
    · rw [if_pos hin]
      congr 1
      omega
    · rw [if_neg hin]
  · rw [if_neg heq]
    by_cases hlt : dst < src
    · rw [if_pos hlt, copyUp_eq mem hlt]
    · rw [if_neg hlt, copyDown_eq (by omega)]

/-- However the ranges overlap, the destination gets the bytes that were at the source, and no
other byte changes. -/
theorem memoryCopy_moves (mem : ByteMem) (dst src n : Nat) :
    (∀ i, i < n → memoryCopy mem dst src n (dst + i) = mem (src + i)) ∧
      ∀ x, x < dst ∨ dst + n ≤ x → memoryCopy mem dst src n x = mem x := by
  rw [memoryCopy_eq]
  constructor
  · intro i hi
    unfold moveBytes
    rw [if_pos (by omega), Nat.add_sub_cancel_left]
  · intro x hx
    exact moveBytes_of_outside hx

/-! ## A call as data -/

structure Copy where
  dst : Nat
  src : Nat
  n : Nat
deriving DecidableEq, Repr

namespace Copy

def run (mem : ByteMem) (c : Copy) : ByteMem := memoryCopy mem c.dst c.src c.n

/-- The call stores to the byte.  `memory_copy` returns at once when the destination is the
source. -/
def Stores (c : Copy) (x : Nat) : Prop := c.dst ≠ c.src ∧ c.dst ≤ x ∧ x < c.dst + c.n

def Loads (c : Copy) (x : Nat) : Prop := c.dst ≠ c.src ∧ c.src ≤ x ∧ x < c.src + c.n

theorem run_of_not_stores {c : Copy} {x : Nat} (mem : ByteMem) (hx : ¬ c.Stores x) :
    c.run mem x = mem x := by
  unfold run
  by_cases heq : c.dst = c.src
  · rw [memoryCopy, if_pos heq]
  · rw [memoryCopy_eq]
    apply moveBytes_of_outside
    by_contra hin
    exact hx ⟨heq, by omega, by omega⟩

theorem foldl_run_of_not_stores {copies : List Copy} {x : Nat} (mem : ByteMem)
    (hx : ∀ c ∈ copies, ¬ c.Stores x) : copies.foldl Copy.run mem x = mem x := by
  induction copies generalizing mem with
  | nil => rfl
  | cons c copies ih =>
    rw [List.foldl_cons, ih _ (fun c' hc' => hx c' (List.mem_cons_of_mem c hc'))]
    exact run_of_not_stores mem (hx c List.mem_cons_self)

theorem stores_inside_iff {c : Copy} {a m : Nat} (ha : a ≤ c.dst) :
    (∀ x, c.Stores x → a ≤ x ∧ x < a + m) ↔
      c.dst = c.src ∨ c.n = 0 ∨ c.dst + c.n ≤ a + m := by
  constructor
  · intro h
    by_cases heq : c.dst = c.src
    · exact Or.inl heq
    · by_cases hzero : c.n = 0
      · exact Or.inr (Or.inl hzero)
      · have hlast := h (c.dst + (c.n - 1)) ⟨heq, by omega, by omega⟩
        exact Or.inr (Or.inr (by omega))
  · intro h x hx
    rcases hx with ⟨hne, hlo, hhi⟩
    rcases h with heq | hzero | hle
    · exact absurd heq hne
    · omega
    · omega

end Copy

/-! ## Under a page table -/

/-- `copyUp` through a translation. -/
def copyUpVia (tr : Nat → Option Nat) (mem : ByteMem) (dst src : Nat) : Nat → Option ByteMem
  | 0 => some mem
  | n + 1 =>
    (copyUpVia tr mem dst src n).bind (fun mem =>
      (tr (dst + n)).bind (fun d => (tr (src + n)).map (fun x => Function.update mem d (mem x))))

/-- `copyDown` through a translation. -/
def copyDownVia (tr : Nat → Option Nat) (dst src : Nat) : Nat → ByteMem → Option ByteMem
  | 0, mem => some mem
  | n + 1, mem =>
    (tr (dst + n)).bind (fun d =>
      (tr (src + n)).bind (fun x => copyDownVia tr dst src n (Function.update mem d (mem x))))

/-- `memory_copy` through a translation; `none` is a page fault. -/
def memoryCopyVia (tr : Nat → Option Nat) (mem : ByteMem) (dst src n : Nat) : Option ByteMem :=
  if dst = src then some mem
  else if dst < src then copyUpVia tr mem dst src n
  else copyDownVia tr dst src n mem

section Via

variable {tr : Nat → Option Nat} {mem mem' : ByteMem} {dst src : Nat}

/-- The ranges have no physical byte in common, and the destination none twice. -/
structure CopyApart (tr : Nat → Option Nat) (dst src n : Nat) : Prop where
  src_ne : ∀ i < n, ∀ j < n, ∀ x, tr (dst + i) = some x → tr (src + j) ≠ some x
  dst_ne : ∀ i < n, ∀ j < n, ∀ x, tr (dst + i) = some x → tr (dst + j) = some x → i = j

/-- What a copy of `n` bytes does: the destination gets the source, and no other
byte changes. -/
structure Copied (tr : Nat → Option Nat) (mem mem' : ByteMem) (dst src n : Nat) : Prop where
  moved : ∀ i < n, ∃ d x, tr (dst + i) = some d ∧ tr (src + i) = some x ∧ mem' d = mem x
  frame : ∀ y, (∀ i < n, tr (dst + i) ≠ some y) → mem' y = mem y

theorem CopyApart.mono {n m : Nat} (h : CopyApart tr dst src m) (hle : n ≤ m) :
    CopyApart tr dst src n where
  src_ne i hi j hj := h.src_ne i (by omega) j (by omega)
  dst_ne i hi j hj := h.dst_ne i (by omega) j (by omega)

theorem copyUpVia_spec {n : Nat} (hapart : CopyApart tr dst src n)
    (hcopy : copyUpVia tr mem dst src n = some mem') : Copied tr mem mem' dst src n := by
  induction n generalizing mem' with
  | zero =>
    cases hcopy
    exact ⟨nofun, fun _ _ => rfl⟩
  | succ n ih =>
    rcases Option.bind_eq_some_iff.mp hcopy with ⟨mem₁, hcopy₁, hcopy₂⟩
    rcases Option.bind_eq_some_iff.mp hcopy₂ with ⟨d, hd, hcopy₃⟩
    rcases Option.map_eq_some_iff.mp hcopy₃ with ⟨x, hx, rfl⟩
    rcases ih (hapart.mono (Nat.le_succ n)) hcopy₁ with ⟨hmoved, hframe⟩
    constructor
    · intro i hi
      rcases Nat.lt_or_ge i n with hlt | hge
      · rcases hmoved i hlt with ⟨d', x', hd', hx', hmem⟩
        refine ⟨d', x', hd', hx', ?_⟩
        rw [update_of_ne, hmem]
        rintro rfl
        have := hapart.dst_ne i (by omega) n (by omega) d' hd' hd
        omega
      · obtain rfl : i = n := by omega
        refine ⟨d, x, hd, hx, ?_⟩
        rw [update_self]
        -- the byte read is not one of those written so far
        apply hframe
        intro j hj hj'
        exact hapart.src_ne j (by omega) i (by omega) x hj' hx
    · intro y hy
      rw [update_of_ne, hframe y (fun i hi => hy i (by omega))]
      rintro rfl
      exact hy n (by omega) hd

theorem copyDownVia_spec {n : Nat} (hapart : CopyApart tr dst src n)
    (hcopy : copyDownVia tr dst src n mem = some mem') : Copied tr mem mem' dst src n := by
  induction n generalizing mem with
  | zero =>
    cases hcopy
    exact ⟨nofun, fun _ _ => rfl⟩
  | succ n ih =>
    rcases Option.bind_eq_some_iff.mp hcopy with ⟨d, hd, hcopy₁⟩
    rcases Option.bind_eq_some_iff.mp hcopy₁ with ⟨x, hx, hcopy₂⟩
    rcases ih (hapart.mono (Nat.le_succ n)) hcopy₂ with ⟨hmoved, hframe⟩
    constructor
    · intro i hi
      rcases Nat.lt_or_ge i n with hlt | hge
      · rcases hmoved i hlt with ⟨d', x', hd', hx', hmem⟩
        refine ⟨d', x', hd', hx', ?_⟩
        rw [hmem, update_of_ne]
        rintro rfl
        exact hapart.src_ne n (by omega) i (by omega) x' hd hx'
      · obtain rfl : i = n := by omega
        refine ⟨d, x, hd, hx, ?_⟩
        rw [hframe d, update_self]
        intro j hj hj'
        have := hapart.dst_ne j (by omega) i (by omega) d hj' hd
        omega
    · intro y hy
      rw [hframe y (fun i hi => hy i (by omega)), update_of_ne]
      rintro rfl
      exact hy n (by omega) hd

theorem memoryCopyVia_spec {n : Nat} (hapart : CopyApart tr dst src n)
    (hsrc : dst = src → ∀ i < n, ∃ x, tr (src + i) = some x)
    (hcopy : memoryCopyVia tr mem dst src n = some mem') : Copied tr mem mem' dst src n := by
  unfold memoryCopyVia at hcopy
  split at hcopy
  · rename_i heq
    cases hcopy
    refine ⟨?_, fun _ _ => rfl⟩
    intro i hi
    rcases hsrc heq i hi with ⟨x, hx⟩
    exact absurd hx (hapart.src_ne i hi i hi x (heq ▸ hx))
  · split at hcopy
    · exact copyUpVia_spec hapart hcopy
    · exact copyDownVia_spec hapart hcopy

end Via

/-! ## Rounding -/

/-- The loop of `log2`, with the rounds that `l < 32` leaves. -/
def log2Loop (n : Nat) : Nat → Nat → Nat
  | 0, l => l
  | k + 1, l => if n / 2 ^ l ≠ 0 then log2Loop n k (l + 1) else l

/-- `log2` of `include/lib.h`, which rounds up. -/
def log2 (n : Nat) : Nat :=
  let l := log2Loop n 31 1
  if n &&& (2 ^ (l - 1) - 1) ≠ 0 then l else l - 1

/-- `roundup_l2`.  The mask `~(base - 1)` takes the remainder off, since `base` is a power of
two. -/
def roundupL2 (x base : Nat) : Nat := (x + (base - 1)) % WORD_RANGE / base * base

theorem log2Loop_spec (n : Nat) (hn : n < WORD_RANGE) : ∀ (k l : Nat), k + l = 32 → 1 ≤ l →
    2 ^ (l - 1) ≤ n → 1 ≤ log2Loop n k l ∧ 2 ^ (log2Loop n k l - 1) ≤ n ∧ n < 2 ^ log2Loop n k l
  | 0, l, hsum, hl, hlow => by
    obtain rfl : l = 32 := by omega
    exact ⟨hl, hlow, hn⟩
  | k + 1, l, hsum, hl, hlow => by
    rw [log2Loop]
    split
    · rename_i hdiv
      refine log2Loop_spec n hn k (l + 1) (by omega) (by omega) ?_
      rw [Nat.add_sub_cancel]
      by_contra hlt
      exact hdiv (Nat.div_eq_of_lt (Nat.lt_of_not_le hlt))
    · rename_i hdiv
      refine ⟨hl, hlow, ?_⟩
      by_contra hge
      exact hdiv (Nat.ne_of_gt (Nat.div_pos (Nat.le_of_not_lt hge) (Nat.two_pow_pos l)))

theorem log2_spec {n : Nat} (hpos : 1 ≤ n) (hn : n < WORD_RANGE) :
    n ≤ 2 ^ log2 n ∧ 2 ^ log2 n < 2 * n := by
  rcases log2Loop_spec n hn 31 1 rfl (Nat.le_refl 1) hpos with ⟨hl, hlow, hhigh⟩
  unfold log2
  generalize log2Loop n 31 1 = l at hl hlow hhigh ⊢
  obtain ⟨m, rfl⟩ : ∃ m, l = m + 1 := ⟨l - 1, by omega⟩
  dsimp only
  rw [Nat.add_sub_cancel] at hlow ⊢
  rw [Nat.and_two_pow_sub_one_eq_mod]
  have hmod : n % 2 ^ m = n - 2 ^ m := by
    rw [Nat.mod_eq_sub_mod hlow, Nat.mod_eq_of_lt (by omega)]
  split
  · omega
  · omega

theorem log2_le_iff {n k : Nat} (hpos : 1 ≤ n) (hn : n < WORD_RANGE) : log2 n ≤ k ↔ n ≤ 2 ^ k := by
  obtain ⟨hle, hlt⟩ := log2_spec hpos hn
  constructor
  · intro hk
    exact Nat.le_trans hle (Nat.pow_le_pow_right Nat.zero_lt_two hk)
  · intro hk
    have hpow : 2 ^ log2 n < 2 ^ (k + 1) := by
      omega
    exact Nat.le_of_lt_succ ((Nat.pow_lt_pow_iff_right (Nat.lt_succ_self 1)).mp hpow)

/-- `log2` is the ceiling of the logarithm. -/
theorem log2_isLeast {n : Nat} (hpos : 1 ≤ n) (hn : n < WORD_RANGE) :
    IsLeast {k | n ≤ 2 ^ k} (log2 n) ∧ n ≤ 2 ^ log2 n ∧ 2 ^ log2 n < 2 * n := by
  refine ⟨⟨(log2_spec hpos hn).1, ?_⟩, log2_spec hpos hn⟩
  intro k hk
  exact (log2_le_iff hpos hn).mpr hk

theorem log2_isLeast_five : IsLeast {k | 5 ≤ 2 ^ k} 3 :=
  (log2_isLeast (show 1 ≤ 5 by decide) (by decide)).1

theorem two_pow_log2_eq_iff {n : Nat} (hpos : 1 ≤ n) (hn : n < WORD_RANGE) :
    2 ^ log2 n = n ↔ ∃ k, n = 2 ^ k := by
  have hle := (log2_spec hpos hn).1
  constructor
  · intro heq
    exact ⟨log2 n, heq.symm⟩
  · intro hk
    obtain ⟨k, hk⟩ := hk
    have hlog : log2 n ≤ k := (log2_le_iff hpos hn).mpr (Nat.le_of_eq hk)
    have hpow : 2 ^ log2 n ≤ 2 ^ k := Nat.pow_le_pow_right Nat.zero_lt_two hlog
    omega

theorem roundupL2_of_le {x base : Nat} (hle : x + (base - 1) < WORD_RANGE) :
    roundupL2 x base = (x + (base - 1)) / base * base := by
  unfold roundupL2
  rw [Nat.mod_eq_of_lt hle]

theorem roundupL2_of_gt {x base : Nat} (hx : x < WORD_RANGE) (hbase : base ≤ WORD_RANGE)
    (hgt : WORD_RANGE ≤ x + (base - 1)) : roundupL2 x base = 0 := by
  unfold roundupL2
  rw [Nat.mod_eq_sub_mod hgt, Nat.mod_eq_of_lt (by omega), Nat.div_eq_of_lt (by omega),
    Nat.zero_mul]

end Koowaldah
