import Mathlib

/-!
# Byte memory

A memory is a function from addresses to bytes.  `readBytes mem a n` is the
list of the `n` bytes from `a` up, and `moveBytes mem dst src n` is the memory
after `n` bytes have been moved, whether the two ranges overlap or not.

`writeBytes mem a l` is the memory after a list was stored from `a` up.

The lemmas split a range (`readBytes_add`), frame one (`readBytes_congr`) and
read what was moved (`readBytes_moveBytes`) or stored (`readBytes_writeBytes`).

A program that runs under a page table names bytes by virtual addresses.
`readVia tr mem a n` reads a range through the translation `tr`, and is `none`
when a byte of it has no translation; `readVia_eq_some_iff` says what it reads
and `readVia_congr` frames it.
-/

namespace SysLib

variable {n m a : Nat} {mem : ByteMem} {tr : Nat → Option Nat}

abbrev ByteMem := Nat → UInt8

def readBytes (mem : ByteMem) (a n : Nat) : List UInt8 :=
  (List.range n).map (fun i => mem (a + i))

/-- The memory after `n` bytes have been moved from `src` to `dst`. -/
def moveBytes (mem : ByteMem) (dst src n : Nat) : ByteMem :=
  fun x => if dst ≤ x ∧ x < dst + n then mem (src + (x - dst)) else mem x

@[simp] theorem readBytes_length (mem : ByteMem) (a n : Nat) : (readBytes mem a n).length = n := by
  simp [readBytes]

@[simp] theorem readBytes_zero (mem : ByteMem) (a : Nat) : readBytes mem a 0 = [] := rfl

theorem readBytes_getElem? (mem : ByteMem) (a n i : Nat) :
    (readBytes mem a n)[i]? = if i < n then some (mem (a + i)) else none := by
  unfold readBytes
  rw [List.getElem?_map]
  by_cases hi : i < n
  · rw [if_pos hi, List.getElem?_range hi]
    rfl
  · rw [if_neg hi, List.getElem?_eq_none (by simpa using hi)]
    rfl

theorem readBytes_add (mem : ByteMem) (a n m : Nat) :
    readBytes mem a (n + m) = readBytes mem a n ++ readBytes mem (a + n) m := by
  unfold readBytes
  rw [List.range_add, List.map_append, List.map_map]
  congr 1
  apply List.map_congr_left
  intro i _
  show mem (a + (n + i)) = mem (a + n + i)
  rw [Nat.add_assoc]

theorem readBytes_take (mem : ByteMem) (a : Nat) (h : n ≤ m) :
    (readBytes mem a m).take n = readBytes mem a n := by
  obtain ⟨d, rfl⟩ := Nat.exists_eq_add_of_le h
  rw [readBytes_add, List.take_left' (readBytes_length mem a n)]

theorem readBytes_drop (mem : ByteMem) (a : Nat) (h : n ≤ m) :
    (readBytes mem a m).drop n = readBytes mem (a + n) (m - n) := by
  obtain ⟨d, rfl⟩ := Nat.exists_eq_add_of_le h
  rw [readBytes_add, List.drop_left' (readBytes_length mem a n), Nat.add_sub_cancel_left]

theorem readBytes_congr {mem' : ByteMem} (h : ∀ x, a ≤ x → x < a + n → mem' x = mem x) :
    readBytes mem' a n = readBytes mem a n := by
  apply List.map_congr_left
  intro i hi
  have hlt := List.mem_range.mp hi
  exact h (a + i) (by omega) (by omega)

theorem moveBytes_of_outside {dst src x : Nat} (hx : x < dst ∨ dst + n ≤ x) :
    moveBytes mem dst src n x = mem x := by
  exact if_neg (by omega)

theorem readBytes_moveBytes (mem : ByteMem) (dst src n : Nat) :
    readBytes (moveBytes mem dst src n) dst n = readBytes mem src n := by
  apply List.map_congr_left
  intro i hi
  have hlt := List.mem_range.mp hi
  show moveBytes mem dst src n (dst + i) = mem (src + i)
  unfold moveBytes
  rw [if_pos (by omega), Nat.add_sub_cancel_left]

theorem readBytes_moveBytes_of_disjoint (mem : ByteMem) {dst src : Nat}
    (h : a + m ≤ dst ∨ dst + n ≤ a) :
    readBytes (moveBytes mem dst src n) a m = readBytes mem a m := by
  apply readBytes_congr
  intro x hlo hhi
  exact moveBytes_of_outside (by omega)

/-- The memory after the bytes of a list were stored from `a` up. -/
def writeBytes (mem : ByteMem) (a : Nat) (l : List UInt8) : ByteMem :=
  fun x => if a ≤ x ∧ x < a + l.length then l.getD (x - a) 0 else mem x

theorem readBytes_writeBytes (mem : ByteMem) (a : Nat) (l : List UInt8) :
    readBytes (writeBytes mem a l) a l.length = l := by
  apply List.ext_getElem?
  intro i
  rw [readBytes_getElem?]
  unfold writeBytes
  by_cases hi : i < l.length
  · rw [if_pos hi, if_pos (by omega), Nat.add_sub_cancel_left, List.getD_eq_getElem _ _ hi,
      List.getElem?_eq_getElem hi]
  · rw [if_neg hi, List.getElem?_eq_none (Nat.le_of_not_lt hi)]

/-! ## Reading through a translation -/

/-- The `n` bytes from the virtual address `a` up, or `none` when one of them is
not mapped. -/
def readVia (tr : Nat → Option Nat) (mem : ByteMem) (a : Nat) : Nat → Option (List UInt8)
  | 0 => some []
  | n + 1 =>
    (readVia tr mem a n).bind (fun l => (tr (a + n)).map (fun x => l ++ [mem x]))

theorem readVia_eq_some_iff {l : List UInt8} : readVia tr mem a n = some l ↔
      l.length = n ∧ ∀ i < n, ∃ x, tr (a + i) = some x ∧ l[i]? = some (mem x) := by
  induction n generalizing l with
  | zero =>
    unfold readVia
    rw [Option.some.injEq, eq_comm, List.length_eq_zero_iff]
    exact ⟨fun h => ⟨h, nofun⟩, fun h => h.1⟩
  | succ n ih =>
    unfold readVia
    rw [Option.bind_eq_some_iff]
    constructor
    · intro h
      rcases h with ⟨l', hl', hlast⟩
      rcases Option.map_eq_some_iff.mp hlast with ⟨x, hx, rfl⟩
      rcases ih.mp hl' with ⟨hlen, hget⟩
      refine ⟨by rw [List.length_append, hlen]; rfl, ?_⟩
      intro i hi
      rcases Nat.lt_or_ge i n with hlt | hge
      · rcases hget i hlt with ⟨y, hy, hget'⟩
        exact ⟨y, hy, by rw [List.getElem?_append_left (by omega), hget']⟩
      · obtain rfl : i = n := by omega
        refine ⟨x, hx, ?_⟩
        rw [List.getElem?_append_right (by omega), hlen, Nat.sub_self]
        rfl
    · intro h
      rcases h with ⟨hlen, hget⟩
      rcases List.eq_nil_or_concat l with rfl | ⟨l', b, rfl⟩
      · exact absurd hlen (Nat.succ_ne_zero n).symm
      · rw [List.concat_eq_append] at hlen hget ⊢
        have hlen' : l'.length = n := by
          rw [List.length_append] at hlen
          exact Nat.succ.inj hlen
        rcases hget n (Nat.lt_succ_self n) with ⟨x, hx, hlast⟩
        rw [List.getElem?_append_right (by omega), hlen', Nat.sub_self] at hlast
        refine ⟨l', ih.mpr ⟨hlen', ?_⟩, ?_⟩
        · intro i hi
          rcases hget i (by omega) with ⟨y, hy, hget'⟩
          rw [List.getElem?_append_left (by omega)] at hget'
          exact ⟨y, hy, hget'⟩
        · rw [hx, Option.map_some, Option.some.inj hlast]

theorem readVia_congr {tr' : Nat → Option Nat} {mem' : ByteMem} {a' : Nat}
    (h : ∀ i < n, ∃ x x', tr (a + i) = some x ∧ tr' (a' + i) = some x' ∧ mem' x' = mem x) :
    readVia tr' mem' a' n = readVia tr mem a n := by
  induction n with
  | zero => rfl
  | succ n ih =>
    unfold readVia
    rcases h n (Nat.lt_succ_self n) with ⟨x, x', hx, hx', hmem⟩
    rw [ih (fun i hi => h i (by omega)), hx, hx']
    simp only [Option.map_some, hmem]

theorem readVia_eq_readBytes {p : Nat} (h : ∀ i < n, tr (a + i) = some (p + i)) :
    readVia tr mem a n = some (readBytes mem p n) := by
  rw [readVia_eq_some_iff]
  refine ⟨readBytes_length mem p n, ?_⟩
  intro i hi
  refine ⟨p + i, h i hi, ?_⟩
  rw [readBytes_getElem?, if_pos hi]

end SysLib
