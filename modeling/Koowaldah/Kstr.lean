import Mathlib

/-!
# Strings

A model of the string functions of `include/lib.h`.  A string is the list of the
characters in front of its NUL; `chr str i` is `str[i]`, with the NUL at the end.  A
pointer into a string is an index.

`kstrlen` starts to look for the NUL at the second character, so the strings here are
not empty.  For them no function reads a byte behind the NUL.
-/

namespace Koowaldah

variable {c : UInt8} {str a b : List UInt8}

/-- `str[i]`. -/
def chr (str : List UInt8) (i : Nat) : UInt8 := str.getD i 0

/-- The value of `*a - *b`.  The kernel is built with `-funsigned-char`. -/
def charDiff (a b : UInt8) : Int := (a.toNat : Int) - b.toNat

def kstrlen (str : List UInt8) : Nat := str.length

/-- `kstrchr`: the index of the first `c`, and `none` for `NULL`. -/
def kstrchr (c : UInt8) : List UInt8 → Option Nat
  | [] => none
  | x :: str => if x = c then some 0 else (kstrchr c str).map (· + 1)

/-- The loop of `kstrrchr`, with `p` at an index. -/
def kstrrchrLoop (str : List UInt8) (c : UInt8) : Nat → Option Nat
  | 0 => if chr str 0 = c then some 0 else none
  | p + 1 => if chr str (p + 1) = c then some (p + 1) else kstrrchrLoop str c p

/-- `kstrrchr`: the index of the last `c`, and `none` for `NULL`. -/
def kstrrchr (str : List UInt8) (c : UInt8) : Option Nat := kstrrchrLoop str c (kstrlen str)

def kstrncmp : Nat → List UInt8 → List UInt8 → Int
  | 0, a, b => charDiff (chr a 0) (chr b 0)
  | n + 1, a, b =>
    if chr a 0 = chr b 0 then kstrncmp n a.tail b.tail else charDiff (chr a 0) (chr b 0)

/-- `k__strcmp`. -/
def rawStrcmp : List UInt8 → List UInt8 → Int
  | x :: a, y :: b => if x = y then rawStrcmp a b else charDiff x y
  | a, b => charDiff (chr a 0) (chr b 0)

def kstrcmp (a b : List UInt8) : Int :=
  if kstrlen a = kstrlen b then kstrncmp (kstrlen a) a b else rawStrcmp a b

/-! ## Finding a character -/

theorem kstrchr_eq_none (h : c ∉ str) : kstrchr c str = none := by
  induction str with
  | nil => rfl
  | cons x str ih =>
    rw [List.mem_cons, not_or] at h
    unfold kstrchr
    rw [if_neg (Ne.symm h.1), ih h.2]
    rfl

theorem kstrchr_append {l : List UInt8} (h : c ∉ l) (r : List UInt8) :
    kstrchr c (l ++ c :: r) = some l.length := by
  induction l with
  | nil =>
    rw [List.nil_append, kstrchr, if_pos rfl]
    rfl
  | cons x l ih =>
    rw [List.mem_cons, not_or] at h
    rw [List.cons_append, kstrchr, if_neg (Ne.symm h.1), ih h.2]
    rfl

theorem chr_ne (hc : c ≠ 0) (h : c ∉ str) (i : Nat) : chr str i ≠ c := by
  intro hi
  unfold chr at hi
  rw [List.getD_eq_getElem?_getD] at hi
  cases hget : str[i]? with
  | none =>
    rw [hget] at hi
    exact hc hi.symm
  | some x =>
    rw [hget] at hi
    rw [← hi] at h
    exact h (List.mem_of_getElem? hget)

theorem chr_append_length (l : List UInt8) (c : UInt8) (r : List UInt8) :
    chr (l ++ c :: r) l.length = c := by
  unfold chr
  rw [List.getD_eq_getElem?_getD, List.getElem?_append_right (Nat.le_refl _), Nat.sub_self]
  rfl

theorem chr_append_of_lt (l : List UInt8) (c : UInt8) (r : List UInt8) {i : Nat}
    (hi : l.length < i) : chr (l ++ c :: r) i = chr r (i - l.length - 1) := by
  unfold chr
  rw [List.getD_eq_getElem?_getD, List.getD_eq_getElem?_getD,
    List.getElem?_append_right (by omega)]
  obtain ⟨j, hj⟩ : ∃ j, i - l.length = j + 1 := ⟨i - l.length - 1, by omega⟩
  rw [hj, List.getElem?_cons_succ, Nat.add_sub_cancel]

theorem kstrrchrLoop_add (m n : Nat) (h : ∀ i, m < i → chr str i ≠ c) :
    kstrrchrLoop str c (m + n) = kstrrchrLoop str c m := by
  induction n with
  | zero => rfl
  | succ n ih =>
    rw [← Nat.add_assoc, kstrrchrLoop, if_neg (h _ (by omega))]
    exact ih

theorem kstrrchrLoop_of_eq {n : Nat} (h : chr str n = c) : kstrrchrLoop str c n = some n := by
  cases n with
  | zero => rw [kstrrchrLoop, if_pos h]
  | succ n => rw [kstrrchrLoop, if_pos h]

theorem kstrrchr_eq_none (hc : c ≠ 0) (h : c ∉ str) : kstrrchr str c = none := by
  have hloop := kstrrchrLoop_add 0 (kstrlen str) (fun i _ => chr_ne hc h i)
  rw [Nat.zero_add] at hloop
  unfold kstrrchr
  rw [hloop, kstrrchrLoop, if_neg (chr_ne hc h 0)]

theorem kstrrchr_append {r : List UInt8} (hc : c ≠ 0) (h : c ∉ r) (l : List UInt8) :
    kstrrchr (l ++ c :: r) c = some l.length := by
  have hlen : kstrlen (l ++ c :: r) = l.length + (r.length + 1) := by
    unfold kstrlen
    rw [List.length_append, List.length_cons]
  unfold kstrrchr
  rw [hlen, kstrrchrLoop_add, kstrrchrLoop_of_eq (chr_append_length l c r)]
  intro i hi
  rw [chr_append_of_lt l c r hi]
  exact chr_ne hc h _

/-! ## Comparing -/

theorem charDiff_eq_zero_iff {a b : UInt8} : charDiff a b = 0 ↔ a = b := by
  unfold charDiff
  rw [sub_eq_zero, Nat.cast_inj, UInt8.toNat_inj]

theorem kstrncmp_eq_zero_iff (h : a.length = b.length) : kstrncmp a.length a b = 0 ↔ a = b := by
  induction a generalizing b with
  | nil =>
    rw [List.eq_nil_of_length_eq_zero h.symm]
    exact ⟨fun _ => rfl, fun _ => charDiff_eq_zero_iff.mpr rfl⟩
  | cons x a ih =>
    cases b with
    | nil => cases h
    | cons y b =>
      show (if x = y then kstrncmp a.length a b else charDiff x y) = 0 ↔ _
      rw [List.cons.injEq]
      by_cases hxy : x = y
      · rw [if_pos hxy, ih (Nat.succ.inj h), and_iff_right hxy]
      · rw [if_neg hxy, charDiff_eq_zero_iff]
        exact ⟨fun h => absurd h hxy, fun h => h.1⟩

theorem rawStrcmp_eq_zero_iff (ha : 0 ∉ a) (hb : 0 ∉ b) : rawStrcmp a b = 0 ↔ a = b := by
  induction a generalizing b with
  | nil =>
    cases b with
    | nil => exact ⟨fun _ => rfl, fun _ => charDiff_eq_zero_iff.mpr rfl⟩
    | cons y b =>
      show charDiff 0 y = 0 ↔ _
      rw [charDiff_eq_zero_iff]
      exact ⟨fun h => absurd (h ▸ List.mem_cons_self) hb, nofun⟩
  | cons x a ih =>
    rw [List.mem_cons, not_or] at ha
    cases b with
    | nil =>
      show charDiff x 0 = 0 ↔ _
      rw [charDiff_eq_zero_iff]
      exact ⟨fun h => absurd h.symm ha.1, nofun⟩
    | cons y b =>
      rw [List.mem_cons, not_or] at hb
      rw [rawStrcmp, List.cons.injEq]
      by_cases hxy : x = y
      · rw [if_pos hxy, ih ha.2 hb.2, and_iff_right hxy]
      · rw [if_neg hxy, charDiff_eq_zero_iff]
        exact ⟨fun h => absurd h hxy, fun h => h.1⟩

theorem kstrcmp_eq_zero_iff (ha : 0 ∉ a) (hb : 0 ∉ b) : kstrcmp a b = 0 ↔ a = b := by
  unfold kstrcmp
  split
  · rename_i hlen
    exact kstrncmp_eq_zero_iff hlen
  · exact rawStrcmp_eq_zero_iff ha hb

end Koowaldah
