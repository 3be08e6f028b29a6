import Koowaldah.Strtoul
import Koowaldah.Vsnprintf.Basic

/-!
# Numbers as text

`sprint_int_signed` and `sprint_int_unsigned` of `kernel/lib/vsnprintf.c` count the digits of a
number by dividing it, and store them from the last one on.  `numText` is the text of a number,
by Mathlib's `Nat.digits`.  The negation of the least `long` is the number itself.
-/

namespace Koowaldah

/-- The indices of `digits` that the second loop reads. -/
def digitReads (base : Int) : Nat → Int → List Int
  | 0, _ => []
  | k + 1, i => i.tmod base :: if i.tdiv base ≠ 0 then digitReads base k (i.tdiv base) else []

/-! ## The text of a number -/

def digitChar (d : Nat) : UInt8 := DIGITS.getD d 0

/-- The digits of a number, without leading zeros. -/
def numText (base n : Nat) : List UInt8 :=
  if n = 0 then [0x30] else (Nat.digits base n).reverse.map digitChar

/-- The decimal text of a number with a sign. -/
def signedText (i : Int) : List UInt8 :=
  if i < 0 then 0x2d :: numText 10 i.natAbs else numText 10 i.natAbs

section Text

variable {base n : Nat}

theorem numText_of_lt (hn : n < base) : numText base n = [digitChar n] := by
  unfold numText
  split
  · subst n
    rfl
  · rename_i hne
    rw [Nat.digits_of_lt base n hne hn]
    rfl

theorem numText_of_le (hbase : 2 ≤ base) (hn : base ≤ n) :
    numText base n = numText base (n / base) ++ [digitChar (n % base)] := by
  have hdiv : 0 < n / base := Nat.div_pos hn (by omega)
  unfold numText
  rw [if_neg (by omega), if_neg (by omega), Nat.digits_def' (by omega) (by omega)]
  simp

theorem signedText_length_le {i : Int} (hi : i.natAbs < 2 ^ 32) : (signedText i).length ≤ 12 := by
  have hdigits : (Nat.digits 10 i.natAbs).length ≤ 10 :=
    (Nat.digits_length_le_iff (by decide) _).mpr (hi.trans (by decide))
  have hlen : (numText 10 i.natAbs).length ≤ 10 := by
    unfold numText
    split
    · decide
    · simpa using hdigits
  unfold signedText
  split
  · rw [List.length_cons]
    omega
  · omega

/-- Induction over the digits of a number. -/
theorem digits_induction {motive : Nat → Prop} (hbase : 2 ≤ base) (one : ∀ n, n < base → motive n)
    (more : ∀ n, base ≤ n → motive (n / base) → motive n) (n : Nat) : motive n := by
  induction n using Nat.strong_induction_on with
  | _ n ih =>
    by_cases hn : n < base
    · exact one n hn
    · exact more n (by omega) (ih _ (Nat.div_lt_self (by omega) hbase))

theorem mem_numText (hbase : 2 ≤ base) {x : UInt8} (hx : x ∈ numText base n) :
    ∃ d, d < base ∧ x = digitChar d := by
  induction n using digits_induction hbase with
  | one n hn =>
    rw [numText_of_lt hn, List.mem_singleton] at hx
    exact ⟨n, hn, hx⟩
  | more n hn ih =>
    rw [numText_of_le hbase hn, List.mem_append, List.mem_singleton] at hx
    rcases hx with hx | hx
    · exact ih hx
    · exact ⟨n % base, Nat.mod_lt _ (by omega), hx⟩

theorem digitVal_digitChar : ∀ d < 16, digitVal (digitChar d) = d ∧ ¬ hexLower (digitChar d) := by
  decide

theorem digitsVal_numText (hbase : 2 ≤ base) (hle : base ≤ 16) (n : Nat) :
    digitsVal base (numText base n) = n := by
  induction n using digits_induction hbase with
  | one n hn => simp [numText_of_lt hn, digitsVal, (digitVal_digitChar n (by omega)).1]
  | more n hn ih =>
    have hmod : n % base < 16 := Nat.lt_of_lt_of_le (Nat.mod_lt _ (by omega)) hle
    rw [numText_of_le hbase hn, digitsVal_append, ih]
    simp only [List.foldl_cons, List.foldl_nil, (digitVal_digitChar _ hmod).1]
    rw [Nat.mul_comm]
    exact Nat.div_add_mod n base

theorem numText_eq_cons (hbase : 2 ≤ base) (hle : base ≤ 16) (hn : 0 < n) :
    ∃ d t, numText base n = digitChar d :: t ∧ 0 < d ∧ d < 16 := by
  induction n using digits_induction hbase with
  | one n hlt => exact ⟨n, [], numText_of_lt hlt, hn, by omega⟩
  | more n hge ih =>
    obtain ⟨d, t, htext, hd⟩ := ih (Nat.div_pos hge (by omega))
    exact ⟨d, t ++ [digitChar (n % base)], by rw [numText_of_le hbase hge, htext]; rfl, hd⟩

/-! ## The loops -/

theorem countDigits_eq (hbase : 2 ≤ base) (k : Nat) (hk : n < base ^ (k + 1)) :
    countDigits base (k + 1) n + 1 = (numText base n).length := by
  induction k generalizing n with
  | zero =>
    have hn : n < base := by simpa using hk
    rw [countDigits, ← Int.ofNat_tdiv, Nat.div_eq_of_lt hn, numText_of_lt hn]
    rfl
  | succ k ih =>
    show (if (n : Int).tdiv base ≠ 0 then countDigits base (k + 1) ((n : Int).tdiv base) + 1
      else 0) + 1 = _
    rw [← Int.ofNat_tdiv]
    by_cases hn : n < base
    · rw [Nat.div_eq_of_lt hn, numText_of_lt hn]
      rfl
    · have hdiv : (n / base : Nat) ≠ (0 : Int) := by
        have := Nat.div_pos (Nat.le_of_not_lt hn) (by omega)
        omega
      have hlt : n / base < base ^ (k + 1) := Nat.div_lt_of_lt_mul (by rwa [← Nat.pow_succ'])
      rw [if_pos hdiv, ih hlt, numText_of_le hbase (Nat.le_of_not_lt hn)]
      simp

theorem countDigits_natAbs (base : Nat) (k : Nat) (l : Int) :
    countDigits base k l = countDigits base k l.natAbs := by
  induction k generalizing l with
  | zero => rfl
  | succ k ih =>
    have hdiv : ((l.natAbs : Int).tdiv base) = (l.tdiv base).natAbs := by
      rw [Int.natAbs_tdiv]
      exact (Int.ofNat_tdiv ..).symm
    rw [countDigits, countDigits, hdiv, ih]
    simp only [ne_eq, Int.natCast_eq_zero, Int.natAbs_eq_zero]

theorem storeDigits_succ (below : Nat → UInt8) (k pos n : Nat) (buf : List UInt8) :
    storeDigits below base (k + 1) pos n buf =
      if n / base ≠ 0 then
        storeDigits below base k (pos - 1) (n / base : Nat) (buf.set pos (digitChar (n % base)))
      else buf.set pos (digitChar (n % base)) := by
  have hdigit : digitAt below ((n : Int).tmod base) = digitChar (n % base) := by
    rw [← Int.ofNat_tmod, digitAt, if_pos (Int.natCast_nonneg _), Int.toNat_natCast]
    rfl
  rw [storeDigits, hdigit, ← Int.ofNat_tdiv]
  simp only [ne_eq, Int.natCast_eq_zero]

theorem set_numText (hn : n < base) {p : Nat} {buf : List UInt8}
    (hroom : p + (numText base n).length ≤ buf.length) :
    buf.set (p + (numText base n).length - 1) (digitChar (n % base)) =
      buf.take p ++ numText base n ++ buf.drop (p + (numText base n).length) := by
  rw [numText_of_lt hn, List.length_singleton] at hroom ⊢
  rw [Nat.mod_eq_of_lt hn, Nat.add_sub_cancel, List.set_eq_take_append_cons_drop,
    if_pos (by omega)]
  simp

/-- The second loop stores the digits behind `p` bytes that are there already, and no other
byte.  The store of a round is behind those that are still to come. -/
theorem storeDigits_eq (below : Nat → UInt8) (hbase : 2 ≤ base) (k : Nat) (hk : n < base ^ (k + 1))
    (p : Nat) {buf : List UInt8} (hroom : p + (numText base n).length ≤ buf.length) :
    storeDigits below base (k + 1) (p + (numText base n).length - 1) n buf =
      buf.take p ++ numText base n ++ buf.drop (p + (numText base n).length) := by
  induction k generalizing n buf with
  | zero =>
    have hn : n < base := by simpa using hk
    rw [storeDigits_succ, Nat.div_eq_of_lt hn, if_neg (by decide), set_numText hn hroom]
  | succ k ih =>
    rw [storeDigits_succ]
    by_cases hn : n < base
    · rw [Nat.div_eq_of_lt hn, if_neg (by decide), set_numText hn hroom]
    · have hdiv : 0 < n / base := Nat.div_pos (Nat.le_of_not_lt hn) (by omega)
      have hlt : n / base < base ^ (k + 1) := Nat.div_lt_of_lt_mul (by rwa [← Nat.pow_succ'])
      rw [numText_of_le hbase (Nat.le_of_not_lt hn), List.length_append, List.length_singleton,
        ← Nat.add_assoc] at hroom ⊢
      rw [if_pos (Nat.ne_of_gt hdiv), Nat.add_sub_cancel,
        ih hlt (by rw [List.length_set]; omega), List.set_eq_take_append_cons_drop,
        if_pos (by omega), List.take_append_of_le_length (by simp; omega), List.take_take,
        List.drop_append_of_le_length (by simp; omega)]
      simp

theorem lt_pow_of_word (hbase : 2 ≤ base) (hn : n < 2 ^ 32) : n < base ^ (31 + 1) :=
  Nat.lt_of_lt_of_le hn (Nat.pow_le_pow_left hbase 32)

theorem numLen_eq (hbase : 2 ≤ base) (pos : Nat) {l : Int} (hl : l.natAbs < 2 ^ 32) :
    numLen base pos l = pos + (numText base l.natAbs).length := by
  rw [numLen, countDigits_natAbs, Nat.add_assoc, countDigits_eq hbase 31 (lt_pow_of_word hbase hl)]

theorem storeDigits_word (below : Nat → UInt8) (hbase : 2 ≤ base) (hn : n < 2 ^ 32) (p : Nat)
    {buf : List UInt8} (hroom : p + (numText base n).length ≤ buf.length) :
    storeDigits below base 32 (p + (numText base n).length - 1) n buf =
      buf.take p ++ numText base n ++ buf.drop (p + (numText base n).length) :=
  storeDigits_eq below hbase 31 (lt_pow_of_word hbase hn) p hroom

theorem digitReads_bounds (hpos : 0 < base) (k n : Nat) :
    ∀ r ∈ digitReads base k n, 0 ≤ r ∧ r < base := by
  induction k generalizing n with
  | zero => nofun
  | succ k ih =>
    intro r hr
    rw [digitReads, ← Int.ofNat_tdiv, ← Int.ofNat_tmod] at hr
    rcases List.mem_cons.mp hr with rfl | hr
    · have := Nat.mod_lt n hpos
      omega
    · split at hr
      · exact ih _ r hr
      · cases hr

/-! ## The way back -/

theorem nul_not_mem_numText (hbase : 2 ≤ base) (hle : base ≤ 16) (n : Nat) :
    0 ∉ numText base n := by
  intro h
  obtain ⟨d, hd, hzero⟩ := mem_numText hbase h
  have hne : ∀ d < 16, digitChar d ≠ 0 := by decide
  exact hne d (by omega) hzero.symm

theorem nul_not_mem_signedText (i : Int) : 0 ∉ signedText i := by
  have hnul := nul_not_mem_numText (show 2 ≤ 10 by decide) (by decide) i.natAbs
  unfold signedText
  split <;> simpa using hnul

theorem strtoul_of_intText {str : List UInt8} {neg : Bool} (hbase : 2 ≤ base) (hle : base ≤ 16)
    (hnul : 0 ∉ str) (htext : intText str = ⟨neg, base, numText base n⟩) (tail : List UInt8) :
    Ptr.strtoul (str ++ 0 :: tail) = some (clamp neg n) := by
  have hcut : (⟨neg, base, numText base n⟩ : IntText).cut = numText base n := by
    rw [← knownDigits_eq_cut]
    refine List.takeWhile_eq_self_iff.mpr (fun x hx => ?_)
    obtain ⟨d, hd, rfl⟩ := mem_numText hbase hx
    have hval := digitVal_digitChar d (by omega)
    rw [decide_eq_true_iff, hval.1]
    exact ⟨hd, hval.2⟩
  have hread := strtoul_mem ⟨str, hnul, tail⟩
  simp only [htext, hcut, digitsVal_numText hbase hle] at hread
  exact hread

theorem strtoul_hexText (i : BitVec 32) (tail : List UInt8) :
    Ptr.strtoul ([0x30, 0x78] ++ numText 16 i.toNat ++ 0 :: tail) = some i.toNat := by
  have hnul := nul_not_mem_numText (show 2 ≤ 16 by decide) (by decide) i.toNat
  have htext : intText ([0x30, 0x78] ++ numText 16 i.toNat) = ⟨false, 16, numText 16 i.toNat⟩ :=
    rfl
  have hlt := i.isLt
  rw [strtoul_of_intText (by decide) (by decide) (by simpa using hnul) htext, clamp,
    if_neg (by unfold ULONG_MAX; omega)]
  rfl

theorem intText_signedText {i : Int} (hi : i ≠ 0) :
    intText (signedText i) = ⟨decide (i < 0), 10, numText 10 i.natAbs⟩ := by
  obtain ⟨d, t, htext, hpos, hlt⟩ :=
    numText_eq_cons (show 2 ≤ 10 by decide) (by decide) (Int.natAbs_pos.mpr hi)
  have hplain : ∀ d < 16, 0 < d → ¬ isspace (uchar (digitChar d)) ∧ digitChar d ≠ 0x2d ∧
      digitChar d ≠ 0x2b ∧ digitChar d ≠ 0x30 := by decide
  obtain ⟨hspace, hminus, hplus, hzero⟩ := hplain d hlt hpos
  have hsplit : splitBase (digitChar d :: t) = (10, digitChar d :: t) := if_neg hzero
  rw [signedText, htext]
  split
  · rename_i hneg
    have hdrop : List.dropWhile (fun x => decide (isspace (uchar x))) (0x2d :: digitChar d :: t) =
        0x2d :: digitChar d :: t := List.dropWhile_cons_of_neg (by decide)
    simp only [intText, hdrop, splitSign, if_true, hsplit, hneg, decide_true]
  · rename_i hneg
    have hdrop : List.dropWhile (fun x => decide (isspace (uchar x))) (digitChar d :: t) =
        digitChar d :: t := List.dropWhile_cons_of_neg (by rwa [decide_eq_true_iff])
    simp only [intText, hdrop, splitSign, if_neg hminus, if_neg hplus, hsplit, hneg, decide_false]

theorem strtoul_signedText (i : BitVec 32) (tail : List UInt8) :
    Ptr.strtoul (signedText i.toInt ++ 0 :: tail) = some i.toNat := by
  have hlt := i.isLt
  have htoNat : i.toInt = if 2 * i.toNat < 2 ^ 32 then (i.toNat : Int) else i.toNat - 2 ^ 32 :=
    BitVec.toInt_eq_toNat_cond i
  by_cases hi : i.toInt = 0
  · have hzero : i.toNat = 0 := by
      split at htoNat <;> omega
    rw [hi, hzero]
    exact strtoul_mem ⟨[0x30], by decide, tail⟩
  · rw [strtoul_of_intText (by decide) (by decide) (nul_not_mem_signedText _)
      (intText_signedText hi)]
    unfold clamp ULONG_MAX WORD_RANGE
    grind

end Text

/-! ## The results -/

theorem sprintIntUnsigned_eq (below : Nat → UInt8) {base : Nat} (hbase : 2 ≤ base) (n : BitVec 32)
    {buf : List UInt8} (hroom : (numText base n.toNat).length ≤ buf.length) :
    sprintIntUnsigned below base n buf =
      (numText base n.toNat ++ buf.drop (numText base n.toNat).length,
        (numText base n.toNat).length) := by
  have hlen : numLen base 0 n.toNat = 0 + (numText base n.toNat).length := numLen_eq hbase 0 n.isLt
  unfold sprintIntUnsigned
  dsimp only
  rw [hlen, storeDigits_word below hbase n.isLt 0 (by omega)]
  simp

/-- `sprint_int_unsigned` writes the digits of the number and nothing else, and returns how many
there are.  It reads only characters of `digits`.  `strtoul` takes the hexadecimal digits
back. -/
theorem sprintIntUnsigned_inverts (below : Nat → UInt8) {base : Nat} (hbase : 2 ≤ base)
    (hle : base ≤ 16) (n : BitVec 32) {buf : List UInt8}
    (hroom : (numText base n.toNat).length ≤ buf.length) :
    sprintIntUnsigned below base n buf =
        (numText base n.toNat ++ buf.drop (numText base n.toNat).length,
          (numText base n.toNat).length) ∧
      (∀ r ∈ digitReads base 32 n.toNat, 0 ≤ r ∧ r < DIGITS.length) ∧
      ∀ hex : List UInt8, (numText 16 n.toNat).length ≤ hex.length → ∀ tail : List UInt8,
        let (text, len) := sprintIntUnsigned below 16 n hex
        Ptr.strtoul ([0x30, 0x78] ++ text.take len ++ 0 :: tail) = some n.toNat := by
  refine ⟨sprintIntUnsigned_eq below hbase n hroom, ?_, ?_⟩
  · intro r hr
    have hbounds := digitReads_bounds (by omega) 32 n.toNat r hr
    have hdigits : DIGITS.length = 16 := rfl
    omega
  · intro hex hhex tail
    rw [sprintIntUnsigned_eq below (by decide) n hhex]
    simp only [List.take_left]
    exact strtoul_hexText n tail

theorem sprintIntUnsigned_inverts_255 : sprintIntUnsigned (fun _ => 0) 16 255 sbuf =
      ([0x46, 0x46] ++ List.replicate 10 0, 2) := by
  have htext : numText 16 255 = [0x46, 0x46] := by
    rw [numText_of_le (by decide) (by decide), numText_of_lt (by decide)]
    rfl
  have hroom : (numText 16 (255 : BitVec 32).toNat).length ≤ sbuf.length := by
    rw [show (255 : BitVec 32).toNat = 255 from rfl, htext]
    decide
  have hprint := (sprintIntUnsigned_inverts (fun _ => 0) (by decide) (by decide) 255 hroom).1
  rw [hprint, show (255 : BitVec 32).toNat = 255 from rfl, htext]
  rfl

/-- What `sprint_int_signed` is to do in base 10: write the decimal text and nothing else, return
its length, read only characters of `digits`, and leave a text that `strtoul` takes back. -/
structure SprintExact (below : Nat → UInt8) (buf : List UInt8) (i : BitVec 32) : Prop where
  writes : sprintIntSigned below 10 i buf =
    (signedText i.toInt ++ buf.drop (signedText i.toInt).length, (signedText i.toInt).length)
  inDigits : ∀ r ∈ digitReads 10 32 (negated i), 0 ≤ r ∧ r < DIGITS.length
  parses : ∀ tail : List UInt8, Ptr.strtoul ((sprintIntSigned below 10 i buf).1.take
    (sprintIntSigned below 10 i buf).2 ++ 0 :: tail) = some i.toNat

/-- But for the least number, the second loop works on the absolute value. -/
theorem negated_eq {i : BitVec 32} (hi : i ≠ BitVec.intMin 32) : negated i = i.toInt.natAbs := by
  unfold negated
  split
  · have hneg : 0 - i = -i := BitVec.zero_sub i
    rw [hneg, BitVec.toInt_neg_of_ne_intMin hi]
    omega
  · omega

theorem sprintIntSigned_eq (below : Nat → UInt8) {i : BitVec 32} (hi : i ≠ BitVec.intMin 32)
    {buf : List UInt8} (hroom : (signedText i.toInt).length ≤ buf.length) :
    sprintIntSigned below 10 i buf =
      (signedText i.toInt ++ buf.drop (signedText i.toInt).length,
        (signedText i.toInt).length) := by
  have hlo := i.le_toInt
  have hhi := @BitVec.toInt_lt 32 i
  have hlt : i.toInt.natAbs < 2 ^ 32 := by omega
  have hlen : ∀ pos, numLen 10 pos i.toInt = pos + (numText 10 i.toInt.natAbs).length :=
    fun pos => numLen_eq (show 2 ≤ 10 by decide) pos hlt
  have hstore : ∀ p (buf : List UInt8), p + (numText 10 i.toInt.natAbs).length ≤ buf.length →
      storeDigits below 10 32 (p + (numText 10 i.toInt.natAbs).length - 1) i.toInt.natAbs buf =
        buf.take p ++ numText 10 i.toInt.natAbs ++
          buf.drop (p + (numText 10 i.toInt.natAbs).length) :=
    fun p buf => storeDigits_word below (show 2 ≤ 10 by decide) hlt p
  unfold sprintIntSigned
  rw [negated_eq hi]
  dsimp only
  rw [hlen]
  unfold signedText at hroom ⊢
  split at hroom
  · rename_i hneg
    simp only [if_pos hneg, List.length_cons] at hroom ⊢
    rw [hstore 1 _ (by rw [List.length_set]; omega), Nat.add_comm 1]
    cases buf with
    | nil => simp at hroom
    | cons x buf => simp
  · rename_i hneg
    simp only [if_neg hneg]
    rw [hstore 0 _ (by omega)]
    simp

/-- `sprint_int_signed` is right for every number but the least one. -/
theorem sprintIntSigned_exact_iff (below : Nat → UInt8) (i : BitVec 32) {buf : List UInt8}
    (hroom : (signedText i.toInt).length ≤ buf.length) :
    SprintExact below buf i ↔ i ≠ BitVec.intMin 32 := by
  constructor
  · rintro h rfl
    exact absurd (h.inDigits (-8) (by decide)).1 (by decide)
  · intro hi
    have hprint := sprintIntSigned_eq below hi hroom
    refine ⟨hprint, ?_, ?_⟩
    · rw [negated_eq hi]
      intro r hr
      have hbounds := digitReads_bounds (show 0 < 10 by decide) 32 _ r hr
      exact ⟨hbounds.1, Int.lt_trans hbounds.2 (by decide)⟩
    · intro tail
      rw [hprint, List.take_left]
      exact strtoul_signedText i tail

theorem sprintIntSigned_exact_neg_seven : SprintExact (fun _ => 0) sbuf (-7) :=
  (sprintIntSigned_exact_iff (fun _ => 0) (-7) (by decide)).mpr (by decide)

/-- For the least number `digits` is read at `-8`, and the bytes in front of it are stored. -/
theorem sprintIntSigned_least :
    digitReads 10 32 (negated (BitVec.intMin 32)) = [-8, -4, -6, -3, -8, -4, -7, -4, -1, -2] ∧
      sprintIntSigned (fun _ => 0) 10 (BitVec.intMin 32) sbuf =
        (0x2d :: List.replicate 11 0, 11) := by
  decide

end Koowaldah
