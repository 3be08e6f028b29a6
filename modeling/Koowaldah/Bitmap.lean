import Koowaldah.Arch

/-!
# Bitmaps

A model of `include/bitmap.h` and `kernel/lib/bitmap.c`.  The memory is one
array of `unsigned long`, a bitmap is a word index into it, and bit `i` of the
bitmap at `dst` is `bitAt mem dst i`.

Two of the source's functions do not do what their names say, and the model
keeps what they do:

* `bitmap_fill` ends with `*dst |= ~0UL >> (bits - BITS_PER_LONG)`.  The
  subtraction is the wrong way round and wraps, so the shift count is out of
  range.  The i386 shift takes its count modulo 32, which makes it `bits`
  itself: the last word gets its low `32 - bits` bits set.  When `bits` is a
  multiple of 32 that word is the one after the bitmap.
* `bitmap_zero` clears the whole words with `memory_set` and then masks the
  first word where the last one is due.

`bitAt_bitmapFill` and `bitAt_bitmapZero` say which bits that leaves.  `SetsBelow` is what the
two are for; `bitmapFill_setsBelow_iff` and `bitmapZero_setsBelow_iff` say when they do it.
-/

namespace Koowaldah

variable {dst i bit x limit : Nat} {mem : Words}

/-- Memory as an array of `unsigned long`. -/
abbrev Words := Nat → BitVec 32

def BITS_PER_LONG : Nat := 32

/-- `BITMAP_SIZE`: the bytes of a bitmap of `nbits` bits, in whole words. -/
def bitmapSize (nbits : Nat) : Nat :=
  (nbits + (BITS_PER_LONG - 1)) / BITS_PER_LONG * BITS_PER_LONG / 8

def bitAt (mem : Words) (dst i : Nat) : Bool :=
  (mem (dst + i / BITS_PER_LONG)).getLsbD (i % BITS_PER_LONG)

def setWord (mem : Words) (w : Nat) (v : BitVec 32) : Words := Function.update mem w v

/-- The i386 right shift, which takes its count modulo the width. -/
def shr (v : BitVec 32) (count : Nat) : BitVec 32 := v >>> (count % BITS_PER_LONG)

/-- Store `v` into `n` words from `dst` up. -/
def setWords (mem : Words) (dst : Nat) (v : BitVec 32) : Nat → Words
  | 0 => mem
  | n + 1 => setWord (setWords mem dst v n) (dst + n) v

def bitmapZero (mem : Words) (dst bits : Nat) : Words :=
  let mem := setWords mem dst 0#32 (bits / BITS_PER_LONG)
  setWord mem dst (mem dst &&& (BitVec.allOnes 32 <<< (bits % BITS_PER_LONG)))

/-- `bitmap_fill`.  After the loop `dst` and `bits` have moved on by the whole
words; the shift count `bits - BITS_PER_LONG` is an `unsigned long`. -/
def bitmapFill (mem : Words) (dst bits : Nat) : Words :=
  let mem := setWords mem dst (BitVec.allOnes 32) (bits / BITS_PER_LONG)
  let dst := dst + bits / BITS_PER_LONG
  let bits := bits % BITS_PER_LONG
  setWord mem dst (mem dst ||| shr (BitVec.allOnes 32) (bits + WORD_RANGE - BITS_PER_LONG))

def bitmapBitSet (mem : Words) (dst bit : Nat) : Words :=
  setWord mem (dst + bit / BITS_PER_LONG)
    (mem (dst + bit / BITS_PER_LONG) ||| 1#32 <<< (bit % BITS_PER_LONG))

def bitmapBitClear (mem : Words) (dst bit : Nat) : Words :=
  setWord mem (dst + bit / BITS_PER_LONG)
    (mem (dst + bit / BITS_PER_LONG) &&& ~~~(1#32 <<< (bit % BITS_PER_LONG)))

/-- The loop of `bitmap_seek_unset`, with `n` rounds to go. -/
def seekUnsetLoop (mem : Words) : Nat → Nat → Nat → Nat → Option Nat
  | 0, _, _, _ => none
  | n + 1, bit, tmp, dst =>
    let dst := if tmp = BITS_PER_LONG then dst + 1 else dst
    let tmp := if tmp = BITS_PER_LONG then 0 else tmp
    if (mem dst).getLsbD tmp then seekUnsetLoop mem n (bit + 1) (tmp + 1) dst else some bit

/-- `bitmap_seek_unset`: the first clear bit below `limit`. -/
def bitmapSeekUnset (mem : Words) (dst limit : Nat) : Option Nat :=
  seekUnsetLoop mem limit 0 0 dst

/-- The loop of `bitmap_seek_set`, with `n` rounds to go. -/
def seekSetLoop (mem : Words) : Nat → Nat → Nat → Nat → Option Nat
  | 0, _, _, _ => none
  | n + 1, bit, tmp, dst =>
    let dst := if tmp = BITS_PER_LONG then dst + 1 else dst
    let tmp := if tmp = BITS_PER_LONG then 0 else tmp
    if (mem dst).getLsbD tmp then some bit else seekSetLoop mem n (bit + 1) (tmp + 1) dst

/-- `bitmap_seek_set`: the first set bit below `limit`. -/
def bitmapSeekSet (mem : Words) (dst limit : Nat) : Option Nat :=
  seekSetLoop mem limit 0 0 dst

/-- The word loop of `bitmap_all_set` and `bitmap_all_unset`: every one of the
`n` words is `v`. -/
def wordsAre (mem : Words) (v : BitVec 32) : Nat → Nat → Bool
  | 0, _ => true
  | n + 1, dst => mem dst == v && wordsAre mem v n (dst + 1)

def bitmapAllSet (mem : Words) (dst limit : Nat) : Bool :=
  wordsAre mem (BitVec.allOnes 32) (limit / BITS_PER_LONG) dst &&
    if limit % BITS_PER_LONG ≠ 0 then
      ~~~(mem (dst + limit / BITS_PER_LONG)) &&&
        shr (BitVec.allOnes 32) (BITS_PER_LONG - limit % BITS_PER_LONG) == 0#32
    else true

def bitmapAllUnset (mem : Words) (dst limit : Nat) : Bool :=
  wordsAre mem 0#32 (limit / BITS_PER_LONG) dst &&
    if limit % BITS_PER_LONG ≠ 0 then
      mem (dst + limit / BITS_PER_LONG) &&&
        shr (BitVec.allOnes 32) (BITS_PER_LONG - limit % BITS_PER_LONG) == 0#32
    else true

/-! ## Words -/

@[simp] theorem setWord_apply (mem : Words) (w : Nat) (v : BitVec 32) (x : Nat) :
    setWord mem w v x = if x = w then v else mem x :=
  Function.update_apply ..

theorem setWords_apply (mem : Words) (dst : Nat) (v : BitVec 32) (x : Nat) :
    ∀ n, setWords mem dst v n x = if dst ≤ x ∧ x < dst + n then v else mem x
  | 0 => by
    have : ¬ (dst ≤ x ∧ x < dst + 0) := by omega
    rw [setWords, if_neg this]
  | n + 1 => by
    rw [setWords, setWord_apply, setWords_apply mem dst v x n]
    by_cases hx : x = dst + n
    · rw [if_pos hx, if_pos (by omega)]
    · rw [if_neg hx]
      by_cases hin : dst ≤ x ∧ x < dst + n
      · rw [if_pos hin, if_pos (by omega)]
      · rw [if_neg hin, if_neg (by omega)]

theorem mod_bitsPerLong_lt (i : Nat) : i % BITS_PER_LONG < 32 := Nat.mod_lt _ (by decide)

theorem bit_eq_of_word_eq {j : Nat} (hw : dst + i / BITS_PER_LONG = dst + j / BITS_PER_LONG)
    (hb : i % BITS_PER_LONG = j % BITS_PER_LONG) : i = j := by
  have hi := Nat.div_add_mod i BITS_PER_LONG
  have hj := Nat.div_add_mod j BITS_PER_LONG
  have hq : i / BITS_PER_LONG = j / BITS_PER_LONG := by omega
  rw [← hi, ← hj, hq, hb]

/-! ## Single bits -/

theorem getLsbD_one_shiftLeft {j k : Nat} (hj : j < 32) :
    (1#32 <<< k).getLsbD j = decide (j = k) := by
  by_cases hlt : j < k
  · have hne : j ≠ k := by omega
    simp [hlt, hne]
  · have hiff : j - k = 0 ↔ j = k := by omega
    simp [hj, hlt, hiff]

theorem bit_place_iff (hw : dst + i / BITS_PER_LONG = dst + bit / BITS_PER_LONG) :
    i % BITS_PER_LONG = bit % BITS_PER_LONG ↔ i = bit :=
  ⟨bit_eq_of_word_eq hw, fun h => by rw [h]⟩

theorem bitAt_bitmapBitSet (mem : Words) (dst bit i : Nat) :
    bitAt (bitmapBitSet mem dst bit) dst i = (decide (i = bit) || bitAt mem dst i) := by
  unfold bitAt bitmapBitSet
  rw [setWord_apply]
  by_cases hw : dst + i / BITS_PER_LONG = dst + bit / BITS_PER_LONG
  · rw [if_pos hw, ← hw, BitVec.getLsbD_or, Bool.or_comm,
      getLsbD_one_shiftLeft (mod_bitsPerLong_lt i)]
    simp only [bit_place_iff hw]
  · have hne : i ≠ bit := fun h => hw (by rw [h])
    rw [if_neg hw]
    simp [hne]

theorem bitAt_bitmapBitClear (mem : Words) (dst bit i : Nat) :
    bitAt (bitmapBitClear mem dst bit) dst i = (!decide (i = bit) && bitAt mem dst i) := by
  unfold bitAt bitmapBitClear
  rw [setWord_apply]
  by_cases hw : dst + i / BITS_PER_LONG = dst + bit / BITS_PER_LONG
  · rw [if_pos hw, ← hw, BitVec.getLsbD_and, Bool.and_comm, BitVec.getLsbD_not,
      getLsbD_one_shiftLeft (mod_bitsPerLong_lt i)]
    simp only [bit_place_iff hw, mod_bitsPerLong_lt i, decide_true, Bool.true_and]
  · have hne : i ≠ bit := fun h => hw (by rw [h])
    rw [if_neg hw]
    simp [hne]

/-! ## Words that an operation does not touch -/

theorem bitmapFill_frame (mem : Words) {bits : Nat}
    (hx : x < dst ∨ dst + bits / BITS_PER_LONG < x) : bitmapFill mem dst bits x = mem x := by
  have hq := Nat.zero_le (bits / BITS_PER_LONG)
  unfold bitmapFill
  simp only [setWord_apply, setWords_apply]
  rw [if_neg (by omega), if_neg (by omega)]

theorem bitmapZero_frame (mem : Words) {bits : Nat}
    (hx : x < dst ∨ dst + bits / BITS_PER_LONG < x) : bitmapZero mem dst bits x = mem x := by
  have hne : x ≠ dst := by
    unfold BITS_PER_LONG at hx
    omega
  unfold bitmapZero
  simp only [setWord_apply, setWords_apply]
  rw [if_neg hne, if_neg (by omega)]

theorem bitmapBitSet_frame (mem : Words) (hx : x ≠ dst + bit / BITS_PER_LONG) :
    bitmapBitSet mem dst bit x = mem x := by
  unfold bitmapBitSet
  rw [setWord_apply, if_neg hx]

theorem bitmapBitClear_frame (mem : Words) (hx : x ≠ dst + bit / BITS_PER_LONG) :
    bitmapBitClear mem dst bit x = mem x := by
  unfold bitmapBitClear
  rw [setWord_apply, if_neg hx]

/-! ## Filling and clearing -/

theorem bitAt_setWords (mem : Words) (dst n i : Nat) (v : BitVec 32) :
    bitAt (setWords mem dst v n) dst i =
      if i / BITS_PER_LONG < n then v.getLsbD (i % BITS_PER_LONG) else bitAt mem dst i := by
  unfold bitAt
  rw [setWords_apply]
  have hiff : (dst ≤ dst + i / BITS_PER_LONG ∧ dst + i / BITS_PER_LONG < dst + n) ↔
      i / BITS_PER_LONG < n := by
    unfold BITS_PER_LONG
    omega
  simp only [hiff]
  split <;> rfl

/-- Which bits `bitmap_fill` sets: those of the whole words, and in the word
after them the low `32 - bits % 32`.  The others keep their value. -/
theorem bitAt_bitmapFill (mem : Words) (dst bits i : Nat) : bitAt (bitmapFill mem dst bits) dst i =
      (decide (i / BITS_PER_LONG < bits / BITS_PER_LONG) ||
        decide (i / BITS_PER_LONG = bits / BITS_PER_LONG ∧
          i % BITS_PER_LONG + bits % BITS_PER_LONG < 32) || bitAt mem dst i) := by
  have hlt := mod_bitsPerLong_lt i
  have hcount : (bits % BITS_PER_LONG + WORD_RANGE - BITS_PER_LONG) % BITS_PER_LONG =
      bits % BITS_PER_LONG := by
    unfold WORD_RANGE BITS_PER_LONG
    omega
  have hloop := bitAt_setWords mem dst (bits / BITS_PER_LONG) i (BitVec.allOnes 32)
  rw [BitVec.getLsbD_allOnes] at hloop
  by_cases hw : i / BITS_PER_LONG = bits / BITS_PER_LONG
  · have hsum : bits % BITS_PER_LONG + i % BITS_PER_LONG < 32 ↔
        i % BITS_PER_LONG + bits % BITS_PER_LONG < 32 := by omega
    unfold bitAt at hloop ⊢
    unfold bitmapFill
    simp only [setWord_apply]
    rw [if_pos (by rw [hw]), ← hw, BitVec.getLsbD_or, shr, hcount,
      BitVec.getLsbD_ushiftRight, BitVec.getLsbD_allOnes]
    rw [← hw, if_neg (Nat.lt_irrefl _)] at hloop
    rw [hloop, Bool.or_comm]
    simp only [Nat.lt_irrefl, decide_false, Bool.false_or, hsum, true_and]
  · have hne : dst + i / BITS_PER_LONG ≠ dst + bits / BITS_PER_LONG := by omega
    unfold bitAt at hloop ⊢
    unfold bitmapFill
    simp only [setWord_apply]
    rw [if_neg hne, hloop]
    by_cases hlow : i / BITS_PER_LONG < bits / BITS_PER_LONG
    · simp only [hlow, hlt, if_true, decide_true, Bool.true_or]
    · simp [hlow, hw]

/-- Which bits `bitmap_zero` clears: those of the whole words, and in the
first word the low `bits % 32`.  The others keep their value. -/
theorem bitAt_bitmapZero (mem : Words) (dst bits i : Nat) : bitAt (bitmapZero mem dst bits) dst i =
      (!decide (i / BITS_PER_LONG < bits / BITS_PER_LONG) &&
        !decide (i < bits % BITS_PER_LONG) && bitAt mem dst i) := by
  have hlt := mod_bitsPerLong_lt i
  have hltb := mod_bitsPerLong_lt bits
  have hloop := bitAt_setWords mem dst (bits / BITS_PER_LONG) i 0#32
  have hfirst : i / BITS_PER_LONG = 0 → i % BITS_PER_LONG = i := by
    intro h
    have := Nat.div_add_mod i BITS_PER_LONG
    rw [h] at this
    omega
  have hother : i / BITS_PER_LONG ≠ 0 → ¬ i < bits % BITS_PER_LONG := by
    intro h hlt'
    exact h (Nat.div_eq_of_lt (Nat.lt_trans hlt' hltb))
  unfold bitAt at hloop ⊢
  unfold bitmapZero
  simp only [setWord_apply]
  by_cases hw : i / BITS_PER_LONG = 0
  · rw [if_pos (by omega)]
    rw [hw, Nat.add_zero] at hloop ⊢
    rw [BitVec.getLsbD_and, hloop, BitVec.getLsbD_shiftLeft, BitVec.getLsbD_allOnes,
      hfirst hw]
    rw [hfirst hw] at hlt
    by_cases hwhole : 0 < bits / BITS_PER_LONG
    · simp [hwhole]
    · by_cases hi : i < bits % BITS_PER_LONG
      · simp [hi]
      · have : i - bits % BITS_PER_LONG < 32 := by omega
        simp [hi, hlt, this]
  · rw [if_neg (by omega), hloop]
    by_cases hwhole : i / BITS_PER_LONG < bits / BITS_PER_LONG
    · simp [hwhole]
    · simp [hother hw]

/-- The first `n` bits of the bitmap at `dst` get the value `v`.  Every other bit of every word
keeps its value, so that no word after the last one of the `n` bits changes. -/
structure SetsBelow (v : Bool) (mem mem' : Words) (dst n : Nat) : Prop where
  below : ∀ i, i < n → bitAt mem' dst i = v
  above : ∀ i, n ≤ i → bitAt mem' dst i = bitAt mem dst i
  before : ∀ x, x < dst → mem' x = mem x
  beyond : ∀ x, dst + (n + 31) / BITS_PER_LONG ≤ x → mem' x = mem x

theorem bit_split (i : Nat) : 32 * (i / BITS_PER_LONG) + i % BITS_PER_LONG = i :=
  Nat.div_add_mod i BITS_PER_LONG

theorem forall_word_iff (P : Nat → Nat → Prop) (q : Nat) :
    (∀ i, i / BITS_PER_LONG = q → P q (i % BITS_PER_LONG)) ↔ ∀ k, k < 32 → P q k := by
  constructor
  · intro h k hk
    have hdiv : (32 * q + k) / BITS_PER_LONG = q := by
      unfold BITS_PER_LONG
      omega
    have hmod : (32 * q + k) % BITS_PER_LONG = k := by
      unfold BITS_PER_LONG
      omega
    have hbit := h (32 * q + k) hdiv
    rw [hmod] at hbit
    exact hbit
  · intro h i _
    exact h _ (mod_bitsPerLong_lt i)

/-- A condition on bits of one word, by their numbers in the bitmap and in the word. -/
theorem forall_bitAt_iff {v : Bool} {D P : Nat → Prop} {q : Nat}
    (h : ∀ i, D i ↔ i / BITS_PER_LONG = q ∧ P (i % BITS_PER_LONG)) (hP : ∀ k, P k → k < 32) :
    (∀ i, D i → bitAt mem dst i = v) ↔ ∀ k, P k → (mem (dst + q)).getLsbD k = v := by
  have hword := forall_word_iff (fun q k => P k → (mem (dst + q)).getLsbD k = v) q
  constructor
  · intro hbits k hk
    refine hword.mp (fun i hi hPi => ?_) k (hP k hk) hk
    rw [← hbits i ((h i).mpr ⟨hi, hPi⟩), bitAt, hi]
  · intro hbits i hi
    obtain ⟨hq, hPi⟩ := (h i).mp hi
    rw [bitAt, hq, hbits _ hPi]

/-- An operation that writes `v` to the bits of `W` sets the first `n` bits and no other
exactly when the bits on which the two differ were `v` before. -/
theorem setsBelow_iff {v : Bool} {mem' : Words} {n : Nat} {W : Nat → Prop}
    (hwrites : ∀ i, W i → bitAt mem' dst i = v)
    (hkeeps : ∀ i, ¬ W i → bitAt mem' dst i = bitAt mem dst i)
    (hbefore : ∀ x, x < dst → mem' x = mem x) :
    SetsBelow v mem mem' dst n ↔ ∀ i, ¬ (W i ↔ i < n) → bitAt mem dst i = v := by
  constructor
  · intro hsets i hdiff
    by_cases hi : i < n
    · rw [← hkeeps i (fun hw => hdiff (iff_of_true hw hi))]
      exact hsets.below i hi
    · have hw : W i := by
        by_contra hnot
        exact hdiff (iff_of_false hnot hi)
      rw [← hsets.above i (Nat.le_of_not_lt hi)]
      exact hwrites i hw
  · intro hwere
    have habove : ∀ i, n ≤ i → bitAt mem' dst i = bitAt mem dst i := by
      intro i hi
      by_cases hw : W i
      · have hdiff : ¬ (W i ↔ i < n) := fun hiff => Nat.not_lt_of_le hi (hiff.mp hw)
        rw [hwrites i hw, hwere i hdiff]
      · exact hkeeps i hw
    refine ⟨?_, habove, hbefore, ?_⟩
    · intro i hi
      by_cases hw : W i
      · exact hwrites i hw
      · rw [hkeeps i hw]
        exact hwere i (fun hiff => hw (hiff.mpr hi))
    · intro x hx
      obtain ⟨q, rfl⟩ := Nat.exists_eq_add_of_le (Nat.le_trans (Nat.le_add_right _ _) hx)
      apply BitVec.eq_of_getLsbD_eq
      -- every bit of a word behind the last one is behind the first `n`
      refine (forall_word_iff (fun q k => (mem' (dst + q)).getLsbD k = (mem (dst + q)).getLsbD k)
        q).mp ?_
      intro i hi
      have hkept := habove i (by
        have hsplit := bit_split i
        unfold BITS_PER_LONG at hx
        omega)
      unfold bitAt at hkept
      rw [hi] at hkept
      exact hkept

/-- `bitmap_fill` sets the first `n` bits and no other exactly when the bits of the last word
that it should have set and has not, or has set and should not have, were set before.  With
`r` bits in the last word it sets the low `32 - r`. -/
theorem bitmapFill_setsBelow_iff (mem : Words) (dst n : Nat) :
    SetsBelow true mem (bitmapFill mem dst n) dst n ↔
      ∀ k, min (n % BITS_PER_LONG) (BITS_PER_LONG - n % BITS_PER_LONG) ≤ k →
        k < max (n % BITS_PER_LONG) (BITS_PER_LONG - n % BITS_PER_LONG) →
        (mem (dst + n / BITS_PER_LONG)).getLsbD k = true := by
  have hn := bit_split n
  have hr := mod_bitsPerLong_lt n
  have h32 : BITS_PER_LONG = 32 := rfl
  rw [setsBelow_iff (W := fun i => i / BITS_PER_LONG < n / BITS_PER_LONG ∨
    (i / BITS_PER_LONG = n / BITS_PER_LONG ∧ i % BITS_PER_LONG + n % BITS_PER_LONG < 32))
    ?_ ?_ (fun x hx => bitmapFill_frame mem (Or.inl hx))]
  · simp only [← and_imp]
    refine forall_bitAt_iff (fun i => ?_) (fun k hk => by omega)
    have hsplit := bit_split i
    have hlt := mod_bitsPerLong_lt i
    omega
  · intro i hw
    rw [bitAt_bitmapFill]
    rcases hw with hlow | hlast
    · rw [decide_eq_true hlow, Bool.true_or, Bool.true_or]
    · rw [decide_eq_true hlast, Bool.or_true, Bool.true_or]
  · intro i hnot
    rw [not_or] at hnot
    rw [bitAt_bitmapFill, decide_eq_false hnot.1, decide_eq_false hnot.2]
    rfl

/-- Filling five bits of zeroes sets the tenth. -/
theorem bitmapFill_five_wrong :
    ¬ SetsBelow true (fun _ => 0#32) (bitmapFill (fun _ => 0#32) 0 5) 0 5 := by
  intro hsets
  have hbit := hsets.above 10 (by decide)
  exact absurd hbit (by decide)

/-- `bitmap_zero` clears the first `n` bits and no other exactly when they are in one word, or
those of the last word were clear before. -/
theorem bitmapZero_setsBelow_iff (mem : Words) (dst n : Nat) :
    SetsBelow false mem (bitmapZero mem dst n) dst n ↔
      n < BITS_PER_LONG ∨ ∀ k, k < n % BITS_PER_LONG →
        (mem (dst + n / BITS_PER_LONG)).getLsbD k = false := by
  have hn := bit_split n
  have hr := mod_bitsPerLong_lt n
  have h32 : BITS_PER_LONG = 32 := rfl
  rw [setsBelow_iff (W := fun i => i / BITS_PER_LONG < n / BITS_PER_LONG ∨
    i < n % BITS_PER_LONG) ?_ ?_ (fun x hx => bitmapZero_frame mem (Or.inl hx))]
  · rw [or_iff_not_imp_left]
    refine (forall_bitAt_iff (P := fun k => ¬ n < BITS_PER_LONG ∧ k < n % BITS_PER_LONG)
      (q := n / BITS_PER_LONG) (fun i => ?_) (fun k hk => by omega)).trans ?_
    · have hsplit := bit_split i
      have hlt := mod_bitsPerLong_lt i
      omega
    · exact ⟨fun h hn k hk => h k ⟨hn, hk⟩, fun h k hk => h hk.1 k hk.2⟩
  · intro i hw
    rw [bitAt_bitmapZero]
    rcases hw with hlow | hfirst
    · rw [decide_eq_true hlow]
      rfl
    · rw [decide_eq_true hfirst, Bool.not_true, Bool.and_false, Bool.false_and]
  · intro i hnot
    rw [not_or] at hnot
    rw [bitAt_bitmapZero, decide_eq_false hnot.1, decide_eq_false hnot.2]
    rfl

/-- Clearing forty bits of ones leaves the second word as it is. -/
theorem bitmapZero_forty_wrong :
    ¬ SetsBelow false (fun _ => BitVec.allOnes 32) (bitmapZero (fun _ => BitVec.allOnes 32) 0 40)
      0 40 := by
  intro hsets
  have hbit := hsets.below 35 (by decide)
  exact absurd hbit (by decide)

/-! ## Searching -/

/-- The pointer and the bit number of the loop always name bit `bit` of the
bitmap. -/
theorem seekUnsetLoop_spec (mem : Words) (dst : Nat) : ∀ (n bit tmp d : Nat),
    32 * (d - dst) + tmp = bit → dst ≤ d → tmp ≤ 32 →
    (∀ m, seekUnsetLoop mem n bit tmp d = some m →
      bit ≤ m ∧ m < bit + n ∧ bitAt mem dst m = false ∧
        ∀ i, bit ≤ i → i < m → bitAt mem dst i = true) ∧
    (seekUnsetLoop mem n bit tmp d = none →
      ∀ i, bit ≤ i → i < bit + n → bitAt mem dst i = true) := by
  intro n
  induction n with
  | zero =>
    intro bit tmp d _ _ _
    constructor
    · intro m h
      simp [seekUnsetLoop] at h
    · intro _ i hi hi'
      omega
  | succ n ih =>
    intro bit tmp d hbit hd htmp
    have hpos : ∃ d' t', (if tmp = BITS_PER_LONG then d + 1 else d) = d' ∧
        (if tmp = BITS_PER_LONG then 0 else tmp) = t' ∧ d' = dst + bit / 32 ∧
        t' = bit % 32 ∧ dst ≤ d' := by
      by_cases h : tmp = 32
      · exact ⟨d + 1, 0, if_pos h, if_pos h, by omega, by omega, by omega⟩
      · exact ⟨d, tmp, if_neg h, if_neg h, by omega, by omega, hd⟩
    obtain ⟨d', t', hd', ht', hd'eq, ht'eq, hge⟩ := hpos
    have hval : (mem d').getLsbD t' = bitAt mem dst bit := by
      rw [hd'eq, ht'eq]
      rfl
    unfold seekUnsetLoop
    simp only [hd', ht', hval]
    cases hb : bitAt mem dst bit with
    | false =>
      constructor
      · intro m h
        have hm : bit = m := Option.some_inj.mp h
        subst hm
        exact ⟨Nat.le_refl _, by omega, hb, fun i h1 h2 => by omega⟩
      · intro h
        simp at h
    | true =>
      have hrec := ih (bit + 1) (t' + 1) d' (by omega) hge (by omega)
      constructor
      · intro m h
        have hm := hrec.1 m h
        refine ⟨by omega, by omega, hm.2.2.1, fun i h1 h2 => ?_⟩
        by_cases hi : i = bit
        · rw [hi, hb]
        · exact hm.2.2.2 i (by omega) h2
      · intro h i h1 h2
        by_cases hi : i = bit
        · rw [hi, hb]
        · exact hrec.2 h i (by omega) (by omega)

theorem bitmapSeekUnset_some {m : Nat} (h : bitmapSeekUnset mem dst limit = some m) :
    m < limit ∧ bitAt mem dst m = false ∧ ∀ i, i < m → bitAt mem dst i = true := by
  have hspec := (seekUnsetLoop_spec mem dst limit 0 0 dst (by omega) (Nat.le_refl _)
    (by omega)).1 m h
  exact ⟨by omega, hspec.2.2.1, fun i hi => hspec.2.2.2 i (Nat.zero_le _) hi⟩

theorem bitmapSeekUnset_none (h : bitmapSeekUnset mem dst limit = none) :
    ∀ i, i < limit → bitAt mem dst i = true := by
  have hspec := (seekUnsetLoop_spec mem dst limit 0 0 dst (by omega) (Nat.le_refl _)
    (by omega)).2 h
  exact fun i hi => hspec i (Nat.zero_le _) (by omega)

theorem wordsAre_iff (mem : Words) (v : BitVec 32) :
    ∀ n dst, wordsAre mem v n dst = true ↔ ∀ j, j < n → mem (dst + j) = v
  | 0, dst => by simp [wordsAre]
  | n + 1, dst => by
    rw [wordsAre, Bool.and_eq_true, beq_iff_eq, wordsAre_iff mem v n (dst + 1)]
    constructor
    · intro h j hj
      cases j with
      | zero => exact h.1
      | succ j =>
        have := h.2 j (by omega)
        rwa [show dst + (j + 1) = dst + 1 + j by omega]
    · intro h
      refine ⟨h 0 (by omega), fun j hj => ?_⟩
      have := h (j + 1) (by omega)
      rwa [show dst + (j + 1) = dst + 1 + j by omega] at this

theorem and_shr_eq_zero_iff (w : BitVec 32) {r : Nat} (h0 : 0 < r) (hr : r < 32) :
    w &&& shr (BitVec.allOnes 32) (BITS_PER_LONG - r) = 0#32 ↔
      ∀ j, j < r → w.getLsbD j = false := by
  have hcount : (BITS_PER_LONG - r) % BITS_PER_LONG = 32 - r := by
    unfold BITS_PER_LONG
    omega
  unfold shr
  rw [hcount]
  constructor
  · intro h j hj
    have hbit := congrArg (fun x => BitVec.getLsbD x j) h
    simp only [BitVec.getLsbD_and, BitVec.getLsbD_ushiftRight, BitVec.getLsbD_allOnes,
      BitVec.getLsbD_zero, show 32 - r + j < 32 by omega, decide_true, Bool.and_true] at hbit
    exact hbit
  · intro h
    apply BitVec.eq_of_getLsbD_eq
    intro j hj
    rw [BitVec.getLsbD_and, BitVec.getLsbD_ushiftRight, BitVec.getLsbD_allOnes,
      BitVec.getLsbD_zero]
    by_cases hjr : j < r
    · rw [h j hjr, Bool.false_and]
    · simp [show ¬ 32 - r + j < 32 by omega]

theorem bits_below_iff (P : Nat → Nat → Prop) (limit : Nat) :
    (∀ i, i < limit → P (i / BITS_PER_LONG) (i % BITS_PER_LONG)) ↔
      (∀ j, j < limit / BITS_PER_LONG → ∀ k, k < 32 → P j k) ∧
        ∀ k, k < limit % BITS_PER_LONG → P (limit / BITS_PER_LONG) k := by
  unfold BITS_PER_LONG
  constructor
  · intro h
    constructor
    · intro j hj k hk
      have := h (32 * j + k) (by omega)
      rwa [show (32 * j + k) / 32 = j by omega, show (32 * j + k) % 32 = k by omega] at this
    · intro k hk
      have := h (32 * (limit / 32) + k) (by omega)
      rwa [show (32 * (limit / 32) + k) / 32 = limit / 32 by omega,
        show (32 * (limit / 32) + k) % 32 = k by omega] at this
  · intro h i hi
    by_cases hw : i / 32 < limit / 32
    · exact h.1 _ hw _ (by omega)
    · have heq : i / 32 = limit / 32 := by omega
      rw [heq]
      exact h.2 _ (by omega)

theorem eq_allOnes_iff (w : BitVec 32) :
    w = BitVec.allOnes 32 ↔ ∀ k, k < 32 → w.getLsbD k = true := by
  constructor
  · intro h k hk
    rw [h, BitVec.getLsbD_allOnes, decide_eq_true hk]
  · intro h
    apply BitVec.eq_of_getLsbD_eq
    intro k hk
    rw [h k hk, BitVec.getLsbD_allOnes, decide_eq_true hk]

theorem eq_zero_iff (w : BitVec 32) : w = 0#32 ↔ ∀ k, k < 32 → w.getLsbD k = false := by
  constructor
  · intro h k _
    rw [h, BitVec.getLsbD_zero]
  · intro h
    apply BitVec.eq_of_getLsbD_eq
    intro k hk
    rw [h k hk, BitVec.getLsbD_zero]

theorem bitmapAllSet_iff (mem : Words) (dst limit : Nat) :
    bitmapAllSet mem dst limit = true ↔ ∀ i, i < limit → bitAt mem dst i = true := by
  unfold bitmapAllSet bitAt
  rw [bits_below_iff (fun j k => (mem (dst + j)).getLsbD k = true), Bool.and_eq_true,
    wordsAre_iff]
  simp only [eq_allOnes_iff]
  refine and_congr_right fun _ => ?_
  have hr := mod_bitsPerLong_lt limit
  by_cases hzero : limit % BITS_PER_LONG = 0
  · simp [hzero]
  · rw [if_pos hzero, beq_iff_eq, and_shr_eq_zero_iff _ (by omega) hr]
    refine forall_congr' fun k => imp_congr_right fun hk => ?_
    rw [BitVec.getLsbD_not, decide_eq_true (show k < 32 by omega), Bool.true_and,
      Bool.not_eq_false']

theorem bitmapAllUnset_iff (mem : Words) (dst limit : Nat) :
    bitmapAllUnset mem dst limit = true ↔ ∀ i, i < limit → bitAt mem dst i = false := by
  unfold bitmapAllUnset bitAt
  rw [bits_below_iff (fun j k => (mem (dst + j)).getLsbD k = false), Bool.and_eq_true,
    wordsAre_iff]
  simp only [eq_zero_iff]
  refine and_congr_right fun _ => ?_
  have hr := mod_bitsPerLong_lt limit
  by_cases hzero : limit % BITS_PER_LONG = 0
  · simp [hzero]
  · rw [if_pos hzero, beq_iff_eq, and_shr_eq_zero_iff _ (by omega) hr]

/-! ## Bitmaps that an operation does not touch -/

theorem seekSetLoop_eq (mem : Words) (n bit tmp dst : Nat) (htmp : tmp ≤ BITS_PER_LONG) :
    seekSetLoop mem n bit tmp dst = seekUnsetLoop (fun w => ~~~ mem w) n bit tmp dst := by
  induction n generalizing bit tmp dst with
  | zero => rfl
  | succ n ih =>
    have hlt : (if tmp = BITS_PER_LONG then 0 else tmp) < 32 := by
      unfold BITS_PER_LONG at htmp ⊢
      split <;> omega
    rw [seekSetLoop, seekUnsetLoop]
    rw [BitVec.getLsbD_not, decide_eq_true hlt, Bool.true_and, ih _ _ _ hlt]
    cases (mem (if tmp = BITS_PER_LONG then dst + 1 else dst)).getLsbD
      (if tmp = BITS_PER_LONG then 0 else tmp) <;> rfl

/-- `r` is the first number below `limit` that has the property, if there is one. -/
def FirstBelow (limit : Nat) (P : Nat → Prop) : Option Nat → Prop
  | some m => m < limit ∧ P m ∧ ∀ i, i < m → ¬ P i
  | none => ∀ i, i < limit → ¬ P i

theorem bitmapSeekUnset_first (mem : Words) (dst limit : Nat) :
    FirstBelow limit (fun i => bitAt mem dst i = false) (bitmapSeekUnset mem dst limit) := by
  cases h : bitmapSeekUnset mem dst limit with
  | none => simpa [FirstBelow] using bitmapSeekUnset_none h
  | some m => simpa [FirstBelow] using bitmapSeekUnset_some h

/-- The queries and updates of a bitmap are those of the set of its bits. -/
theorem bitmap_represents (mem : Words) (dst limit : Nat) :
    FirstBelow limit (fun i => bitAt mem dst i = true) (bitmapSeekSet mem dst limit) ∧
      FirstBelow limit (fun i => bitAt mem dst i = false) (bitmapSeekUnset mem dst limit) ∧
      (bitmapAllSet mem dst limit = true ↔ ∀ i, i < limit → bitAt mem dst i = true) ∧
      (bitmapAllUnset mem dst limit = true ↔ ∀ i, i < limit → bitAt mem dst i = false) ∧
      ∀ bit, (∀ i, bitAt (bitmapBitSet mem dst bit) dst i =
            (decide (i = bit) || bitAt mem dst i)) ∧
          (∀ i, bitAt (bitmapBitClear mem dst bit) dst i =
            (!decide (i = bit) && bitAt mem dst i)) ∧
          ∀ x, x ≠ dst + bit / BITS_PER_LONG →
            bitmapBitSet mem dst bit x = mem x ∧ bitmapBitClear mem dst bit x = mem x := by
  refine ⟨?_, bitmapSeekUnset_first mem dst limit, bitmapAllSet_iff mem dst limit,
    bitmapAllUnset_iff mem dst limit, fun bit => ⟨fun i => bitAt_bitmapBitSet mem dst bit i,
      fun i => bitAt_bitmapBitClear mem dst bit i, fun x hx =>
        ⟨bitmapBitSet_frame mem hx, bitmapBitClear_frame mem hx⟩⟩⟩
  have hbit : ∀ i, bitAt (fun w => ~~~ mem w) dst i = !bitAt mem dst i := by
    intro i
    unfold bitAt
    rw [BitVec.getLsbD_not, decide_eq_true (mod_bitsPerLong_lt i), Bool.true_and]
  have hfirst := bitmapSeekUnset_first (fun w => ~~~ mem w) dst limit
  simp only [hbit, Bool.not_eq_false'] at hfirst
  unfold bitmapSeekSet
  rwa [seekSetLoop_eq mem limit 0 0 dst (Nat.zero_le _)]

theorem bitAt_congr {mem' : Words}
    (h : ∀ x, dst ≤ x → x ≤ dst + (limit - 1) / BITS_PER_LONG → mem' x = mem x) (hi : i < limit) :
    bitAt mem' dst i = bitAt mem dst i := by
  unfold bitAt
  rw [h]
  · exact Nat.le_add_right _ _
  · exact Nat.add_le_add_left (Nat.div_le_div_right (by omega)) dst

end Koowaldah
