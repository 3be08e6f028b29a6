import Koowaldah.Arch
import Koowaldah.Cstr

/-!
# Numbers from strings

`strtoul` of `kernel/lib/klib.c`, over a string in memory.  The characters are classified by
the macros of `include/lib.h`, of which `islower` holds for `'a'` only.

`cStrtoul` is what the C library has for base 0: white space, a sign, a base that the text
itself gives, the longest run of digits, and a value that is saturated before the sign is
applied.

* `strtoul_mem` is the value for every string: that of `cStrtoul`, but with the run of digits
  cut off at the first of `'b'` to `'f'`.
* `strtoul_eq_cStrtoul_iff` says for which strings this makes no difference.
-/

namespace Koowaldah

variable {c : Int} {x : UInt8} {base : Nat} {s : Ptr} {str r : List UInt8}

def ULONG_MAX : Nat := 0xffffffff

abbrev isdigit (c : Int) : Prop := 0x30 ≤ c ∧ c ≤ 0x39

abbrev isupper (c : Int) : Prop := 0x41 ≤ c ∧ c ≤ 0x5a

/-- `islower`, with the bounds of the macro. -/
abbrev islower (c : Int) : Prop := 0x61 ≤ c ∧ c ≤ 0x61

abbrev isalpha (c : Int) : Prop := isupper c ∨ islower c

abbrev isspace (c : Int) : Prop := c = 0x20 ∨ c = 0x09 ∨ c = 0x0a ∨ c = 0x0d

/-- A `char` as an `int`.  The kernel is built with `-funsigned-char`, so the casts to
`unsigned char` change nothing. -/
def uchar (x : UInt8) : Int := x.toNat

namespace Ptr

/-- The first loop of `strtoul`: `c`, and `s` behind it. -/
def strtoulSpaces : Ptr → Option (Int × Ptr)
  | [] => none
  | x :: s => if isspace (uchar x) then strtoulSpaces s else some (uchar x, s)

/-- `c = *s++`. -/
def strtoulNext : Ptr → Option (Int × Ptr)
  | [] => none
  | x :: s => some (uchar x, s)

/-- The sign: `neg`, and `c` and `s` behind it. -/
def strtoulSign (c : Int) (s : Ptr) : Option (Bool × Int × Ptr) :=
  if c = 0x2d then (strtoulNext s).map (fun r => (true, r))
  else if c = 0x2b then (strtoulNext s).map (fun r => (false, r))
  else some (false, c, s)

/-- The base, and `c` and `s` behind a `0x`. -/
def strtoulBase (c : Int) (s : Ptr) : Option (Nat × Int × Ptr) :=
  if c = 0x30 then
    match s with
    | [] => none
    | x :: s' =>
      if x = 0x78 ∨ x = 0x58 then (strtoulNext s').map (fun r => (16, r))
      else some (8, c, s)
  else some (10, c, s)

/-- The value of the digit `c`, and `none` for a `break`. -/
def strtoulDigit (base : Nat) (c : Int) : Option Nat :=
  if isdigit c then (if c - 0x30 ≥ base then none else some (c - 0x30).toNat)
  else if isalpha c then
    let c' := c - if isupper c then 0x41 - 10 else 0x61 - 10
    if c' ≥ base then none else some c'.toNat
  else none

/-- One round of the loop on `acc` and `any`. -/
def strtoulStep (base : Nat) (st : Nat × Int) (c : Nat) : Nat × Int :=
  let cutoff := ULONG_MAX / base
  let cutlim := ULONG_MAX % base
  if st.2 < 0 then st
  else if st.1 > cutoff ∨ (st.1 = cutoff ∧ c > cutlim) then (ULONG_MAX, -1)
  else ((st.1 * base % WORD_RANGE + c) % WORD_RANGE, 1)

def strtoulLoop (base : Nat) : Int → Ptr → Nat × Int → Option (Nat × Int)
  | c, s, st =>
    match strtoulDigit base c with
    | none => some st
    | some d =>
      match s with
      | [] => none
      | x :: s' => strtoulLoop base (uchar x) s' (strtoulStep base st d)
termination_by structural _ s => s

/-- The end of `strtoul`. -/
def strtoulResult (neg : Bool) (st : Nat × Int) : Nat :=
  if neg ∧ st.2 > 0 then (WORD_RANGE - st.1) % WORD_RANGE else st.1

def strtoul (nptr : Ptr) : Option Nat := do
  let (c, s) ← strtoulSpaces nptr
  let (neg, c, s) ← strtoulSign c s
  let (base, c, s) ← strtoulBase c s
  let st ← strtoulLoop base c s (0, 0)
  some (strtoulResult neg st)

end Ptr

/-! ## The C library -/

/-- The value of a digit in any base, and 36 for what is none. -/
def digitVal (x : UInt8) : Nat :=
  if 0x30 ≤ x ∧ x ≤ 0x39 then x.toNat - 0x30
  else if 0x41 ≤ x ∧ x ≤ 0x5a then x.toNat - 0x41 + 10
  else if 0x61 ≤ x ∧ x ≤ 0x7a then x.toNat - 0x61 + 10
  else 36

/-- A text in the syntax of an integer constant: the sign, the base and what follows. -/
structure IntText where
  neg : Bool
  base : Nat
  text : List UInt8

def splitSign : List UInt8 → Bool × List UInt8
  | [] => (false, [])
  | x :: s => if x = 0x2d then (true, s) else if x = 0x2b then (false, s) else (false, x :: s)

/-- The base that a text asks for. -/
def splitBase : List UInt8 → Nat × List UInt8
  | [] => (10, [])
  | x :: s =>
    if x = 0x30 then
      match s with
      | [] => (8, x :: s)
      | y :: s' => if y = 0x78 ∨ y = 0x58 then (16, s') else (8, x :: s)
    else (10, x :: s)

def intText (str : List UInt8) : IntText :=
  let (neg, str) := splitSign (str.dropWhile (fun x => isspace (uchar x)))
  let (base, str) := splitBase str
  ⟨neg, base, str⟩

def IntText.run (t : IntText) : List UInt8 := t.text.takeWhile (fun x => digitVal x < t.base)

def digitsVal (base : Nat) (ds : List UInt8) : Nat :=
  ds.foldl (fun v x => v * base + digitVal x) 0

/-- The value on 32 bits: saturated, and otherwise with the sign. -/
def clamp (neg : Bool) (v : Nat) : Nat :=
  if ULONG_MAX < v then ULONG_MAX
  else if neg then (WORD_RANGE - v) % WORD_RANGE else v

/-- `strtoul(str, NULL, 0)` of the C library. -/
def cStrtoul (str : List UInt8) : Nat :=
  let t := intText str
  clamp t.neg (digitsVal t.base t.run)

/-- The digits that `islower` does not know. -/
abbrev hexLower (x : UInt8) : Prop := 0x62 ≤ x ∧ x ≤ 0x66

/-- The digits in front of the first of `'b'` to `'f'`. -/
def IntText.cut (t : IntText) : List UInt8 := t.run.takeWhile (fun x => ¬ hexLower x)

/-! ## Characters as numbers -/

theorem uchar_eq_iff {y : UInt8} : uchar x = y.toNat ↔ x = y := by
  unfold uchar
  rw [Nat.cast_inj, UInt8.toNat_inj]

/-- Of the digits, those in hexadecimal that are lower case are not known. -/
theorem strtoulDigit_uchar (hbase : base ≤ 16) (x : UInt8) : Ptr.strtoulDigit base (uchar x) =
      if digitVal x < base ∧ ¬ hexLower x then some (digitVal x) else none := by
  unfold Ptr.strtoulDigit digitVal hexLower isdigit isalpha isupper islower uchar
  simp only [UInt8.le_iff_toNat_le, UInt8.reduceToNat]
  split_ifs <;> first | rfl | omega | (congr 1; omega)

/-! ## The steps of the scan -/

/-- `c` is the first byte of `m`, and `s` is behind it. -/
def At (c : Int) (s m : Ptr) : Prop := ∃ x, m = x :: s ∧ c = uchar x

theorem strtoulSpaces_append (str r : List UInt8) :
    ∃ c s, Ptr.strtoulSpaces (str ++ 0 :: r) = some (c, s) ∧
      At c s (str.dropWhile (fun x => isspace (uchar x)) ++ 0 :: r) := by
  induction str with
  | nil => exact ⟨uchar 0, r, rfl, 0, rfl, rfl⟩
  | cons x str ih =>
    rw [List.cons_append, Ptr.strtoulSpaces, List.dropWhile_cons]
    by_cases hspace : isspace (uchar x)
    · rw [if_pos hspace, if_pos (decide_eq_true hspace)]
      exact ih
    · rw [if_neg hspace, if_neg (by simpa using hspace)]
      exact ⟨uchar x, str ++ 0 :: r, rfl, x, rfl, rfl⟩

theorem append_nul_eq_cons (str r : List UInt8) : ∃ x s, str ++ 0 :: r = x :: s := by
  cases str with
  | nil => exact ⟨0, r, rfl⟩
  | cons x str => exact ⟨x, str ++ 0 :: r, rfl⟩

theorem strtoulNext_append (str r : List UInt8) :
    ∃ c s, Ptr.strtoulNext (str ++ 0 :: r) = some (c, s) ∧ At c s (str ++ 0 :: r) := by
  obtain ⟨x, s, hmem⟩ := append_nul_eq_cons str r
  rw [hmem]
  exact ⟨uchar x, s, rfl, x, rfl, rfl⟩

theorem strtoulSign_of_at (h : At c s (str ++ 0 :: r)) :
    ∃ c' s', Ptr.strtoulSign c s = some ((splitSign str).1, c', s') ∧
      At c' s' ((splitSign str).2 ++ 0 :: r) := by
  obtain ⟨x, hmem, hc⟩ := h
  have hminus : c = 0x2d ↔ x = 0x2d := hc ▸ uchar_eq_iff (y := 0x2d)
  have hplus : c = 0x2b ↔ x = 0x2b := hc ▸ uchar_eq_iff (y := 0x2b)
  unfold Ptr.strtoulSign
  cases str with
  | nil =>
    obtain ⟨rfl, rfl⟩ := List.cons.inj hmem
    rw [if_neg (fun hc => absurd (hminus.mp hc) (by decide)),
      if_neg (fun hc => absurd (hplus.mp hc) (by decide))]
    exact ⟨c, r, rfl, 0, rfl, hc⟩
  | cons y str =>
    obtain ⟨rfl, rfl⟩ := List.cons.inj hmem
    obtain ⟨c', s', hnext, hat⟩ := strtoulNext_append str r
    rw [splitSign]
    by_cases hm : y = 0x2d
    · rw [if_pos (hminus.mpr hm), if_pos hm]
      change ∃ _ _, (Ptr.strtoulNext (str ++ 0 :: r)).map _ = _ ∧ _
      rw [hnext]
      exact ⟨c', s', rfl, hat⟩
    · rw [if_neg (mt hminus.mp hm), if_neg hm]
      by_cases hp : y = 0x2b
      · rw [if_pos (hplus.mpr hp), if_pos hp]
        change ∃ _ _, (Ptr.strtoulNext (str ++ 0 :: r)).map _ = _ ∧ _
        rw [hnext]
        exact ⟨c', s', rfl, hat⟩
      · rw [if_neg (mt hplus.mp hp), if_neg hp]
        exact ⟨c, str ++ 0 :: r, rfl, y, rfl, hc⟩

theorem strtoulBase_of_at (h : At c s (str ++ 0 :: r)) :
    ∃ c' s', Ptr.strtoulBase c s = some ((splitBase str).1, c', s') ∧
      At c' s' ((splitBase str).2 ++ 0 :: r) := by
  have hat := h
  obtain ⟨x, hmem, hc⟩ := h
  have hzero : c = 0x30 ↔ x = 0x30 := hc ▸ uchar_eq_iff (y := 0x30)
  unfold Ptr.strtoulBase
  cases str with
  | nil =>
    obtain ⟨rfl, rfl⟩ := List.cons.inj hmem
    rw [if_neg (fun hc => absurd (hzero.mp hc) (by decide))]
    exact ⟨c, _, rfl, hat⟩
  | cons y str =>
    obtain ⟨rfl, rfl⟩ := List.cons.inj hmem
    unfold splitBase
    dsimp only
    by_cases hz : y = 0x30
    · rw [if_pos (hzero.mpr hz), if_pos hz]
      cases str with
      | nil => exact ⟨c, _, rfl, hat⟩
      | cons z str =>
        obtain ⟨c', s', hnext, hat'⟩ := strtoulNext_append str r
        change ∃ c' s', (if z = 0x78 ∨ z = 0x58 then
          (Ptr.strtoulNext (str ++ 0 :: r)).map (fun p => (16, p)) else _) = _ ∧ _
        dsimp only
        split
        · rw [hnext]
          exact ⟨c', s', rfl, hat'⟩
        · exact ⟨c, _, rfl, hat⟩
    · rw [if_neg (mt hzero.mp hz), if_neg hz]
      exact ⟨c, _, rfl, hat⟩

/-- The digits that the loop takes. -/
def knownDigits (base : Nat) (str : List UInt8) : List UInt8 :=
  str.takeWhile (fun x => digitVal x < base ∧ ¬ hexLower x)

theorem strtoulLoop_append (hbase : base ≤ 16) (h : At c s (str ++ 0 :: r)) (st : Nat × Int) :
    Ptr.strtoulLoop base c s st =
      some (((knownDigits base str).map digitVal).foldl (Ptr.strtoulStep base) st) := by
  induction str generalizing c s st with
  | nil =>
    obtain ⟨x, hmem, hc⟩ := h
    obtain ⟨rfl, rfl⟩ := List.cons.inj hmem
    have hnul : ¬ (digitVal 0 < base ∧ ¬ hexLower 0) := by
      intro h
      have hval : digitVal 0 = 36 := by decide
      omega
    unfold Ptr.strtoulLoop
    rw [hc, strtoulDigit_uchar hbase, if_neg hnul]
    rfl
  | cons y str ih =>
    obtain ⟨x, hmem, hc⟩ := h
    obtain ⟨rfl, rfl⟩ := List.cons.inj hmem
    unfold Ptr.strtoulLoop knownDigits
    rw [hc, strtoulDigit_uchar hbase, List.takeWhile_cons]
    by_cases hdigit : digitVal y < base ∧ ¬ hexLower y
    · rw [if_pos hdigit, if_pos (decide_eq_true hdigit)]
      obtain ⟨x, s, hs⟩ := append_nul_eq_cons str r
      change (match str ++ 0 :: r with
        | [] => none
        | x :: s => Ptr.strtoulLoop base (uchar x) s (Ptr.strtoulStep base st (digitVal y))) = _
      rw [hs]
      exact ih ⟨x, hs, rfl⟩ _
    · rw [if_neg hdigit, if_neg (by simpa using hdigit)]
      rfl

/-! ## The value -/

/-- `acc` and `any` after a run of digits with the value `v`. -/
def accOf (v : Nat) : Nat × Int := if ULONG_MAX < v then (ULONG_MAX, -1) else (v, 1)

section

variable (hbase : base = 8 ∨ base = 10 ∨ base = 16)

include hbase

/-- The test against `cutoff` and `cutlim` is that for a value that is too large. -/
theorem strtoulStep_accOf {d : Nat} (hd : d < base)
    (v : Nat) : Ptr.strtoulStep base (accOf v) d = accOf (v * base + d) := by
  unfold Ptr.strtoulStep accOf
  by_cases hv : ULONG_MAX < v
  · have hlarge : ULONG_MAX < v * base + d := by
      have hle : v ≤ v * base := Nat.le_mul_of_pos_right v (by omega)
      omega
    rw [if_pos hv, if_pos hlarge]
    rfl
  · rw [if_neg hv]
    show (if v > ULONG_MAX / base ∨ (v = ULONG_MAX / base ∧ d > ULONG_MAX % base) then _ else _) = _
    have htest : (v > ULONG_MAX / base ∨ (v = ULONG_MAX / base ∧ d > ULONG_MAX % base)) ↔
        ULONG_MAX < v * base + d := by
      unfold ULONG_MAX
      obtain rfl | rfl | rfl := hbase <;> omega
    by_cases hlarge : ULONG_MAX < v * base + d
    · rw [if_pos (htest.mpr hlarge), if_pos hlarge]
    · have hsmall : v * base + d < WORD_RANGE := by
        unfold ULONG_MAX at hlarge
        unfold WORD_RANGE
        omega
      have hmul : v * base < WORD_RANGE := by omega
      rw [if_neg (mt htest.mp hlarge), if_neg hlarge]
      show ((v * base % WORD_RANGE + d) % WORD_RANGE, (1 : Int)) = _
      rw [Nat.mod_eq_of_lt hmul, Nat.mod_eq_of_lt hsmall]

theorem strtoulStep_zero {d : Nat} (hd : d < base) : Ptr.strtoulStep base (0, 0) d = accOf d := by
  have hstep := strtoulStep_accOf hbase hd 0
  rw [Nat.zero_mul, Nat.zero_add] at hstep
  exact hstep

theorem foldl_strtoulStep {ds : List UInt8} (hds : ∀ x ∈ ds, digitVal x < base) (v : Nat) :
    (ds.map digitVal).foldl (Ptr.strtoulStep base) (accOf v) =
      accOf (ds.foldl (fun v x => v * base + digitVal x) v) := by
  induction ds generalizing v with
  | nil => rfl
  | cons x ds ih =>
    rw [List.map_cons, List.foldl_cons, strtoulStep_accOf hbase (hds x List.mem_cons_self),
      ih (fun y hy => hds y (List.mem_cons_of_mem x hy)), List.foldl_cons]

end

theorem strtoulResult_accOf (neg : Bool) (v : Nat) :
    Ptr.strtoulResult neg (accOf v) = clamp neg v := by
  unfold accOf clamp Ptr.strtoulResult
  by_cases hv : ULONG_MAX < v
  · rw [if_pos hv, if_pos hv, if_neg (fun h => absurd h.2 (by decide))]
  · rw [if_neg hv, if_neg hv]
    cases neg <;> rfl

theorem strtoulResult_digits (hbase : base = 8 ∨ base = 10 ∨ base = 16) {ds : List UInt8}
    (hds : ∀ x ∈ ds, digitVal x < base) (neg : Bool) :
    Ptr.strtoulResult neg ((ds.map digitVal).foldl (Ptr.strtoulStep base) (0, 0)) =
      clamp neg (digitsVal base ds) := by
  unfold digitsVal
  cases ds with
  | nil =>
    show Ptr.strtoulResult neg (0, 0) = clamp neg 0
    cases neg <;> decide
  | cons x ds =>
    rw [List.map_cons, List.foldl_cons, strtoulStep_zero hbase (hds x List.mem_cons_self),
      foldl_strtoulStep hbase (fun y hy => hds y (List.mem_cons_of_mem x hy)),
      strtoulResult_accOf, List.foldl_cons, Nat.zero_mul, Nat.zero_add]

theorem splitBase_base (str : List UInt8) :
    (splitBase str).1 = 8 ∨ (splitBase str).1 = 10 ∨ (splitBase str).1 = 16 := by
  unfold splitBase
  split
  · simp
  · split
    · split
      · simp
      · split <;> simp
    · simp

theorem intText_base (str : List UInt8) :
    (intText str).base = 8 ∨ (intText str).base = 10 ∨ (intText str).base = 16 :=
  splitBase_base _

theorem knownDigits_eq_cut (t : IntText) : knownDigits t.base t.text = t.cut := by
  unfold knownDigits IntText.cut IntText.run
  rw [List.takeWhile_takeWhile]
  congr 1
  funext x
  simp only [decide_eq_true_eq, and_comm]

theorem IntText.cut_lt {t : IntText} : ∀ x ∈ t.cut, digitVal x < t.base := by
  intro x hx
  have hrun : x ∈ t.run := (List.takeWhile_prefix _).subset hx
  simpa using List.mem_takeWhile_imp hrun

theorem strtoul_mem (s : CStr) : Ptr.strtoul s.mem =
      some (clamp (intText s.chars).neg
        (digitsVal (intText s.chars).base (intText s.chars).cut)) := by
  have hbase := intText_base s.chars
  obtain ⟨c₁, s₁, hspaces, hat₁⟩ := strtoulSpaces_append s.chars s.tail
  obtain ⟨c₂, s₂, hsign, hat₂⟩ := strtoulSign_of_at hat₁
  obtain ⟨c₃, s₃, hsplit, hat₃⟩ := strtoulBase_of_at hat₂
  have hle : (intText s.chars).base ≤ 16 := by omega
  have hloop := strtoulLoop_append hle hat₃ (0, 0)
  unfold Ptr.strtoul CStr.mem
  rw [hspaces]
  show (Ptr.strtoulSign c₁ s₁).bind _ = _
  rw [hsign]
  show (Ptr.strtoulBase c₂ s₂).bind _ = _
  rw [hsplit]
  show (Ptr.strtoulLoop (intText s.chars).base c₃ s₃ (0, 0)).bind _ = _
  rw [hloop]
  show some (Ptr.strtoulResult (intText s.chars).neg
    (((knownDigits (intText s.chars).base (intText s.chars).text).map digitVal).foldl
      (Ptr.strtoulStep (intText s.chars).base) (0, 0))) = _
  rw [knownDigits_eq_cut, strtoulResult_digits hbase IntText.cut_lt]

/-! ## The difference -/

theorem digitsVal_append (base : Nat) (ds es : List UInt8) :
    digitsVal base (ds ++ es) = es.foldl (fun v x => v * base + digitVal x) (digitsVal base ds) :=
  List.foldl_append ..

theorem le_foldl_digits (hbase : 0 < base) (v : Nat) (ds : List UInt8) :
    v ≤ ds.foldl (fun v x => v * base + digitVal x) v := by
  induction ds generalizing v with
  | nil => exact Nat.le_refl v
  | cons x ds ih =>
    have hle : v ≤ v * base := Nat.le_mul_of_pos_right v hbase
    exact Nat.le_trans (by omega) (ih (v * base + digitVal x))

theorem digitVal_pos_of_hexLower (h : hexLower x) : 0 < digitVal x := by
  unfold hexLower at h
  unfold digitVal
  simp only [UInt8.le_iff_toNat_le, UInt8.reduceToNat] at h ⊢
  split_ifs <;> omega

theorem IntText.digitsVal_cut_lt {t : IntText} (hbase : 0 < t.base) (hne : t.cut ≠ t.run) :
    digitsVal t.base t.cut < digitsVal t.base t.run := by
  have hrun : t.cut ++ t.run.dropWhile (fun x => ¬ hexLower x) = t.run :=
    List.takeWhile_append_dropWhile
  cases hdrop : t.run.dropWhile (fun x => ¬ hexLower x) with
  | nil =>
    rw [hdrop, List.append_nil] at hrun
    exact absurd hrun hne
  | cons x rest =>
    have hlower : hexLower x := by
      have hhead := List.head?_dropWhile_not (fun x => decide (¬ hexLower x)) t.run
      rw [hdrop] at hhead
      simpa using hhead
    rw [hdrop] at hrun
    have hval' := congrArg (digitsVal t.base) hrun
    rw [digitsVal_append, List.foldl_cons] at hval'
    have hle := le_foldl_digits hbase (digitsVal t.base t.cut * t.base + digitVal x) rest
    have hpos := digitVal_pos_of_hexLower hlower
    have hmul : digitsVal t.base t.cut ≤ digitsVal t.base t.cut * t.base :=
      Nat.le_mul_of_pos_right _ hbase
    omega

theorem clamp_eq_iff {neg : Bool} {v w : Nat} (hlt : v < w) : clamp neg v = clamp neg w ↔
      ULONG_MAX < v ∨ (neg = false ∧ v = ULONG_MAX) ∨ (neg = true ∧ v = 1 ∧ ULONG_MAX < w) := by
  unfold clamp ULONG_MAX WORD_RANGE
  cases neg with
  | false =>
    simp only [Bool.false_eq_true, if_false, true_and, false_and, or_false]
    split_ifs <;> omega
  | true =>
    simp only [reduceCtorEq, true_and, false_and, false_or]
    split_ifs <;> omega

/-- `strtoul` is that of the C library, unless a run of hexadecimal digits has one of `'b'` to
`'f'` in it and the digits in front of the first of these give another value on 32 bits. -/
theorem strtoul_eq_cStrtoul_iff (s : CStr) :
    Ptr.strtoul s.mem = some (cStrtoul s.chars) ↔
      (∀ x ∈ (intText s.chars).run, ¬ hexLower x) ∨
        let v := digitsVal (intText s.chars).base (intText s.chars).cut
        let w := digitsVal (intText s.chars).base (intText s.chars).run
        ULONG_MAX < v ∨ ((intText s.chars).neg = false ∧ v = ULONG_MAX) ∨
          ((intText s.chars).neg = true ∧ v = 1 ∧ ULONG_MAX < w) := by
  have hbase := intText_base s.chars
  have hcut : (intText s.chars).cut = (intText s.chars).run ↔
      ∀ x ∈ (intText s.chars).run, ¬ hexLower x := by
    unfold IntText.cut
    rw [List.takeWhile_eq_self_iff]
    simp only [decide_eq_true_eq]
  rw [strtoul_mem, cStrtoul, Option.some.injEq, ← hcut]
  by_cases heq : (intText s.chars).cut = (intText s.chars).run
  · rw [heq]
    exact iff_of_true rfl (Or.inl rfl)
  · rw [clamp_eq_iff (IntText.digitsVal_cut_lt (by omega) heq), or_iff_right heq]

/-- `"0xb"` is 0, and 11 for the C library. -/
theorem strtoul_hex_lower : Ptr.strtoul (CStr.mem ⟨[0x30, 0x78, 0x62], by decide, []⟩) = some 0 ∧
      cStrtoul [0x30, 0x78, 0x62] = 11 := by
  constructor <;> decide

end Koowaldah
