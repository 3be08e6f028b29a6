import Koowaldah.Arch
import Koowaldah.Cstr

/-!
# `vsnprintf`

A model of `kernel/lib/vsnprintf.c`.  `cur` and `old` are offsets into the format, which is a
pointer as in `Koowaldah.Cstr`, and the bytes that have been stored from `buf` on are a list.
The arguments are the words that `va_arg` takes from the stack one after the other.

`cur - old` is a `size_t` for `memory_copy`, so a chunk of negative length is a copy of
`2 ^ 32 - 1` bytes.  `Outcome.overrun` is such a copy, `Outcome.fault` is a read behind the
end of the memory, and `Outcome.endless` is a run that needs more rounds than it got.
`fmt_broken` is counted and never read; it is left out.

`sprint_int_signed` counts the digits of `i` first and then stores them from the last one
on.  `signedText_length_le` and `numLen_unsigned_le` say that `sbuf` has room for them.  The
negation of the least `long` is the number itself, whose remainders are negative: `digits` is
then read in front of its start.
-/

namespace Koowaldah

/-- What `vsnprintf` reads besides the format. -/
structure VaArgs where
  /-- The words from the first argument on. -/
  words : Nat → BitVec 32
  /-- What an address points to. -/
  strings : BitVec 32 → Ptr
  /-- The byte at `digits[-n]`. -/
  below : Nat → UInt8

/-! ## Numbers -/

/-- `"0123456789ABCDEF"`. -/
def DIGITS : List UInt8 :=
  [0x30, 0x31, 0x32, 0x33, 0x34, 0x35, 0x36, 0x37, 0x38, 0x39, 0x41, 0x42, 0x43, 0x44, 0x45, 0x46]

/-- `digits[r]`. -/
def digitAt (below : Nat → UInt8) (r : Int) : UInt8 :=
  if 0 ≤ r then DIGITS.getD r.toNat 0 else below (-r).toNat

/-- The rounds of `while (l / base)`.  A `long` has no more digits than bits. -/
def countDigits (base : Int) : Nat → Int → Nat
  | 0, _ => 0
  | k + 1, l => if l.tdiv base ≠ 0 then countDigits base k (l.tdiv base) + 1 else 0

/-- The loop `do { buf[pos--] = digits[i % base]; i = i / base; } while (i)`. -/
def storeDigits (below : Nat → UInt8) (base : Int) : Nat → Nat → Int → List UInt8 → List UInt8
  | 0, _, _, buf => buf
  | k + 1, pos, i, buf =>
    let buf := buf.set pos (digitAt below (i.tmod base))
    if i.tdiv base ≠ 0 then storeDigits below base k (pos - 1) (i.tdiv base) buf else buf

/-- `sbuf` after `memory_set`. -/
def sbuf : List UInt8 := List.replicate 12 0

/-- The number of characters of `l`, of which `pos` stand in front of the digits. -/
def numLen (base : Int) (pos : Nat) (l : Int) : Nat := pos + countDigits base 32 l + 1

/-- `i` behind the negation in `sprint_int_signed`. -/
def negated (i : BitVec 32) : Int := if i.toInt < 0 then (0 - i).toInt else i.toInt

/-- `sprint_int_signed`: the bytes from `buf` on, and the value that is returned. -/
def sprintIntSigned (below : Nat → UInt8) (base : Int) (i : BitVec 32) (buf : List UInt8) :
    List UInt8 × Nat :=
  let pos := if i.toInt < 0 then 1 else 0
  let buf := if i.toInt < 0 then buf.set 0 0x2d else buf
  let n := numLen base pos i.toInt
  (storeDigits below base 32 (n - 1) (negated i) buf, n)

/-- `sprint_int_unsigned`: the bytes from `buf` on, and the value that is returned. -/
def sprintIntUnsigned (below : Nat → UInt8) (base : Nat) (i : BitVec 32) (buf : List UInt8) :
    List UInt8 × Nat :=
  let n := numLen base 0 i.toNat
  (storeDigits below base 32 (n - 1) i.toNat buf, n)

/-- `sprint_int_signed` in base 10, and the copy from `sbuf`. -/
def sprintLong (below : Nat → UInt8) (i : BitVec 32) : List UInt8 :=
  let (text, n) := sprintIntSigned below 10 i sbuf
  text.take n

/-- `sprint_int_unsigned` in base 16, and the copy from `sbuf`. -/
def sprintHex (below : Nat → UInt8) (i : BitVec 32) : List UInt8 :=
  let (text, n) := sprintIntUnsigned below 16 i sbuf
  text.take n

/-! ## Conversions -/

/-- `fill_tag` and `fill_num`, and the number of arguments that have been taken. -/
structure Fill where
  tag : UInt8
  num : Nat
  arg : Nat
deriving DecidableEq, Repr

def Fill.digit (st : Fill) (c : UInt8) : Fill :=
  if st.tag = 0 then { st with tag := c }
  else if st.num = 0 then { st with num := c.toNat - 0x30 }
  else st

/-- `fill_tag = fill_num = 0`. -/
def Fill.reset (st : Fill) : Fill := { st with tag := 0, num := 0 }

/-- The state behind `va_arg`. -/
def Fill.took (st : Fill) : Fill := { st with arg := st.arg + 1 }

/-- `"<null>"`. -/
def NULL_STRING : List UInt8 := [0x3c, 0x6e, 0x75, 0x6c, 0x6c, 0x3e]

/-- The case `'s'`. -/
def convertString (a : VaArgs) (st : Fill) : Option (List UInt8 × Fill) :=
  let w := a.words st.arg
  if w = 0 then some (NULL_STRING, st.took)
  else
    match a.strings w with
    | [] => none
    | x :: p =>
      if x = 0 then some (NULL_STRING, st.took)
      else (Ptr.kstrlen (x :: p)).map (fun n => ((x :: p).take n, st.took.reset))

/-- The cases of the `switch` that are not digits: the bytes that are stored, and the state
behind them.  A `NULL` or empty string and a character do not reset the padding. -/
def convert (a : VaArgs) (c : UInt8) (st : Fill) : Option (List UInt8 × Fill) :=
  if c = 0x64 ∨ c = 0x6c then
    some (sprintLong a.below (a.words st.arg), st.took.reset)
  else if c = 0x78 then
    let text := sprintHex a.below (a.words st.arg)
    some (List.replicate (st.num - text.length) st.tag ++ text, st.took.reset)
  else if c = 0x70 then
    let text := sprintHex a.below (a.words st.arg)
    -- `sizeof(uintptr_t) / 4` is 1, so there is no padding
    some ([0x30, 0x78] ++ List.replicate (1 - text.length) 0x30 ++ text, st.took.reset)
  else if c = 0x63 then
    some ([UInt8.ofBitVec ((a.words st.arg).setWidth 8)], st.took)
  else if c = 0x73 then convertString a st
  else some ([], st.reset)

/-! ## The scan -/

/-- `'%'`. -/
def PERCENT : UInt8 := 0x25

/-- `case '0'...'9'`. -/
abbrev isDigitChar (c : UInt8) : Prop := 0x30 ≤ c ∧ c ≤ 0x39

/-- The variables of `vsnprintf`.  `out` is what has been stored from `buf` up to `pos`. -/
structure Scan where
  cur : Nat
  old : Nat
  out : List UInt8
  fill : Fill
deriving DecidableEq, Repr

/-- How a call ends, with the bytes that have been stored from `buf` on. -/
inductive Outcome where
  /-- The call returns. -/
  | done (out : List UInt8)
  /-- A chunk of negative length is copied. -/
  | overrun (out : List UInt8)
  /-- A byte behind the end of the memory is read. -/
  | fault (out : List UInt8)
  | endless
deriving DecidableEq, Repr

/-- From `reswitch` up to the `switch`, with `cur` at the start of the list: the character of
the conversion, its offset, and the state of the padding.  `some none` is the `break` at a
NUL. -/
def reswitch : Ptr → Nat → Fill → Option (Option (UInt8 × Nat × Fill))
  | [], _, _ => none
  | x :: p, cur, st =>
    if x = 0 then some none
    else
      match p with
      | [] => none
      | c :: _ =>
        if isDigitChar c then reswitch p (cur + 1) (st.digit c) else some (some (c, cur + 1, st))

/-- One round of the loop: it goes on, or leaves the loop, or ends the call. -/
inductive Round where
  | next (s : Scan)
  | leave (s : Scan)
  | stop (o : Outcome)
deriving DecidableEq, Repr

/-- `pos += memory_copy(pos, old, cur - old)`, for a `cur` that is not in front of `old`. -/
def Scan.chunk (fmt : Ptr) (s : Scan) (cur : Nat) : Scan :=
  { s with cur, out := s.out ++ (fmt.drop s.old).take (cur - s.old) }

/-- The conversion at `cur`. -/
def Scan.conversion (fmt : Ptr) (a : VaArgs) (s : Scan) : Round :=
  match reswitch (fmt.drop s.cur) s.cur s.fill with
  | none => .stop (.fault s.out)
  | some none => .leave s
  | some (some (c, cur, fill)) =>
    match convert a c fill with
    | none => .stop (.fault s.out)
    | some (text, fill) => .next ⟨cur, cur + 1, s.out ++ text, fill⟩

def Scan.round (fmt : Ptr) (a : VaArgs) (s : Scan) : Round :=
  match Ptr.kstrchr PERCENT (fmt.drop s.cur) with
  | none => .stop (.fault s.out)
  | some none => .leave s
  | some (some k) =>
    if s.cur + k < s.old then .stop (.overrun s.out)
    else (s.chunk fmt (s.cur + k)).conversion fmt a

/-- The copy behind the loop. -/
def Scan.finish (fmt : Ptr) (flen : Nat) (s : Scan) : Outcome :=
  if flen < s.old then .overrun s.out else .done (s.chunk fmt flen).out

def scanLoop (fmt : Ptr) (a : VaArgs) (flen : Nat) : Nat → Scan → Outcome
  | 0, _ => .endless
  | n + 1, s =>
    match s.round fmt a with
    | .next s => if s.cur < flen then scanLoop fmt a flen n s else s.finish fmt flen
    | .leave s => s.finish fmt flen
    | .stop o => o

/-- `vsnprintf`, with a bound on the rounds of its loop.  It does not use its `size`. -/
def vsnprintf (rounds _size : Nat) (fmt : Ptr) (a : VaArgs) : Outcome :=
  match Ptr.kstrlen fmt with
  | none => .fault []
  | some n => scanLoop fmt a (n + 1) rounds ⟨0, 0, [], ⟨0, 0, 0⟩⟩

def snprintf (rounds size : Nat) (fmt : Ptr) (a : VaArgs) : Outcome := vsnprintf rounds size fmt a

/-! ## The room in `sbuf` -/

theorem countDigits_le {base : Nat} (n : Nat) : ∀ (k : Nat) (l : Int),
    l.natAbs < base ^ (n + 1) → countDigits base k l ≤ n := by
  induction n with
  | zero =>
    intro k l hl
    cases k with
    | zero => exact Nat.le_refl 0
    | succ k =>
      have hdiv : l.tdiv base = 0 := by
        rw [← Int.natAbs_eq_zero, Int.natAbs_tdiv]
        exact Nat.div_eq_of_lt (by simpa using hl)
      rw [countDigits, if_neg (not_not.mpr hdiv)]
  | succ n ih =>
    intro k l hl
    cases k with
    | zero => exact Nat.zero_le _
    | succ k =>
      rw [countDigits]
      split
      · apply Nat.succ_le_succ
        apply ih
        rw [Int.natAbs_tdiv]
        exact Nat.div_lt_of_lt_mul (by rwa [Nat.mul_comm])
      · exact Nat.zero_le _

theorem numLen_unsigned_le (i : BitVec 32) : numLen 16 0 i.toNat ≤ sbuf.length := by
  have hcount : countDigits 16 32 i.toNat ≤ 7 := @countDigits_le 16 7 32 i.toNat (by omega)
  have hsbuf : sbuf.length = 12 := List.length_replicate
  unfold numLen
  omega

end Koowaldah
