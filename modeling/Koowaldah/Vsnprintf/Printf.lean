import Koowaldah.Fs.Readdir
import Koowaldah.Vsnprintf.Scan

/-!
# What a format prints

`cPrinted` is what the pieces of a format stand for: a number in decimal, or in hexadecimal with
capital letters, a character or a string, and for `%0wx` the zeros up to the width `w`.
`vsnprintf_eq_cPrinted` says that `vsnprintf` prints that, if no number in decimal is the least
one and no string is empty.
-/

namespace Koowaldah

/-- The text that a conversion stands for, of argument `n`.  The hexadecimal digits are capital
letters, and `%l` is a decimal number. -/
def cConv (a : VaArgs) (ds : List UInt8) (c : UInt8) (n : Nat) : List UInt8 :=
  if c = 0x64 ∨ c = 0x6c then signedText (a.words n).toInt
  else if c = 0x78 then
    let text := numText 16 (a.words n).toNat
    List.replicate ((ds.getD 1 0x30).toNat - 0x30 - text.length) 0x30 ++ text
  else if c = 0x70 then [0x30, 0x78] ++ numText 16 (a.words n).toNat
  else if c = 0x63 then [UInt8.ofBitVec ((a.words n).setWidth 8)]
  else Ptr.text (a.strings (a.words n))

/-- The text that the pieces stand for, from argument `n` on. -/
def cPrinted (a : VaArgs) : List Piece → Nat → List UInt8
  | [], _ => []
  | .lit c :: ps, n => c :: cPrinted a ps n
  | .conv ds c :: ps, n => cConv a ds c n ++ cPrinted a ps (n + 1)

/-- A conversion and its argument that `vsnprintf` prints as they stand. -/
structure ConvOk (a : VaArgs) (ds : List UInt8) (c : UInt8) (n : Nat) : Prop where
  known : takesArg c
  digits : ds = [] ∨ c = 0x78 ∧ ∃ w, ds = [0x30, w]
  decimal : c = 0x64 ∨ c = 0x6c → a.words n ≠ BitVec.intMin 32
  string : c = 0x73 → a.words n ≠ 0 ∧ 0 ∈ a.strings (a.words n) ∧
    (a.strings (a.words n)).head? ≠ some 0

def PrintfOk (a : VaArgs) : List Piece → Nat → Prop
  | [], _ => True
  | .lit _ :: ps, n => PrintfOk a ps n
  | .conv ds c :: ps, n => ConvOk a ds c n ∧ PrintfOk a ps (n + 1)

section Texts

variable (below : Nat → UInt8) {i : BitVec 32}

theorem sprintLong_eq (hi : i ≠ BitVec.intMin 32) : sprintLong below i = signedText i.toInt := by
  have hlt : i.toInt.natAbs < 2 ^ 32 := by
    have hlo := i.le_toInt
    have hhi := @BitVec.toInt_lt 32 i
    omega
  have hroom : (signedText i.toInt).length ≤ sbuf.length := signedText_length_le hlt
  unfold sprintLong
  rw [sprintIntSigned_eq below hi hroom]
  exact List.take_left

theorem sprintHex_eq (i : BitVec 32) :
    sprintHex below i = numText 16 i.toNat ∧ 1 ≤ (numText 16 i.toNat).length := by
  have hlen : numLen 16 0 i.toNat = 0 + (numText 16 i.toNat).length :=
    numLen_eq (show 2 ≤ 16 by decide) 0 i.isLt
  have hroom := numLen_unsigned_le i
  refine ⟨?_, by unfold numLen at hlen; omega⟩
  unfold sprintHex
  rw [sprintIntUnsigned_eq below (by decide) i (by omega)]
  exact List.take_left

end Texts

variable {a : VaArgs}

theorem convertString_eq {n : Nat} (hword : a.words n ≠ 0) (hnul : 0 ∈ a.strings (a.words n))
    (hhead : (a.strings (a.words n)).head? ≠ some 0) :
    convertString a ⟨0, 0, n⟩ = some (Ptr.text (a.strings (a.words n)), ⟨0, 0, n + 1⟩) := by
  unfold convertString
  dsimp only
  rw [if_neg hword]
  cases hstr : a.strings (a.words n) with
  | nil =>
    rw [hstr] at hnul
    cases hnul
  | cons x p =>
    rw [hstr] at hnul hhead
    have hx : x ≠ 0 := fun hx => hhead (congrArg some hx)
    have hp : 0 ∈ p := (List.mem_cons.mp hnul).resolve_left (Ne.symm hx)
    obtain ⟨r, hsplit, -⟩ := Ptr.eq_text_append hp
    have htext : Ptr.text (x :: p) = x :: Ptr.text p := List.takeWhile_cons_of_pos (by simpa)
    dsimp only
    rw [if_neg hx, Ptr.kstrlen, Ptr.kstrlenLoop_eq_text hp, htext]
    simp only [Option.map_some, List.take_succ_cons]
    nth_rewrite 2 [hsplit]
    rw [List.take_left]
    rfl

theorem ConvOk.convert_eq {ds : List UInt8} {c : UInt8} {n : Nat} (h : ConvOk a ds c n) :
    convert a c (ds.foldl Fill.digit ⟨0, 0, n⟩) = some (cConv a ds c n, ⟨0, 0, n + 1⟩) := by
  obtain ⟨hhex, hpos⟩ := sprintHex_eq a.below (a.words n)
  by_cases hx : c = 0x78
  · subst hx
    rcases h.digits with rfl | ⟨-, w, rfl⟩
    · simp [convert, cConv, hhex, Fill.took, Fill.reset]
    · simp [convert, cConv, hhex, Fill.took, Fill.reset, Fill.digit]
  · obtain rfl := h.digits.resolve_right (fun hw => hx hw.1)
    rcases h.known with rfl | rfl | rfl | rfl | rfl | rfl
    · exact congrArg (fun t => some (t, _)) (sprintLong_eq _ (h.decimal (by decide)))
    · exact congrArg (fun t => some (t, _)) (sprintLong_eq _ (h.decimal (by decide)))
    · exact absurd rfl hx
    · have hnone : 1 - (numText 16 (a.words n).toNat).length = 0 := by omega
      simp [convert, cConv, hhex, hnone, Fill.took, Fill.reset]
    · rfl
    · obtain ⟨hword, hnul, hhead⟩ := h.string rfl
      exact convertString_eq hword hnul hhead

theorem render_eq_cPrinted {ps : List Piece} {n : Nat} (hok : PrintfOk a ps n) (out : List UInt8) :
    render a ps ⟨0, 0, n⟩ out = .done (out ++ cPrinted a ps n) := by
  induction ps generalizing n out with
  | nil => rw [cPrinted, List.append_nil, render]
  | cons p ps ih =>
    cases p with
    | lit c => rw [render, ih hok, cPrinted, List.append_assoc, List.singleton_append]
    | conv ds c =>
      have hc : c ≠ PERCENT := by
        rintro rfl
        exact absurd hok.1.known (by decide)
      rw [render, hok.1.convert_eq]
      dsimp only
      rw [if_neg hc, ih hok.2, cPrinted, List.append_assoc]

/-- `vsnprintf` prints the text that the format and the arguments stand for, and the NUL. -/
theorem vsnprintf_eq_cPrinted {fmt : List UInt8} (hnul : 0 ∉ fmt) (hne : fmt ≠ [])
    (hok : PrintfOk a (pieces fmt) 0) {rounds : Nat} (hrounds : fmt.length < rounds) (size : Nat)
    (tail : List UInt8) :
    vsnprintf rounds size (fmt ++ 0 :: tail) a = .done (cPrinted a (pieces fmt) 0) := by
  rw [vsnprintf_eq_printed hnul hne hrounds]
  exact render_eq_cPrinted hok []

/-- `"%d %04x"` with -7 and 255. -/
theorem vsnprintf_eq_cPrinted_two :
    vsnprintf 8 16 [0x25, 0x64, 0x20, 0x25, 0x30, 0x34, 0x78, 0]
      { zeroArgs with words := fun n => if n = 0 then -7 else 255 } =
      .done [0x2d, 0x37, 0x20, 0x30, 0x30, 0x46, 0x46, 0] := by
  have h := @vsnprintf_eq_cPrinted { zeroArgs with words := fun n => if n = 0 then -7 else 255 }
    [0x25, 0x64, 0x20, 0x25, 0x30, 0x34, 0x78] (by decide) (by decide)
    ⟨⟨by decide, .inl rfl, by decide, by decide⟩,
      ⟨by decide, .inr ⟨rfl, 0x34, rfl⟩, by decide, by decide⟩, trivial⟩ 8 (by decide) 16 []
  exact h.trans (congrArg _ (by decide +kernel))

/-! ## Entries of the virtual file system -/

/-- The name that `virtfs_proc` gives to a thread is what `snprintf` prints for `"[task:%d]"`. -/
theorem vsnprintf_procText (hpid : a.words 0 ≠ BitVec.intMin 32) {rounds : Nat}
    (hrounds : 9 < rounds) (size : Nat) (tail : List UInt8) :
    vsnprintf rounds size ([0x5b, 0x74, 0x61, 0x73, 0x6b, 0x3a, 0x25, 0x64, 0x5d] ++ 0 :: tail) a =
      .done (procText (a.words 0)) := by
  have hpieces : pieces [0x5b, 0x74, 0x61, 0x73, 0x6b, 0x3a, 0x25, 0x64, 0x5d] =
      [0x5b, 0x74, 0x61, 0x73, 0x6b, 0x3a].map .lit ++ [.conv [] 0x64, .lit 0x5d, .lit 0] := by
    decide
  have hok : PrintfOk a [.conv [] 0x64, .lit 0x5d, .lit 0] 0 :=
    ⟨⟨by decide, .inl rfl, fun _ => hpid, fun h => absurd h (by decide)⟩, trivial⟩
  rw [vsnprintf_eq_printed (by decide) (by decide) hrounds, printed, hpieces, render_lits,
    render_eq_cPrinted hok, procText]
  simp [cPrinted, cConv]

theorem vsnprintf_procText_zero : vsnprintf 10 0
    [0x5b, 0x74, 0x61, 0x73, 0x6b, 0x3a, 0x25, 0x64, 0x5d, 0] zeroArgs = .done (procText 0) :=
  @vsnprintf_procText zeroArgs (by decide) 10 (by decide) 0 []

end Koowaldah
