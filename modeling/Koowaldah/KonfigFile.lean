import Koowaldah.Konfig
import Koowaldah.Vsnprintf.Digits

/-!
# The configuration file

A model of `writeback` and `kopt2konfig` of `konfig/kout.c`, for the file `KONFIG`, and of
`read_konfig` of `konfig/konfigure.c`.  Texts are lists of bytes.  A store outside of the buffers
of `read_konfig` ends the model of it.

`read_konfig` asks `feof` before it reads, which is true only after a read that found the end.
Every file that `writeback` makes ends with a newline, so after its last line there is one more
round, in which `getline` returns -1 and `line[line_len - 1]` is in front of the buffer
(`readKonfigLoop_strays`).
-/

namespace Koowaldah

/-! ## The functions -/

/-- `ksection_t`, with its address. -/
structure Ksection where
  addr : Nat
  desc : List UInt8
  items : BitVec 32
deriving DecidableEq, Repr

/-- An option with the texts that `writeback` prints. -/
structure KonfigOption extends Koption where
  desc : List UInt8
  sec : Ksection
deriving DecidableEq, Repr

/-- The value of an option, as `kopt2konfig` prints it. -/
def koptText : KoptValue → List UInt8
  | .bool v => [v]
  | .tristate v => [v]
  | .int v => signedText v.toInt
  | .string v => v

def kopt2konfig (kopt : KonfigOption) : List UInt8 :=
  [0x23, 0x20] ++ kopt.desc ++ [0x0a] ++ OPT_TAG ++ kopt.name ++ [0x3d] ++ koptText kopt.value ++
    [0x0a]

/-- `ksec2konfig`, which prints `# desc`, `# (n options)`, `#` and an empty line. -/
def ksec2konfig (ksec : Ksection) : List UInt8 :=
  [0x23, 0x20] ++ ksec.desc ++ [0x0a, 0x23, 0x20, 0x28] ++ signedText ksec.items.toInt ++
    [0x20, 0x6f, 0x70, 0x74, 0x69, 0x6f, 0x6e, 0x73, 0x29, 0x0a, 0x23, 0x0a, 0x0a]

def ws2konfig : List UInt8 := [0x0a, 0x0a]

/-- The loop of `writeback`, for the file `KONFIG`. -/
def writebackLoop : Option Ksection → List KonfigOption → List UInt8
  | _, [] => []
  | ksec, kopt :: rest =>
    (if some kopt.sec ≠ ksec then
      (if ksec.isSome then ws2konfig else []) ++ ksec2konfig kopt.sec
    else []) ++ kopt2konfig kopt ++ writebackLoop (some kopt.sec) rest

def writeback (t : List KonfigOption) : List UInt8 := writebackLoop none t

def OPTNAME_MAX : Nat := 32

def VALUE_MAX : Nat := 256

inductive KonfigBuffer where
  | line
  | opt
  | val
deriving DecidableEq, Repr

/-- What a round of `read_konfig` does with its line. -/
inductive KonfigLine where
  | skip
  | set (opt val : List UInt8)
  | stray (buffer : KonfigBuffer)
deriving DecidableEq, Repr

/-- The body of the loop of `read_konfig` behind `getline`.  The last byte of the line becomes a
NUL, and the first NUL ends the string.  `opt` and `val` need one too. -/
def konfigLine (line : List UInt8) : KonfigLine :=
  let ps := (line.dropLast.takeWhile (· ≠ 0)).dropWhile (fun c => c = 0x20 ∨ c = 0x09)
  if ps.head? = some 0x23 then .skip
  else if 0x3d ∈ ps then
    let opt := ps.takeWhile (· ≠ 0x3d)
    let val := (ps.dropWhile (· ≠ 0x3d)).tail
    if OPTNAME_MAX ≤ opt.length then .stray .opt
    else if VALUE_MAX ≤ val.length then .stray .val
    else .set opt val
  else .skip

/-- `getline`: the line, what is left of the file, and whether the end was found.  `none` is
the return value -1. -/
def getline (file : List UInt8) : Option (List UInt8 × List UInt8 × Bool) :=
  if file = [] then none
  else match file.dropWhile (· ≠ 0x0a) with
    | [] => some (file, [], true)
    | _ :: rest => some (file.takeWhile (· ≠ 0x0a) ++ [0x0a], rest, false)

/-- The table after `read_konfig`, the names that were reported, and the buffer that was missed. -/
structure KonfigRead where
  table : List Koption
  unknown : List (List UInt8)
  stray : Option KonfigBuffer
deriving DecidableEq, Repr

def KonfigRead.takeLine (s : KonfigRead) (line : List UInt8) : KonfigRead :=
  match konfigLine line with
  | .skip => s
  | .set opt val =>
    let (table, ret) := koptSetval s.table opt val
    { s with table := table, unknown := s.unknown ++ if ret ≠ 0 then [opt] else [] }
  | .stray buffer => { s with stray := some buffer }

/-- The loop of `read_konfig`.  A round takes a byte off the file at least. -/
def readKonfigLoop : Nat → List UInt8 → KonfigRead → KonfigRead
  | 0, _, s => s
  | fuel + 1, file, s =>
    match getline file with
    -- `line_len` is -1, and the store is to `line[-2]`
    | none => { s with stray := some .line }
    | some (line, rest, eof) =>
      let s := s.takeLine line
      if s.stray ≠ none ∨ eof then s else readKonfigLoop fuel rest s

/-- `read_konfig` on a file that is there. -/
def readKonfig (t : List Koption) (file : List UInt8) : KonfigRead :=
  readKonfigLoop (file.length + 1) file ⟨t, [], none⟩

/-! ## The last round -/

/-- The file is empty or ends with a newline. -/
def EndsLine (file : List UInt8) : Prop := file = [] ∨ ∃ l, file = l ++ [0x0a]

theorem EndsLine.append {l l' : List UInt8} (h : EndsLine l) (h' : EndsLine l') :
    EndsLine (l ++ l') := by
  rcases h' with rfl | ⟨m, rfl⟩
  · rwa [List.append_nil]
  · exact .inr ⟨l ++ m, (List.append_assoc ..).symm⟩

theorem writebackLoop_endsLine (ksec : Option Ksection) (t : List KonfigOption) :
    EndsLine (writebackLoop ksec t) := by
  induction t generalizing ksec with
  | nil => exact .inl rfl
  | cons kopt rest ih =>
    exact EndsLine.append (.inr ⟨_, (List.append_assoc ..).symm⟩) (ih _)

theorem getline_append {l rest : List UInt8} (hl : 0x0a ∉ l) :
    getline (l ++ 0x0a :: rest) = some (l ++ [0x0a], rest, false) := by
  have hpass : ∀ x ∈ l, decide (x ≠ 0x0a) = true := fun x hx => by
    rw [decide_eq_true_iff]
    rintro rfl
    exact hl hx
  unfold getline
  rw [if_neg (by simp), List.dropWhile_append_of_pos hpass, List.takeWhile_append_of_pos hpass]
  simp

theorem EndsLine.cases {file : List UInt8} (h : EndsLine file) :
    file = [] ∨ ∃ l rest, 0x0a ∉ l ∧ file = l ++ 0x0a :: rest ∧ EndsLine rest := by
  rcases h with rfl | ⟨m, rfl⟩
  · exact .inl rfl
  · right
    induction m with
    | nil => exact ⟨[], [], by simp, rfl, .inl rfl⟩
    | cons c m ih =>
      by_cases hc : c = 0x0a
      · subst hc
        exact ⟨[], m ++ [0x0a], by simp, rfl, .inr ⟨m, rfl⟩⟩
      · obtain ⟨l, rest, hl, heq, hrest⟩ := ih
        exact ⟨c :: l, rest, by simp [hl, Ne.symm hc], by rw [List.cons_append, heq]; rfl, hrest⟩

/-- A file that ends with a newline makes `read_konfig` store outside of its buffers. -/
theorem readKonfigLoop_strays {file : List UInt8} (h : EndsLine file) {fuel : Nat}
    (hfuel : file.length < fuel) (s : KonfigRead) : (readKonfigLoop fuel file s).stray ≠ none := by
  induction fuel generalizing file s with
  | zero => omega
  | succ fuel ih =>
    rcases h.cases with rfl | ⟨l, rest, hl, rfl, hrest⟩
    · exact Option.some_ne_none _
    · rw [readKonfigLoop, getline_append hl]
      dsimp only
      split
      · rename_i hstray
        simpa using hstray
      · rw [List.length_append, List.length_cons] at hfuel
        exact ih hrest (by omega) _

/-! ## The round trip -/

/-- What the two functions are to do: every option gets back the value it was written with, no
name is unknown, and no store is outside of the buffers. -/
structure RoundTrips (t₀ : List Koption) (t : List KonfigOption) : Prop where
  restored : List.Forall₂ (fun x o => x.name = o.name ∧ x.value = o.value)
    (readKonfig t₀ (writeback t)).table t
  known : (readKonfig t₀ (writeback t)).unknown = []
  inBuffers : (readKonfig t₀ (writeback t)).stray = none

/-- No table makes the round trip: whatever was written, `read_konfig` stores outside of a
buffer. -/
theorem writeback_not_roundTrips (t₀ : List Koption) (t : List KonfigOption) :
    ¬RoundTrips t₀ t := by
  intro h
  exact readKonfigLoop_strays (writebackLoop_endsLine none t) (Nat.lt_succ_self _) _ h.inBuffers

/-- The option `A` with the value `Y`, in a section without a text. -/
def optionA : KonfigOption := ⟨⟨[0x41], [], .bool 0x59, 0⟩, [], ⟨1, [], 1⟩⟩

/-- The file of a single option: its last round stores in front of the line.  A name of 28
characters, which the table has room for, has no room in `opt`. -/
theorem readKonfig_strays_a :
    (readKonfig [optionA.toKoption] (writeback [optionA])).stray = some .line ∧
      (let long := { optionA with name := List.replicate 28 0x41 }
      (readKonfig [long.toKoption] (writeback [long])).stray = some .opt) := by
  decide +kernel

end Koowaldah
