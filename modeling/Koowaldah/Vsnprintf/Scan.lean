import Koowaldah.Vsnprintf.Basic

/-!
# The scan of a format

A format is a sequence of pieces: literal characters, the NUL among them, and conversions
`%`, digits, and a character.  The character of a conversion may be the NUL of the format,
which is then not a piece of its own.  `render` prints the pieces one after the other.

`scanLoop_eq_render` says that the loop of `vsnprintf` prints the pieces, with its two
cursors.  The search for the next `%` starts at the character of the last conversion, while
`old` is behind it.  `ScanAt` is the invariant: `old` is where the pieces that are left
start, and the search finds nothing in front of it.  A conversion `%%` breaks it, and the
next chunk has the length `-1`.

`vsnprintf_total_iff` says for which formats the scan is total, and
`vsnprintf_stays_inside_iff` which calls stay inside the buffer.
-/

namespace Koowaldah

variable {a : VaArgs} {st : Fill} {ps : List Piece}

inductive Piece where
  | lit (c : UInt8)
  | conv (ds : List UInt8) (c : UInt8)
deriving DecidableEq, Repr

/-- The pieces of a format, from inside a conversion whose digits so far are given, or from
outside. -/
def piecesFrom : Option (List UInt8) → List UInt8 → List Piece
  | none, [] => [.lit 0]
  | some ds, [] => [.conv ds 0]
  | none, c :: t => if c = PERCENT then piecesFrom (some []) t else .lit c :: piecesFrom none t
  | some ds, c :: t =>
    if isDigitChar c then piecesFrom (some (ds ++ [c])) t else .conv ds c :: piecesFrom none t

def pieces (fmt : List UInt8) : List Piece := piecesFrom none fmt

/-- Print the pieces behind `out`.  Behind a `%%` a chunk of negative length is copied. -/
def render (a : VaArgs) : List Piece → Fill → List UInt8 → Outcome
  | [], _, out => .done out
  | .lit c :: ps, st, out => render a ps st (out ++ [c])
  | .conv ds c :: ps, st, out =>
    match convert a c (ds.foldl Fill.digit st) with
    | none => .fault out
    | some (text, st) =>
      if c = PERCENT then .overrun (out ++ text) else render a ps st (out ++ text)

def printed (a : VaArgs) (fmt : List UInt8) : Outcome := render a (pieces fmt) ⟨0, 0, 0⟩ []

/-! ## Pieces -/

theorem piecesFrom_lits {l : List UInt8} (h : PERCENT ∉ l) (t : List UInt8) :
    piecesFrom none (l ++ t) = l.map .lit ++ piecesFrom none t := by
  induction l with
  | nil => rfl
  | cons c l ih =>
    rw [List.mem_cons, not_or] at h
    rw [List.cons_append, piecesFrom, if_neg (Ne.symm h.1), ih h.2, List.map_cons,
      List.cons_append]

theorem piecesFrom_digits {ds : List UInt8} (h : ∀ c ∈ ds, isDigitChar c) (es t : List UInt8) :
    piecesFrom (some es) (ds ++ t) = piecesFrom (some (es ++ ds)) t := by
  induction ds generalizing es with
  | nil => rw [List.nil_append, List.append_nil]
  | cons c ds ih =>
    rw [List.cons_append, piecesFrom, if_pos (h c List.mem_cons_self),
      ih (fun x hx => h x (List.mem_cons_of_mem c hx)), List.append_assoc, List.singleton_append]

theorem pieces_of_not_mem {t : List UInt8} (h : PERCENT ∉ t) :
    pieces t = t.map .lit ++ [.lit 0] := by
  have hlits := piecesFrom_lits h []
  rwa [List.append_nil] at hlits

theorem pieces_of_conversion {l ds : List UInt8} (hl : PERCENT ∉ l)
    (hds : ∀ c ∈ ds, isDigitChar c) (v : List UInt8) :
    pieces (l ++ PERCENT :: (ds ++ v)) = l.map .lit ++ piecesFrom (some ds) v := by
  unfold pieces
  rw [piecesFrom_lits hl, piecesFrom, if_pos rfl, piecesFrom_digits hds, List.nil_append]

theorem render_lits (a : VaArgs) (l : List UInt8) (ps : List Piece) (st : Fill)
    (out : List UInt8) : render a (l.map .lit ++ ps) st out = render a ps st (out ++ l) := by
  induction l generalizing out with
  | nil => rw [List.map_nil, List.nil_append, List.append_nil]
  | cons c l ih =>
    rw [List.map_cons, List.cons_append, render, ih, List.append_assoc, List.singleton_append]

/-! ## Rounds -/

section

variable {fmt : Ptr} {a : VaArgs} {flen : Nat} {tail : List UInt8}

variable {s : Scan} {t ds l v : List UInt8} {c : UInt8} {n : Nat}

/-- `t` is left of the format, from `old` on; the search for the next `%` starts there or at
one character in front. -/
structure ScanAt (fmt : Ptr) (flen : Nat) (tail : List UInt8) (s : Scan) (t : List UInt8) :
    Prop where
  drop_old : fmt.drop s.old = t ++ 0 :: tail
  nul_notMem : 0 ∉ t
  flen_eq : flen = s.old + t.length + 1
  search : s.cur = s.old ∨ ∃ c, c ≠ 0 ∧ c ≠ PERCENT ∧ s.old = s.cur + 1 ∧
    fmt.drop s.cur = c :: fmt.drop s.old

theorem ScanAt.cur_le (h : ScanAt fmt flen tail s t) : s.cur ≤ s.old := by
  rcases h.search with heq | ⟨c, _, _, heq, _⟩
  · exact Nat.le_of_eq heq
  · exact heq ▸ Nat.le_succ _

theorem ScanAt.kstrchr (h : ScanAt fmt flen tail s t) : Ptr.kstrchr PERCENT (fmt.drop s.cur) =
      some ((Koowaldah.kstrchr PERCENT t).map (· + (s.old - s.cur))) := by
  have hold : Ptr.kstrchr PERCENT (fmt.drop s.old) = some (Koowaldah.kstrchr PERCENT t) := by
    rw [h.drop_old, Ptr.kstrchr_append h.nul_notMem]
  rcases h.search with heq | ⟨c, hnul, hpercent, heq, hdrop⟩
  · rw [heq, hold]
    simp
  · rw [hdrop, Ptr.kstrchr, if_neg hnul, if_neg hpercent, hold, heq, Nat.add_sub_cancel_left]
    rfl

theorem round_of_not_mem (h : ScanAt fmt flen tail s t) (hmem : PERCENT ∉ t) :
    s.round fmt a = .leave s := by
  unfold Scan.round
  rw [h.kstrchr, kstrchr_eq_none hmem]
  rfl

theorem reswitch_digits (hds : ∀ d ∈ ds, isDigitChar d) (hc : ¬ isDigitChar c) {x : UInt8}
    (hx : x ≠ 0) (w : List UInt8) (cur : Nat) (st : Fill) : reswitch (x :: (ds ++ c :: w)) cur st =
      some (some (c, cur + ds.length + 1, ds.foldl Fill.digit st)) := by
  induction ds generalizing x cur st with
  | nil =>
    rw [List.nil_append, reswitch, if_neg hx]
    simp only [if_neg hc, List.length_nil, List.foldl_nil]
  | cons d ds ih =>
    have hd := hds d List.mem_cons_self
    have hne : d ≠ 0 := by
      rintro rfl
      exact absurd hd.1 (by decide)
    rw [List.cons_append, reswitch, if_neg hx]
    simp only [if_pos hd]
    rw [ih (fun y hy => hds y (List.mem_cons_of_mem d hy)) hne, List.length_cons, List.foldl_cons,
      Nat.add_right_comm cur 1, Nat.add_assoc cur]

theorem round_of_conversion {w : List UInt8}
    (h : ScanAt fmt flen tail s (l ++ PERCENT :: (ds ++ v))) (hl : PERCENT ∉ l)
    (hds : ∀ d ∈ ds, isDigitChar d) (hc : ¬ isDigitChar c) (hv : v ++ 0 :: tail = c :: w) :
    s.round fmt a =
      match convert a c (ds.foldl Fill.digit s.fill) with
      | none => .stop (.fault (s.out ++ l))
      | some (text, fill) =>
        .next ⟨s.old + l.length + ds.length + 1, s.old + l.length + ds.length + 1 + 1,
          s.out ++ l ++ text, fill⟩ := by
  have hcur := h.cur_le
  have hfound : s.cur + (l.length + (s.old - s.cur)) = s.old + l.length := by omega
  have hdrop : fmt.drop s.old = l ++ PERCENT :: (ds ++ c :: w) := by
    rw [h.drop_old, List.append_assoc, List.cons_append, List.append_assoc, hv]
  have hchunk : s.chunk fmt (s.old + l.length) =
      { s with cur := s.old + l.length, out := s.out ++ l } := by
    unfold Scan.chunk
    rw [hdrop, Nat.add_sub_cancel_left, List.take_left]
  have hswitch : reswitch (fmt.drop (s.old + l.length)) (s.old + l.length) s.fill =
      some (some (c, s.old + l.length + ds.length + 1, ds.foldl Fill.digit s.fill)) := by
    rw [← List.drop_drop, hdrop, List.drop_left, reswitch_digits hds hc (by decide)]
  unfold Scan.round
  rw [h.kstrchr, kstrchr_append hl]
  simp only [Option.map_some]
  rw [hfound, if_neg (Nat.not_lt.mpr (Nat.le_add_right _ _)), hchunk]
  unfold Scan.conversion
  cases hconv : convert a c (ds.foldl Fill.digit s.fill) with
  | none => simp only [hswitch, hconv]
  | some r => simp only [hswitch, hconv]

theorem ScanAt.drop_conversion (h : ScanAt fmt flen tail s (l ++ PERCENT :: (ds ++ v))) :
    fmt.drop (s.old + l.length + ds.length + 1) = v ++ 0 :: tail := by
  have hdrop := h.drop_old
  have hsum : s.old + l.length + ds.length + 1 = s.old + (l.length + (ds.length + 1)) := by omega
  rw [List.append_assoc, List.cons_append, List.append_assoc] at hdrop
  rw [hsum, ← List.drop_drop, hdrop, ← List.drop_drop, List.drop_left, List.drop_succ_cons,
    List.drop_left]

theorem ScanAt.next (h : ScanAt fmt flen tail s (l ++ PERCENT :: (ds ++ c :: v))) (hc : c ≠ PERCENT)
    (out : List UInt8) (fill : Fill) :
    ScanAt fmt flen tail ⟨s.old + l.length + ds.length + 1, s.old + l.length + ds.length + 1 + 1,
      out, fill⟩ v := by
  have hflen := h.flen_eq
  have hdrop := h.drop_conversion
  have hnul := h.nul_notMem
  simp only [List.mem_append, List.mem_cons, not_or] at hnul
  have hdrop' : fmt.drop (s.old + l.length + ds.length + 1 + 1) = v ++ 0 :: tail := by
    rw [← List.drop_drop, hdrop]
    rfl
  simp only [List.length_append, List.length_cons] at hflen
  constructor
  · exact hdrop'
  · exact hnul.2.2.2.2
  · simp only
    omega
  · refine Or.inr ⟨c, Ne.symm hnul.2.2.2.1, hc, rfl, ?_⟩
    rw [hdrop']
    exact hdrop

theorem round_of_percent {p : Ptr} (hdrop : fmt.drop s.cur = PERCENT :: p)
    (hold : s.old = s.cur + 1) : s.round fmt a = .stop (.overrun s.out) := by
  unfold Scan.round
  rw [hdrop]
  exact if_pos (by omega)

theorem round_of_nul {p : Ptr} (hdrop : fmt.drop s.cur = 0 :: p) : s.round fmt a = .leave s := by
  unfold Scan.round
  rw [hdrop, Ptr.kstrchr, if_pos rfl]

theorem scanLoop_of_leave (h : s.round fmt a = .leave s) :
    scanLoop fmt a flen (n + 1) s = s.finish fmt flen := by
  rw [scanLoop, h]

theorem scanLoop_of_stop {o : Outcome} (h : s.round fmt a = .stop o) :
    scanLoop fmt a flen (n + 1) s = o := by
  rw [scanLoop, h]

theorem scanLoop_of_next {s' : Scan} (h : s.round fmt a = .next s') (hlt : s'.cur < flen) :
    scanLoop fmt a flen (n + 1) s = scanLoop fmt a flen n s' := by
  rw [scanLoop, h]
  exact if_pos hlt

theorem ScanAt.finish (h : ScanAt fmt flen tail s t) :
    s.finish fmt flen = .done (s.out ++ t ++ [0]) := by
  have hflen := h.flen_eq
  have htake : (t ++ 0 :: tail).take (t.length + 1) = t ++ [0] := by
    rw [List.take_append, List.take_of_length_le (Nat.le_succ _), Nat.add_sub_cancel_left]
    rfl
  have hlen : flen - s.old = t.length + 1 := by omega
  unfold Scan.finish Scan.chunk
  rw [if_neg (by omega), h.drop_old, hlen, htake, List.append_assoc]

/-- A format is without conversions, or has a first one. -/
theorem exists_conversion (h : PERCENT ∈ t) :
    ∃ l ds v, PERCENT ∉ l ∧ (∀ d ∈ ds, isDigitChar d) ∧ (∀ c ∈ v.head?, ¬ isDigitChar c) ∧
      t = l ++ PERCENT :: (ds ++ v) := by
  obtain ⟨l, u, rfl, hl⟩ := List.eq_append_cons_of_mem h
  refine ⟨l, u.takeWhile (fun c => isDigitChar c), u.dropWhile (fun c => isDigitChar c), hl,
    ?_, ?_, ?_⟩
  · intro d hd
    have hdigit := List.mem_takeWhile_imp hd
    exact of_decide_eq_true hdigit
  · intro c hc
    have hhead := List.head?_dropWhile_not (fun c => decide (isDigitChar c)) u
    rw [Option.mem_def.mp hc] at hhead
    simpa using hhead
  · rw [List.takeWhile_append_dropWhile]

theorem convert_nul (st : Fill) : convert a 0 st = some ([], st.reset) := rfl

theorem scanLoop_eq_render (n : Nat) : ∀ {s : Scan} {t : List UInt8},
    ScanAt fmt flen tail s t → t.length < n →
      scanLoop fmt a flen n s = render a (pieces t) s.fill s.out := by
  induction n with
  | zero => exact fun _ hlt => absurd hlt (Nat.not_lt_zero _)
  | succ n ih =>
    intro s t h hlt
    by_cases hmem : PERCENT ∈ t
    · obtain ⟨l, ds, v, hl, hds, hhead, rfl⟩ := exists_conversion hmem
      have hflen := h.flen_eq
      simp only [List.length_append, List.length_cons] at hlt hflen
      rw [pieces_of_conversion hl hds, render_lits]
      have hdrop := h.drop_conversion
      cases v with
      | nil =>
        -- the character of the conversion is the NUL
        have hround := round_of_conversion (a := a) h hl hds (by decide) rfl
        obtain ⟨m, rfl⟩ : ∃ m, n = m + 1 := ⟨n - 1, by omega⟩
        rw [List.length_nil] at hflen
        rw [scanLoop_of_next hround (by simp only; omega), scanLoop_of_leave (round_of_nul hdrop),
          piecesFrom, render, convert_nul]
        unfold Scan.finish Scan.chunk
        rw [if_neg (by simp only; omega)]
        simp only [List.append_nil]
        rw [Nat.sub_eq_zero_of_le (by omega), List.take_zero, List.append_nil]
        rfl
      | cons c v =>
        have hround := round_of_conversion (a := a) h hl hds (hhead c rfl) rfl
        rw [List.length_cons] at hlt hflen
        rw [piecesFrom, if_neg (hhead c rfl), render]
        cases hconv : convert a c (ds.foldl Fill.digit s.fill) with
        | none =>
          rw [hconv] at hround
          rw [scanLoop_of_stop hround]
        | some r =>
          rw [hconv] at hround
          rw [scanLoop_of_next hround (by simp only; omega)]
          simp only
          split
          · rename_i hpercent
            obtain ⟨m, rfl⟩ : ∃ m, n = m + 1 := ⟨n - 1, by omega⟩
            rw [hpercent] at hdrop
            rw [scanLoop_of_stop (round_of_percent hdrop rfl)]
          · rename_i hpercent
            exact ih (h.next hpercent _ _) (by omega)
    · rw [scanLoop_of_leave (round_of_not_mem h hmem), h.finish, pieces_of_not_mem hmem,
        render_lits]
      rfl

end

/-! ## Calls -/

/-- A call with a format that is not empty prints its pieces, whatever stands behind the
format. -/
theorem vsnprintf_eq_printed {fmt : List UInt8} (hnul : 0 ∉ fmt) (hne : fmt ≠ []) {rounds : Nat}
    (hrounds : fmt.length < rounds) (size : Nat) (tail : List UInt8) (a : VaArgs) :
    vsnprintf rounds size (fmt ++ 0 :: tail) a = printed a fmt := by
  have hlen : Ptr.kstrlen (fmt ++ 0 :: tail) = some fmt.length :=
    Ptr.kstrlen_mem (s := ⟨fmt, hnul, tail⟩) hne
  have hat : ScanAt (fmt ++ 0 :: tail) (fmt.length + 1) tail ⟨0, 0, [], ⟨0, 0, 0⟩⟩ fmt :=
    ⟨rfl, hnul, by simp, Or.inl rfl⟩
  unfold vsnprintf printed
  rw [hlen]
  exact scanLoop_eq_render rounds hat hrounds

/-- For the empty format the text behind it is copied as well. -/
theorem vsnprintf_of_nil {rounds : Nat} (hrounds : 0 < rounds) (size : Nat) (tail : List UInt8)
    (a : VaArgs) : vsnprintf rounds size (0 :: tail) a =
      match Ptr.kstrlenLoop tail with
      | none => .fault []
      | some n => .done (0 :: tail.take (n + 1)) := by
  obtain ⟨m, rfl⟩ : ∃ m, rounds = m + 1 := ⟨rounds - 1, by omega⟩
  unfold vsnprintf
  rw [Ptr.kstrlen]
  cases Ptr.kstrlenLoop tail with
  | none => rfl
  | some n =>
    show scanLoop (0 :: tail) a (n + 1 + 1) (m + 1) ⟨0, 0, [], ⟨0, 0, 0⟩⟩ = _
    rfl

/-! ## What the pieces print -/

def Outcome.out : Outcome → List UInt8
  | .done out => out
  | .overrun out => out
  | .fault out => out
  | .endless => []

/-- The number of bytes from `buf` on that a call stores to.  A chunk of the length `-1` has
`2 ^ 32 - 1` bytes. -/
def Outcome.stored : Outcome → Nat
  | .overrun out => out.length + (WORD_RANGE - 1)
  | o => o.out.length

/-- The conversions that call `va_arg`. -/
abbrev takesArg (c : UInt8) : Prop :=
  c = 0x64 ∨ c = 0x6c ∨ c = 0x78 ∨ c = 0x70 ∨ c = 0x63 ∨ c = 0x73

/-- The arguments, from number `n` on, have the types that the pieces name: a string is
`NULL` or ends in a NUL. -/
def ArgsOk (a : VaArgs) : List Piece → Nat → Prop
  | [], _ => True
  | .lit _ :: ps, n => ArgsOk a ps n
  | .conv _ c :: ps, n =>
    (c = 0x73 → a.words n = 0 ∨ 0 ∈ a.strings (a.words n)) ∧
      ArgsOk a ps (if takesArg c then n + 1 else n)

theorem foldl_digit_arg (ds : List UInt8) (st : Fill) : (ds.foldl Fill.digit st).arg = st.arg := by
  induction ds generalizing st with
  | nil => rfl
  | cons c ds ih =>
    rw [List.foldl_cons, ih]
    unfold Fill.digit
    split
    · rfl
    · split <;> rfl

theorem convertString_spec (h : a.words st.arg = 0 ∨ 0 ∈ a.strings (a.words st.arg)) :
    ∃ text st', convertString a st = some (text, st') ∧ st'.arg = st.arg + 1 := by
  unfold convertString
  dsimp only
  split
  · exact ⟨_, _, rfl, rfl⟩
  · rename_i hword
    have hmem := h.resolve_left hword
    cases hstr : a.strings (a.words st.arg) with
    | nil =>
      rw [hstr] at hmem
      exact absurd hmem List.not_mem_nil
    | cons x p =>
      rw [hstr] at hmem
      dsimp only
      split
      · exact ⟨_, _, rfl, rfl⟩
      · rename_i hx
        have hp : 0 ∈ p := (List.mem_cons.mp hmem).resolve_left (Ne.symm hx)
        rw [Ptr.kstrlen, Ptr.kstrlenLoop_eq_text hp]
        exact ⟨_, _, rfl, rfl⟩

theorem convert_spec {c : UInt8}
    (h : c = 0x73 → a.words st.arg = 0 ∨ 0 ∈ a.strings (a.words st.arg)) :
    ∃ text st', convert a c st = some (text, st') ∧
      st'.arg = if takesArg c then st.arg + 1 else st.arg := by
  have htakes : takesArg c → st.arg + 1 = if takesArg c then st.arg + 1 else st.arg :=
    fun htakes => (if_pos htakes).symm
  unfold convert
  split
  · exact ⟨_, _, rfl, htakes (by tauto)⟩
  split
  · exact ⟨_, _, rfl, htakes (by tauto)⟩
  split
  · exact ⟨_, _, rfl, htakes (by tauto)⟩
  split
  · exact ⟨_, _, rfl, htakes (by tauto)⟩
  split
  · rename_i hc
    rw [← htakes (by tauto)]
    exact convertString_spec (h hc)
  · exact ⟨_, _, rfl, (if_neg (by tauto)).symm⟩

theorem render_of_argsOk {out : List UInt8} (hargs : ArgsOk a ps st.arg)
    (hps : ∀ ds, .conv ds PERCENT ∉ ps) : ∃ text, render a ps st out = .done text := by
  induction ps generalizing st out with
  | nil => exact ⟨out, rfl⟩
  | cons p ps ih =>
    have hps' : ∀ ds, .conv ds PERCENT ∉ ps := fun ds hmem => hps ds (List.mem_cons_of_mem p hmem)
    cases p with
    | lit c =>
      exact ih hargs hps'
    | conv ds c =>
      obtain ⟨hstring, hargs⟩ := hargs
      rw [← foldl_digit_arg ds st] at hstring hargs
      obtain ⟨text, st', hconv, harg⟩ := convert_spec hstring
      have hc : c ≠ PERCENT := by
        rintro rfl
        exact hps ds List.mem_cons_self
      rw [← harg] at hargs
      rw [render, hconv]
      simp only [if_neg hc]
      exact ih hargs hps'

theorem not_mem_of_render_eq_done {out text : List UInt8} (h : render a ps st out = .done text)
    (ds : List UInt8) : .conv ds PERCENT ∉ ps := by
  induction ps generalizing st out with
  | nil => exact List.not_mem_nil
  | cons p ps ih =>
    rw [List.mem_cons, not_or]
    cases p with
    | lit c =>
      exact ⟨nofun, ih h⟩
    | conv es c =>
      rw [render] at h
      split at h
      · cases h
      · split at h
        · cases h
        · rename_i hc
          refine ⟨?_, ih h⟩
          intro heq
          cases heq
          exact hc rfl

/-- The last piece of a format is its NUL, as a literal or as the character of a
conversion. -/
theorem piecesFrom_end (m : Option (List UInt8)) (t : List UInt8) :
    ∃ ps, piecesFrom m t = ps ++ [.lit 0] ∨ ∃ ds, piecesFrom m t = ps ++ [.conv ds 0] := by
  induction t generalizing m with
  | nil =>
    cases m with
    | none => exact ⟨[], Or.inl rfl⟩
    | some ds => exact ⟨[], Or.inr ⟨ds, rfl⟩⟩
  | cons c t ih =>
    have hcons : ∀ p, ∃ ps, p :: piecesFrom none t = ps ++ [.lit 0] ∨
        ∃ ds, p :: piecesFrom none t = ps ++ [.conv ds 0] := by
      intro p
      obtain ⟨ps, hps⟩ := ih none
      refine ⟨p :: ps, ?_⟩
      simpa only [List.cons_append, List.cons.injEq, true_and] using hps
    cases m with
    | none =>
      rw [piecesFrom]
      split
      · exact ih (some [])
      · exact hcons (.lit c)
    | some ds =>
      rw [piecesFrom]
      split
      · exact ih (some (ds ++ [c]))
      · exact hcons (.conv ds c)

theorem render_lit_nul {out text : List UInt8} (h : render a (ps ++ [.lit 0]) st out = .done text) :
    text.getLast? = some 0 := by
  induction ps generalizing st out with
  | nil =>
    cases h
    exact List.getLast?_concat
  | cons p ps ih =>
    rw [List.cons_append] at h
    cases p with
    | lit c =>
      exact ih h
    | conv ds c =>
      rw [render] at h
      split at h
      · cases h
      · split at h
        · cases h
        · exact ih h

/-! ## Totality and room -/

/-- The scan of a format is total, unless a conversion has the character `%`, or the NUL of
the format and nothing else puts a NUL at the end of the output.  The arguments are those
that the format names. -/
theorem vsnprintf_total_iff {fmt : List UInt8} (hnul : 0 ∉ fmt) (hne : fmt ≠ []) (a : VaArgs)
    (hargs : ArgsOk a (pieces fmt) 0) : (∃ out, (∀ tail size rounds, fmt.length < rounds →
        vsnprintf rounds size (fmt ++ 0 :: tail) a = .done out) ∧ out.getLast? = some 0) ↔
      (∀ ds, .conv ds PERCENT ∉ pieces fmt) ∧
        ((∃ ds, .conv ds 0 ∈ pieces fmt) → (printed a fmt).out.getLast? = some 0) := by
  constructor
  · intro h
    obtain ⟨out, hrun, hlast⟩ := h
    have hprinted : printed a fmt = .done out := by
      rw [← hrun [] 0 (fmt.length + 1) (Nat.lt_succ_self _)]
      exact (vsnprintf_eq_printed hnul hne (Nat.lt_succ_self _) 0 [] a).symm
    refine ⟨not_mem_of_render_eq_done hprinted, fun _ => ?_⟩
    rw [hprinted]
    exact hlast
  · intro h
    obtain ⟨hpercent, hopen⟩ := h
    obtain ⟨out, hout⟩ : ∃ out, printed a fmt = .done out := render_of_argsOk hargs hpercent
    refine ⟨out, ?_, ?_⟩
    · intro tail size rounds hrounds
      rw [vsnprintf_eq_printed hnul hne hrounds]
      exact hout
    · obtain ⟨ps, hlit | ⟨ds, hconv⟩⟩ := piecesFrom_end none fmt
      · unfold printed pieces at hout
        rw [hlit] at hout
        exact render_lit_nul hout
      · have hmem : .conv ds 0 ∈ pieces fmt := by
          unfold pieces
          rw [hconv]
          exact List.mem_append_right ps List.mem_cons_self
        have hlast := hopen ⟨ds, hmem⟩
        rwa [hout] at hlast

def zeroArgs : VaArgs := ⟨fun _ => 0, fun _ => [], fun _ => 0⟩

theorem vsnprintf_total_decimal : ∃ out, (∀ tail size rounds, 3 < rounds →
      vsnprintf rounds size ([0x25, 0x64, 0x0a] ++ 0 :: tail) zeroArgs = .done out) ∧
        out.getLast? = some 0 := by
  have hpieces : pieces [0x25, 0x64, 0x0a] = [.conv [] 0x64, .lit 0x0a, .lit 0] := by decide
  refine (@vsnprintf_total_iff [0x25, 0x64, 0x0a] (by decide) (by decide) zeroArgs ?_).mpr
    ⟨?_, ?_⟩
  · exact ⟨nofun, trivial⟩
  · rw [hpieces]
    simp [PERCENT]
  · rw [hpieces]
    simp

/-- `"%%"` copies a chunk of negative length, and `"%"` leaves no NUL. -/
theorem vsnprintf_percent :
    vsnprintf 4 0 (CStr.mem ⟨[0x25, 0x25], by decide, []⟩) zeroArgs = .overrun [] ∧
      vsnprintf 4 0 (CStr.mem ⟨[0x25], by decide, []⟩) zeroArgs = .done [] := by
  constructor <;> rfl

theorem stored_of_nil {tail : List UInt8} (h : 0 ∈ tail) :
    (Outcome.done (0 :: tail.take ((Ptr.text tail).length + 1))).stored =
      (Ptr.text tail).length + 2 := by
  obtain ⟨r, htail, _⟩ := Ptr.eq_text_append h
  have hlen := congrArg List.length htail
  rw [List.length_append, List.length_cons] at hlen
  show (0 :: tail.take ((Ptr.text tail).length + 1)).length = _
  rw [List.length_cons, List.length_take, Nat.min_eq_left (by omega)]

/-- A call stores inside `buf[0, size)` if and only if what it prints is not longer than
`size`.  The empty format prints the text behind it. -/
theorem vsnprintf_stays_inside_iff (fmt : CStr) (a : VaArgs) (size : Nat) :
    (∀ rounds, fmt.chars.length < rounds → (vsnprintf rounds size fmt.mem a).stored ≤ size) ↔
      (fmt.chars = [] → 0 ∈ fmt.tail → (Ptr.text fmt.tail).length + 2 ≤ size) ∧
        (fmt.chars ≠ [] → (printed a fmt.chars).stored ≤ size) := by
  by_cases hne : fmt.chars = []
  · have hrun : ∀ rounds, 0 < rounds → (vsnprintf rounds size fmt.mem a).stored =
        if 0 ∈ fmt.tail then (Ptr.text fmt.tail).length + 2 else 0 := by
      intro rounds hrounds
      rw [CStr.mem_of_nil hne, vsnprintf_of_nil hrounds]
      split_ifs with hmem
      · rw [Ptr.kstrlenLoop_eq_text hmem]
        exact stored_of_nil hmem
      · rw [Ptr.kstrlenLoop_eq_none hmem]
        rfl
    rw [hne]
    constructor
    · intro h
      refine ⟨fun _ hmem => ?_, fun h => absurd rfl h⟩
      have hone := h 1 Nat.one_pos
      rwa [hrun 1 Nat.one_pos, if_pos hmem] at hone
    · intro h rounds hrounds
      rw [hrun rounds hrounds]
      split_ifs with hmem
      · exact h.1 rfl hmem
      · exact Nat.zero_le size
  · have hrun : ∀ rounds, fmt.chars.length < rounds →
        vsnprintf rounds size fmt.mem a = printed a fmt.chars := fun rounds hrounds =>
      vsnprintf_eq_printed fmt.nul_notMem hne hrounds size fmt.tail a
    constructor
    · intro h
      refine ⟨fun hnil => absurd hnil hne, fun _ => ?_⟩
      rw [← hrun _ (Nat.lt_succ_self _)]
      exact h _ (Nat.lt_succ_self _)
    · intro h rounds hrounds
      rw [hrun rounds hrounds]
      exact h.2 hne

/-- `"ab"` is printed to a buffer of one byte as three bytes. -/
theorem snprintf_overruns :
    (snprintf 3 1 (CStr.mem ⟨[0x61, 0x62], by decide, []⟩) zeroArgs).stored = 3 := rfl

end Koowaldah
