import Koowaldah.Kstr

/-!
# Strings in memory

The string functions of `include/lib.h` once more, now with the bytes behind the NUL.  A
pointer is the list of the bytes from it up to the end of the memory, and a read behind the
end gives `none`.  A `CStr` is a string as it lies in memory: its characters, the NUL, and
whatever follows.

`kstrlen` starts to look for the NUL at the second byte, so for the empty string it finds
the next NUL behind the string's own.
-/

namespace Koowaldah

/-- A `char *`: the bytes from there up to the end of the memory. -/
abbrev Ptr := List UInt8

namespace Ptr

/-- `kstrchr`: the offset of the first `c`, and `some none` for `NULL`. -/
def kstrchr (c : UInt8) : Ptr → Option (Option Nat)
  | [] => none
  | x :: p =>
    if x = 0 then some none
    else if x = c then some (some 0)
    else (kstrchr c p).map (Option.map (· + 1))

/-- The loop of `kstrlen`: how far away the next NUL is. -/
def kstrlenLoop : Ptr → Option Nat
  | [] => none
  | x :: p => if x = 0 then some 0 else (kstrlenLoop p).map (· + 1)

/-- `kstrlen`.  The first byte is not looked at. -/
def kstrlen : Ptr → Option Nat
  | [] => none
  | _ :: p => (kstrlenLoop p).map (· + 1)

/-- `kstrncmp`.  The bytes at `n` are not compared in the loop, but their difference is
returned. -/
def kstrncmp : Nat → Ptr → Ptr → Option Int
  | 0, x :: _, y :: _ => some (charDiff x y)
  | n + 1, x :: a, y :: b => if x = y then kstrncmp n a b else some (charDiff x y)
  | _, _, _ => none

/-- `k__strcmp`. -/
def rawStrcmp : Ptr → Ptr → Option Int
  | x :: a, y :: b => if x ≠ 0 ∧ y ≠ 0 ∧ x = y then rawStrcmp a b else some (charDiff x y)
  | _, _ => none

/-- `kstrcmp`.  A length is smaller than the memory, so it is the same as an `int`. -/
def kstrcmp (a b : Ptr) : Option Int := do
  let lenA ← kstrlen a
  let lenB ← kstrlen b
  if lenA = lenB then kstrncmp lenA a b else rawStrcmp a b

/-- The characters up to the next NUL. -/
def text (p : Ptr) : List UInt8 := p.takeWhile (· ≠ 0)

end Ptr

structure CStr where
  /-- The characters in front of the NUL. -/
  chars : List UInt8
  nul_notMem : 0 ∉ chars
  /-- The bytes behind the NUL. -/
  tail : List UInt8

namespace CStr

def mem (s : CStr) : Ptr := s.chars ++ 0 :: s.tail

theorem mem_of_nil {s : CStr} (h : s.chars = []) : s.mem = 0 :: s.tail := by
  unfold mem
  rw [h, List.nil_append]

end CStr

namespace Ptr

variable {str str' : List UInt8} {p : Ptr} {s : CStr} {n : Nat}

/-! ## Lengths -/

theorem kstrlenLoop_append (h : 0 ∉ str) (r : List UInt8) :
    kstrlenLoop (str ++ 0 :: r) = some str.length := by
  induction str with
  | nil => rw [List.nil_append, kstrlenLoop, if_pos rfl, List.length_nil]
  | cons x str ih =>
    rw [List.mem_cons, not_or] at h
    rw [List.cons_append, kstrlenLoop, if_neg (Ne.symm h.1), ih h.2, Option.map_some,
      List.length_cons]

theorem kstrlenLoop_eq_none (h : 0 ∉ p) : kstrlenLoop p = none := by
  induction p with
  | nil => rfl
  | cons x p ih =>
    rw [List.mem_cons, not_or] at h
    rw [kstrlenLoop, if_neg (Ne.symm h.1), ih h.2, Option.map_none]

theorem text_append (h : 0 ∉ str) (r : List UInt8) : text (str ++ 0 :: r) = str := by
  unfold text
  rw [List.takeWhile_append_of_pos]
  · rw [List.takeWhile_cons_of_neg (by simp), List.append_nil]
  · intro x hx
    apply decide_eq_true
    rintro rfl
    exact h hx

theorem eq_text_append (h : 0 ∈ p) : ∃ r, p = text p ++ 0 :: r ∧ 0 ∉ text p := by
  obtain ⟨str, r, hp, hstr⟩ := List.eq_append_cons_of_mem h
  refine ⟨r, ?_⟩
  rw [hp, text_append hstr]
  exact ⟨rfl, hstr⟩

theorem kstrlenLoop_eq_text (h : 0 ∈ p) : kstrlenLoop p = some (text p).length := by
  obtain ⟨r, hp, htext⟩ := eq_text_append h
  rw [hp, kstrlenLoop_append htext, ← hp]

theorem kstrlen_mem (h : s.chars ≠ []) : kstrlen s.mem = some s.chars.length := by
  obtain ⟨x, str, hchars⟩ := List.exists_cons_of_ne_nil h
  have hnul := s.nul_notMem
  rw [hchars, List.mem_cons, not_or] at hnul
  unfold CStr.mem
  rw [hchars, List.cons_append, kstrlen, kstrlenLoop_append hnul.2, Option.map_some,
    List.length_cons]

theorem kstrlen_mem_of_nil (h : s.chars = []) :
    kstrlen s.mem = (kstrlenLoop s.tail).map (· + 1) := by
  rw [CStr.mem_of_nil h, kstrlen]

theorem kstrlen_mem_isSome (h : s.chars = [] → 0 ∈ s.tail) : ∃ n, kstrlen s.mem = some n := by
  by_cases hnil : s.chars = []
  · rw [kstrlen_mem_of_nil hnil, kstrlenLoop_eq_text (h hnil)]
    exact ⟨_, rfl⟩
  · exact ⟨_, kstrlen_mem hnil⟩

theorem kstrlen_mem_eq_none (hnil : s.chars = []) (h : 0 ∉ s.tail) : kstrlen s.mem = none := by
  rw [kstrlen_mem_of_nil hnil, kstrlenLoop_eq_none h, Option.map_none]

/-! ## Searches and comparisons -/

theorem kstrchr_append {c : UInt8} (h : 0 ∉ str) (r : List UInt8) :
    kstrchr c (str ++ 0 :: r) = some (Koowaldah.kstrchr c str) := by
  induction str with
  | nil => rfl
  | cons x str ih =>
    rw [List.mem_cons, not_or] at h
    rw [List.cons_append, kstrchr, Koowaldah.kstrchr, if_neg (Ne.symm h.1), ih h.2]
    split <;> rfl

theorem kstrncmp_eq_zero_iff {a b : Ptr} : kstrncmp n a b = some 0 ↔
      n < a.length ∧ n < b.length ∧ a.take (n + 1) = b.take (n + 1) := by
  induction n generalizing a b with
  | zero =>
    cases a with
    | nil => simp [kstrncmp]
    | cons x a =>
      cases b with
      | nil => simp [kstrncmp]
      | cons y b => simp [kstrncmp, charDiff_eq_zero_iff]
  | succ n ih =>
    cases a with
    | nil => simp [kstrncmp]
    | cons x a =>
      cases b with
      | nil => simp [kstrncmp]
      | cons y b =>
        rw [kstrncmp, List.length_cons, List.length_cons, Nat.succ_lt_succ_iff,
          Nat.succ_lt_succ_iff, List.take_succ_cons, List.take_succ_cons, List.cons.injEq]
        by_cases hxy : x = y
        · rw [if_pos hxy, ih, and_iff_right hxy]
        · rw [if_neg hxy, Option.some.injEq, charDiff_eq_zero_iff]
          exact ⟨fun h => absurd h hxy, fun h => absurd h.2.2.1 hxy⟩

theorem kstrncmp_append_of_ne {p : List UInt8} {x y : UInt8} (hne : x ≠ y) (hp : p.length ≤ n)
    (a b : List UInt8) : kstrncmp n (p ++ x :: a) (p ++ y :: b) = some (charDiff x y) := by
  induction p generalizing n with
  | nil =>
    cases n with
    | zero => rfl
    | succ n => rw [List.nil_append, List.nil_append, kstrncmp, if_neg hne]
  | cons z p ih =>
    obtain ⟨m, rfl⟩ : ∃ m, n = m + 1 := ⟨n - 1, by rw [List.length_cons] at hp; omega⟩
    rw [List.cons_append, List.cons_append, kstrncmp, if_pos rfl]
    exact ih (Nat.le_of_succ_le_succ hp)

/-- As long as `n` is not behind a NUL, the characters are all that is compared. -/
theorem kstrncmp_append_nul (hn : n ≤ str.length) (hn' : n ≤ str'.length) (a b : List UInt8) :
    kstrncmp n (str ++ 0 :: a) (str' ++ 0 :: b) = some (Koowaldah.kstrncmp n str str') := by
  induction n generalizing str str' with
  | zero =>
    cases str with
    | nil => cases str' <;> rfl
    | cons x str => cases str' <;> rfl
  | succ n ih =>
    obtain ⟨x, str, rfl⟩ := List.exists_cons_of_length_pos (Nat.lt_of_lt_of_le n.succ_pos hn)
    obtain ⟨y, str', rfl⟩ := List.exists_cons_of_length_pos (Nat.lt_of_lt_of_le n.succ_pos hn')
    show (if x = y then kstrncmp n (str ++ 0 :: a) (str' ++ 0 :: b) else some (charDiff x y)) =
      some (if x = y then Koowaldah.kstrncmp n str str' else charDiff x y)
    rw [ih (Nat.le_of_succ_le_succ hn) (Nat.le_of_succ_le_succ hn')]
    split <;> rfl

theorem kstrncmp_append_nul_iff (hlen : str.length = str'.length) (a b : List UInt8) :
    kstrncmp str.length (str ++ 0 :: a) (str' ++ 0 :: b) = some 0 ↔ str = str' := by
  rw [kstrncmp_append_nul (Nat.le_refl _) (Nat.le_of_eq hlen), Option.some.injEq,
    Koowaldah.kstrncmp_eq_zero_iff hlen]

theorem rawStrcmp_append_of_ne {p : List UInt8} {x y : UInt8} (hne : x ≠ y) (hp : 0 ∉ p)
    (a b : List UInt8) : rawStrcmp (p ++ x :: a) (p ++ y :: b) = some (charDiff x y) := by
  induction p with
  | nil => rw [List.nil_append, List.nil_append, rawStrcmp, if_neg (fun h => hne h.2.2)]
  | cons z p ih =>
    rw [List.mem_cons, not_or] at hp
    rw [List.cons_append, List.cons_append, rawStrcmp,
      if_pos ⟨Ne.symm hp.1, Ne.symm hp.1, rfl⟩, ih hp.2]

theorem rawStrcmp_append_nul (h : 0 ∉ str) (h' : 0 ∉ str') (a b : List UInt8) :
    rawStrcmp (str ++ 0 :: a) (str' ++ 0 :: b) = some (Koowaldah.rawStrcmp str str') := by
  induction str generalizing str' with
  | nil =>
    cases str' with
    | nil => rfl
    | cons y str' =>
      rfl
  | cons x str ih =>
    rw [List.mem_cons, not_or] at h
    cases str' with
    | nil =>
      rw [List.nil_append, List.cons_append, rawStrcmp, if_neg (fun h => h.2.1 rfl)]
      rfl
    | cons y str' =>
      rw [List.mem_cons, not_or] at h'
      rw [List.cons_append, List.cons_append, rawStrcmp, Koowaldah.rawStrcmp, ih h.2 h'.2]
      by_cases hxy : x = y
      · rw [if_pos hxy, if_pos ⟨Ne.symm h.1, Ne.symm h'.1, hxy⟩]
      · rw [if_neg hxy, if_neg (fun h => hxy h.2.2)]

end Ptr

/-! ## What a comparison is to return -/

namespace CStr

variable {a b : CStr} {x y : UInt8} {n : Nat}

/-- The first two characters that differ, one of which may be the NUL. -/
def FirstDiff (a b : CStr) (x y : UInt8) : Prop :=
  x ≠ y ∧ ∃ p a' b', 0 ∉ p ∧ a.mem = p ++ x :: a' ∧ b.mem = p ++ y :: b'

/-- The result of a comparison of two strings. -/
def Compares (a b : CStr) (r : Int) : Prop :=
  (r = 0 ↔ a.chars = b.chars) ∧ ∀ x y, FirstDiff a b x y → r = charDiff x y

theorem exists_diff {a b : List UInt8} (ha : 0 ∉ a) (hb : 0 ∉ b) (hne : a ≠ b)
    (r r' : List UInt8) : ∃ x y p a' b', x ≠ y ∧ 0 ∉ p ∧
      a ++ 0 :: r = p ++ x :: a' ∧ b ++ 0 :: r' = p ++ y :: b' := by
  induction a generalizing b with
  | nil =>
    obtain ⟨y, b, rfl⟩ := List.exists_cons_of_ne_nil (Ne.symm hne)
    rw [List.mem_cons, not_or] at hb
    exact ⟨0, y, [], r, b ++ 0 :: r', hb.1, List.not_mem_nil, rfl, rfl⟩
  | cons x a ih =>
    rw [List.mem_cons, not_or] at ha
    cases b with
    | nil => exact ⟨x, 0, [], a ++ 0 :: r, r', Ne.symm ha.1, List.not_mem_nil, rfl, rfl⟩
    | cons y b =>
      rw [List.mem_cons, not_or] at hb
      by_cases hxy : x = y
      · subst hxy
        have htails : a ≠ b := fun h => hne (congrArg (x :: ·) h)
        obtain ⟨x', y', p, a', b', hne', hp, ha', hb'⟩ := ih ha.2 hb.2 htails
        refine ⟨x', y', x :: p, a', b', hne', ?_, ?_, ?_⟩
        · rw [List.mem_cons, not_or]
          exact ⟨ha.1, hp⟩
        · rw [List.cons_append, ha', List.cons_append]
        · rw [List.cons_append, hb', List.cons_append]
      · exact ⟨x, y, [], a ++ 0 :: r, b ++ 0 :: r', hxy, List.not_mem_nil, rfl, rfl⟩

theorem exists_firstDiff (hne : a.chars ≠ b.chars) : ∃ x y, FirstDiff a b x y := by
  obtain ⟨x, y, p, a', b', hxy, hp, ha, hb⟩ :=
    exists_diff a.nul_notMem b.nul_notMem hne a.tail b.tail
  exact ⟨x, y, hxy, p, a', b', hp, ha, hb⟩

theorem FirstDiff.rawStrcmp (h : FirstDiff a b x y) :
    Ptr.rawStrcmp a.mem b.mem = some (charDiff x y) := by
  obtain ⟨hne, p, a', b', hp, ha, hb⟩ := h
  rw [ha, hb]
  exact Ptr.rawStrcmp_append_of_ne hne hp a' b'

theorem rawStrcmp_of_chars_eq (h : a.chars = b.chars) : Ptr.rawStrcmp a.mem b.mem = some 0 := by
  unfold mem
  rw [Ptr.rawStrcmp_append_nul a.nul_notMem b.nul_notMem, Option.some.injEq,
    rawStrcmp_eq_zero_iff a.nul_notMem b.nul_notMem]
  exact h

theorem FirstDiff.chars_ne (h : FirstDiff a b x y) : a.chars ≠ b.chars := by
  intro heq
  have hcmp := h.rawStrcmp
  rw [rawStrcmp_of_chars_eq heq, Option.some.injEq, eq_comm, charDiff_eq_zero_iff] at hcmp
  exact h.1 hcmp

theorem length_le_of_mem_eq {p a' : List UInt8} (hp : 0 ∉ p) (ha : a.mem = p ++ x :: a') :
    p.length ≤ a.chars.length := by
  by_contra hlt
  have hget : p[a.chars.length]? = some 0 := by
    have hmem : (p ++ x :: a')[a.chars.length]? = some 0 := by
      rw [← ha]
      unfold mem
      rw [List.getElem?_append_right (Nat.le_refl _), Nat.sub_self]
      rfl
    rwa [List.getElem?_append_left (by omega)] at hmem
  exact hp (List.mem_of_getElem? hget)

theorem FirstDiff.kstrncmp (h : FirstDiff a b x y) (hn : a.chars.length ≤ n) :
    Ptr.kstrncmp n a.mem b.mem = some (charDiff x y) := by
  obtain ⟨hne, p, a', b', hp, ha, hb⟩ := h
  have hle := length_le_of_mem_eq hp ha
  rw [ha, hb]
  exact Ptr.kstrncmp_append_of_ne hne (Nat.le_trans hle hn) a' b'

theorem compares_of_firstDiff (h : FirstDiff a b x y) : Compares a b (charDiff x y) := by
  constructor
  · rw [charDiff_eq_zero_iff]
    exact ⟨fun hxy => absurd hxy h.1, fun heq => absurd heq h.chars_ne⟩
  · intro x' y' h'
    have hcmp := h.rawStrcmp
    rw [h'.rawStrcmp, Option.some.injEq] at hcmp
    exact hcmp.symm

theorem compares_iff_of_chars_eq (h : a.chars = b.chars) {r : Int} : Compares a b r ↔ r = 0 := by
  constructor
  · intro hr
    exact hr.1.mpr h
  · rintro rfl
    exact ⟨iff_of_true rfl h, fun x y hdiff => absurd h hdiff.chars_ne⟩

/-! ## `kstrcmp` -/

theorem length_le_of_kstrlen {s : CStr} (h : Ptr.kstrlen s.mem = some n) : s.chars.length ≤ n := by
  by_cases hnil : s.chars = []
  · rw [hnil]
    exact Nat.zero_le n
  · rw [Ptr.kstrlen_mem hnil, Option.some.injEq] at h
    exact Nat.le_of_eq h

theorem kstrcmp_of_ne {m : Nat} (h : FirstDiff a b x y) (ha : Ptr.kstrlen a.mem = some n)
    (hb : Ptr.kstrlen b.mem = some m) : Ptr.kstrcmp a.mem b.mem = some (charDiff x y) := by
  unfold Ptr.kstrcmp
  rw [ha, hb]
  show (if n = m then Ptr.kstrncmp n a.mem b.mem else Ptr.rawStrcmp a.mem b.mem) = _
  split
  · exact h.kstrncmp (length_le_of_kstrlen ha)
  · exact h.rawStrcmp

theorem kstrcmp_mem (ha : a.chars ≠ []) (hb : b.chars ≠ []) :
    Ptr.kstrcmp a.mem b.mem = some (kstrcmp a.chars b.chars) := by
  unfold Ptr.kstrcmp kstrcmp kstrlen
  rw [Ptr.kstrlen_mem ha, Ptr.kstrlen_mem hb]
  show (if a.chars.length = b.chars.length then _ else _) = _
  split
  · rename_i hlen
    exact Ptr.kstrncmp_append_nul (Nat.le_refl _) (Nat.le_of_eq hlen) a.tail b.tail
  · exact Ptr.rawStrcmp_append_nul a.nul_notMem b.nul_notMem a.tail b.tail

theorem kstrcmp_of_chars_eq (h : a.chars = b.chars) (hne : a.chars ≠ []) :
    Ptr.kstrcmp a.mem b.mem = some 0 := by
  rw [kstrcmp_mem hne (h ▸ hne), Option.some.injEq,
    kstrcmp_eq_zero_iff a.nul_notMem b.nul_notMem]
  exact h

theorem kstrcmp_of_nil (ha : a.chars = []) (hb : b.chars = []) (hna : 0 ∈ a.tail)
    (hnb : 0 ∈ b.tail) : Ptr.kstrcmp a.mem b.mem = some 0 ↔
      ((Ptr.text a.tail).length = (Ptr.text b.tail).length →
        Ptr.text a.tail = Ptr.text b.tail) := by
  unfold Ptr.kstrcmp
  rw [Ptr.kstrlen_mem_of_nil ha, Ptr.kstrlen_mem_of_nil hb, Ptr.kstrlenLoop_eq_text hna,
    Ptr.kstrlenLoop_eq_text hnb]
  show (if (Ptr.text a.tail).length + 1 = (Ptr.text b.tail).length + 1 then
    Ptr.kstrncmp ((Ptr.text a.tail).length + 1) a.mem b.mem else Ptr.rawStrcmp a.mem b.mem) =
      some 0 ↔ _
  split
  · rename_i hlen
    obtain ⟨ra, hra, _⟩ := Ptr.eq_text_append hna
    obtain ⟨rb, hrb, _⟩ := Ptr.eq_text_append hnb
    have hmemA : a.mem = (0 :: Ptr.text a.tail) ++ 0 :: ra := by
      rw [mem_of_nil ha, List.cons_append, ← hra]
    have hmemB : b.mem = (0 :: Ptr.text b.tail) ++ 0 :: rb := by
      rw [mem_of_nil hb, List.cons_append, ← hrb]
    have hlen' : (0 :: Ptr.text a.tail).length = (0 :: Ptr.text b.tail).length := hlen
    rw [hmemA, hmemB]
    show Ptr.kstrncmp (0 :: Ptr.text a.tail).length _ _ = _ ↔ _
    rw [Ptr.kstrncmp_append_nul_iff hlen', List.cons.injEq]
    exact ⟨fun h _ => h.2, fun h => ⟨rfl, h (Nat.succ.inj hlen)⟩⟩
  · rename_i hlen
    rw [rawStrcmp_of_chars_eq (ha.trans hb.symm)]
    exact ⟨fun _ h => absurd (congrArg Nat.succ h) hlen, fun _ => rfl⟩

theorem kstrcmp_eq_none (h : Ptr.kstrlen a.mem = none ∨ Ptr.kstrlen b.mem = none) :
    Ptr.kstrcmp a.mem b.mem = none := by
  unfold Ptr.kstrcmp
  cases hlen : Ptr.kstrlen a.mem with
  | none => rfl
  | some n =>
    rw [hlen] at h
    rw [h.resolve_left (Option.some_ne_none n)]
    rfl

/-- `kstrcmp` compares two strings, unless both are empty and followed by different texts of
the same length.  An empty string has to be followed by one more NUL. -/
theorem kstrcmp_compares_iff (a b : CStr) :
    (∃ r, Ptr.kstrcmp a.mem b.mem = some r ∧ Compares a b r) ↔
      (a.chars = [] → 0 ∈ a.tail) ∧ (b.chars = [] → 0 ∈ b.tail) ∧
        (a.chars = [] → b.chars = [] →
          (Ptr.text a.tail).length = (Ptr.text b.tail).length →
            Ptr.text a.tail = Ptr.text b.tail) := by
  constructor
  · intro h
    obtain ⟨r, hr, hcompares⟩ := h
    have hnul : ∀ s : CStr, Ptr.kstrlen s.mem ≠ none → s.chars = [] → 0 ∈ s.tail := by
      intro s hlen hnil
      by_contra hmem
      exact hlen (Ptr.kstrlen_mem_eq_none hnil hmem)
    have hlens : ¬ (Ptr.kstrlen a.mem = none ∨ Ptr.kstrlen b.mem = none) := by
      intro hnone
      rw [kstrcmp_eq_none hnone] at hr
      cases hr
    rw [not_or] at hlens
    refine ⟨hnul a hlens.1, hnul b hlens.2, ?_⟩
    intro ha hb
    rw [compares_iff_of_chars_eq (ha.trans hb.symm)] at hcompares
    rw [hcompares] at hr
    exact (kstrcmp_of_nil ha hb (hnul a hlens.1 ha) (hnul b hlens.2 hb)).mp hr
  · intro h
    obtain ⟨ha, hb, htext⟩ := h
    obtain ⟨n, hn⟩ := Ptr.kstrlen_mem_isSome ha
    obtain ⟨m, hm⟩ := Ptr.kstrlen_mem_isSome hb
    by_cases heq : a.chars = b.chars
    · refine ⟨0, ?_, (compares_iff_of_chars_eq heq).mpr rfl⟩
      by_cases hnil : a.chars = []
      · have hnil' : b.chars = [] := heq.symm.trans hnil
        exact (kstrcmp_of_nil hnil hnil' (ha hnil) (hb hnil')).mpr (htext hnil hnil')
      · exact kstrcmp_of_chars_eq heq hnil
    · obtain ⟨x, y, hdiff⟩ := exists_firstDiff heq
      exact ⟨charDiff x y, kstrcmp_of_ne hdiff hn hm, compares_of_firstDiff hdiff⟩

/-- Two empty strings that are not equal for `kstrcmp`, since an `x` follows the one and a
`y` the other. -/
theorem kstrcmp_empty_strings : Ptr.kstrcmp (mem ⟨[], List.not_mem_nil, [0x78, 0]⟩)
        (mem ⟨[], List.not_mem_nil, [0x79, 0]⟩) = some (-1) ∧
      ¬ Compares ⟨[], List.not_mem_nil, [0x78, 0]⟩ ⟨[], List.not_mem_nil, [0x79, 0]⟩ (-1) := by
  refine ⟨by decide, ?_⟩
  intro h
  exact absurd (h.1.mpr rfl) (by decide)

end CStr

end Koowaldah
