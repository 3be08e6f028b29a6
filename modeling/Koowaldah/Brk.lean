import Koowaldah.MemArea.Basic

/-!
# The break of the heap

A model of `kernel/brk.c`.  The break is `m_start + m_sizelim` of the heap area.  `sbrk` moves
it by an increment, and `brk` is to set it.  `brk` passes the distance of the new break from
`m_start` to `sbrk`, which adds it to the limit that is there, so the call sets the break only
while the limit is 0.
-/

namespace Koowaldah

def USERMEM_HEAPLIM : Nat := 0x00080000

/-- The fields of the heap area that the calls read. -/
structure HeapMma where
  mStart : Nat
  mSizelim : Nat
deriving DecidableEq, Repr

namespace HeapMma

/-- `sbrk`.  `none` is `(void *)-1`. -/
def sbrk (inc : Nat) (mma : HeapMma) : Option Nat × HeapMma :=
  if addWord mma.mSizelim inc ≤ USERMEM_HEAPLIM then
    (some (addWord mma.mStart (addWord mma.mSizelim inc)),
      { mma with mSizelim := addWord mma.mSizelim inc })
  else (none, mma)

def brk (newEnd : Nat) (mma : HeapMma) : Option Nat × HeapMma :=
  if newEnd = 0 then (some mma.mStart, mma)
  else mma.sbrk (subWord newEnd mma.mStart)

end HeapMma

inductive BrkCall where
  | brk (newEnd : Nat)
  | sbrk (inc : Nat)
deriving DecidableEq, Repr

namespace HeapMma

def call (mma : HeapMma) : BrkCall → HeapMma
  | .brk newEnd => (mma.brk newEnd).2
  | .sbrk inc => (mma.sbrk inc).2

section Calls

variable {mma : HeapMma}

theorem sbrk_start (inc : Nat) (mma : HeapMma) : (mma.sbrk inc).2.mStart = mma.mStart := by
  unfold sbrk
  split <;> rfl

theorem sbrk_limit (inc : Nat) (hlim : mma.mSizelim ≤ USERMEM_HEAPLIM) :
    (mma.sbrk inc).2.mSizelim ≤ USERMEM_HEAPLIM := by
  unfold sbrk
  split
  · assumption
  · exact hlim

theorem brk_limit (newEnd : Nat) (hlim : mma.mSizelim ≤ USERMEM_HEAPLIM) :
    (mma.brk newEnd).2.mSizelim ≤ USERMEM_HEAPLIM := by
  unfold brk
  split
  · exact hlim
  · exact sbrk_limit _ hlim

theorem call_limit (c : BrkCall) (hlim : mma.mSizelim ≤ USERMEM_HEAPLIM) :
    (mma.call c).mSizelim ≤ USERMEM_HEAPLIM := by
  cases c with
  | brk newEnd => exact brk_limit newEnd hlim
  | sbrk inc => exact sbrk_limit inc hlim

theorem call_start (c : BrkCall) (mma : HeapMma) : (mma.call c).mStart = mma.mStart := by
  cases c with
  | brk newEnd =>
    show (mma.brk newEnd).2.mStart = mma.mStart
    unfold brk
    split
    · rfl
    · exact sbrk_start _ mma
  | sbrk inc => exact sbrk_start inc mma

/-- No sequence of calls moves the start, or takes the limit past `USERMEM_HEAPLIM`. -/
theorem run_limit (calls : List BrkCall) (hlim : mma.mSizelim ≤ USERMEM_HEAPLIM) :
    (calls.foldl call mma).mStart = mma.mStart ∧
      (calls.foldl call mma).mSizelim ≤ USERMEM_HEAPLIM := by
  induction calls generalizing mma with
  | nil => exact ⟨rfl, hlim⟩
  | cons c calls ih =>
    rcases ih (call_limit c hlim) with ⟨hstart, hlimit⟩
    exact ⟨hstart.trans (call_start c mma), hlimit⟩

end Calls

/-! ## Setting the break -/

section Break

variable {mma : HeapMma} {newEnd : Nat}

theorem brk_eq (hne : newEnd ≠ 0) (hword : newEnd < WORD_RANGE) (hstart : mma.mStart ≤ newEnd) :
    mma.brk newEnd = mma.sbrk (newEnd - mma.mStart) := by
  unfold brk
  rw [if_neg hne, subWord_of_le hstart hword]

/-- An address within the limit becomes the break only when the limit was 0. -/
theorem brk_sets_iff (hne : newEnd ≠ 0) (hword : newEnd < WORD_RANGE)
    (hlim : mma.mSizelim ≤ USERMEM_HEAPLIM) (hstart : mma.mStart ≤ newEnd)
    (hend : newEnd ≤ mma.mStart + USERMEM_HEAPLIM) : ((mma.brk newEnd).1 = some newEnd ∧
      (mma.brk newEnd).2.mStart + (mma.brk newEnd).2.mSizelim = newEnd) ↔
      mma.mSizelim = 0 := by
  have hsum : addWord mma.mSizelim (newEnd - mma.mStart) =
      mma.mSizelim + (newEnd - mma.mStart) := by
    apply Nat.mod_eq_of_lt
    unfold USERMEM_HEAPLIM WORD_RANGE at *
    omega
  rw [brk_eq hne hword hstart]
  unfold sbrk
  rw [hsum]
  constructor
  · intro h
    split at h
    · have hbreak : mma.mStart + (mma.mSizelim + (newEnd - mma.mStart)) = newEnd := h.2
      omega
    · cases h.1
  · intro hzero
    have hnew : mma.mSizelim + (newEnd - mma.mStart) = newEnd - mma.mStart := by omega
    have hbreak : mma.mStart + (newEnd - mma.mStart) = newEnd := by omega
    rw [hnew, if_pos (by omega)]
    refine ⟨?_, hbreak⟩
    show some (addWord mma.mStart (newEnd - mma.mStart)) = some newEnd
    unfold addWord
    rw [hbreak, Nat.mod_eq_of_lt hword]

/-- An address past the limit is refused only when the sum does not wrap. -/
theorem brk_refuses_iff (hne : newEnd ≠ 0) (hword : newEnd < WORD_RANGE)
    (hlim : mma.mSizelim ≤ USERMEM_HEAPLIM) (hend : mma.mStart + USERMEM_HEAPLIM < newEnd) :
    mma.brk newEnd = (none, mma) ↔ mma.mSizelim + (newEnd - mma.mStart) < WORD_RANGE := by
  rw [brk_eq hne hword (by omega)]
  unfold sbrk
  constructor
  · intro h
    by_contra hwrap
    have hsum : addWord mma.mSizelim (newEnd - mma.mStart) ≤ USERMEM_HEAPLIM := by
      unfold addWord
      rw [Nat.mod_eq_sub_mod (by omega), Nat.mod_eq_of_lt (by omega)]
      omega
    rw [if_pos hsum] at h
    exact nomatch (Prod.mk.inj h).1
  · intro hfits
    have hsum : addWord mma.mSizelim (newEnd - mma.mStart) =
        mma.mSizelim + (newEnd - mma.mStart) := Nat.mod_eq_of_lt hfits
    rw [if_neg (by omega)]

end Break

structure BrkOk (newEnd : Nat) (mma : HeapMma) : Prop where
  sets : mma.mStart ≤ newEnd → newEnd ≤ mma.mStart + USERMEM_HEAPLIM →
    (mma.brk newEnd).1 = some newEnd ∧
      (mma.brk newEnd).2.mStart + (mma.brk newEnd).2.mSizelim = newEnd
  refuses : mma.mStart + USERMEM_HEAPLIM < newEnd → mma.brk newEnd = (none, mma)
  limit : (mma.brk newEnd).2.mSizelim ≤ USERMEM_HEAPLIM

/-- After any calls the limit is not past `USERMEM_HEAPLIM`, and `brk` does what it is to do
exactly when the limit is 0, or the address is past the limit and the sum of the old limit and
the distance does not wrap. -/
theorem brk_ok_iff (mma₀ : HeapMma) (hlim₀ : mma₀.mSizelim ≤ USERMEM_HEAPLIM) (calls : List BrkCall)
    (mma : HeapMma) (hmma : mma = calls.foldl call mma₀) (newEnd : Nat) (hne : newEnd ≠ 0)
    (hword : newEnd < WORD_RANGE) : mma.mSizelim ≤ USERMEM_HEAPLIM ∧
      (mma.BrkOk newEnd ↔
        (mma.mStart ≤ newEnd → newEnd ≤ mma.mStart + USERMEM_HEAPLIM → mma.mSizelim = 0) ∧
          (mma.mStart + USERMEM_HEAPLIM < newEnd →
            mma.mSizelim + (newEnd - mma.mStart) < WORD_RANGE)) := by
  have hlim : mma.mSizelim ≤ USERMEM_HEAPLIM := by
    rw [hmma]
    exact (run_limit calls hlim₀).2
  refine ⟨hlim, ?_⟩
  constructor
  · intro hok
    constructor
    · intro hstart hend
      exact (brk_sets_iff hne hword hlim hstart hend).mp (hok.sets hstart hend)
    · intro hend
      exact (brk_refuses_iff hne hword hlim hend).mp (hok.refuses hend)
  · intro hcond
    refine ⟨?_, ?_, brk_limit newEnd hlim⟩
    · intro hstart hend
      exact (brk_sets_iff hne hword hlim hstart hend).mpr (hcond.1 hstart hend)
    · intro hend
      exact (brk_refuses_iff hne hword hlim hend).mpr (hcond.2 hend)

theorem brk_ok_first : BrkOk 0x8001000 ⟨0x8000000, 0⟩ :=
  (brk_ok_iff ⟨0x8000000, 0⟩ (by decide) [] _ rfl 0x8001000 (by decide) (by decide)).2.mpr
    ⟨fun _ _ => rfl, fun _ => by decide⟩

/-- The second call with the same address moves the break on. -/
theorem brk_twice_wrong : [BrkCall.brk 0x8001000].foldl call ⟨0x8000000, 0⟩ = ⟨0x8000000, 0x1000⟩ ∧
      ¬ BrkOk 0x8001000 ⟨0x8000000, 0x1000⟩ := by
  refine ⟨by decide, ?_⟩
  intro hok
  exact absurd (hok.sets (by decide) (by decide)) (by decide)

end HeapMma

end Koowaldah
