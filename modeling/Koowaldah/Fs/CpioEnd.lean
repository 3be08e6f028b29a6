import Koowaldah.Fs.Unpack
import Koowaldah.Lib.Run

/-!
# When the loop of `cpio_read` is over

The loop of `cpio_read` looks for the next header, inserts its entry and steps over it.
How far it steps is read from the header: the length of the name, and for a file the
length of the body.  Both are summed with an address, and the sum is 32 bits wide, so
the next `t` need not be behind the header.

`cpioRead_ends_iff` says that the cursor goes up from each header to the next, and the
loop is over after a number of rounds, exactly when no sum wraps to a place at or below
its header.

`cpioRead_ends_empty` is an archive that is read to its end, and `cpioRead_forever` is the
same archive with another length in the header, which is visited again in each round.
-/

namespace Koowaldah

open SysLib

/-- The header that a round from `t` finds. -/
def cpioHeader (mem : ByteMem) (reverse : Bool) (rootfsEnd t : Nat) : Nat :=
  cpioSync mem reverse (rootfsEnd - t) t

/-- What is added to the address of a header: its own length, the length of the name,
and for an entry with a body the length of that. -/
def entrySpan (mem : ByteMem) (reverse : Bool) (t : Nat) : Nat :=
  let mode := cpio2u16 mem reverse (t + 6)
  let fsize := cpio2u16 mem reverse (t + 22) <<< 16 ||| cpio2u16 mem reverse (t + 24)
  SIZEOF_HD_BCPIO + ALIGN2 (cpio2u16 mem reverse (t + 20)) +
    if !S_ISCHR mode && !S_ISDIR mode then ALIGN2 fsize else 0

/-! ## One round -/

theorem cpioSync_bounds (mem : ByteMem) (reverse : Bool) (n t : Nat) :
    t ≤ cpioSync mem reverse n t ∧ cpioSync mem reverse n t ≤ t + n := by
  induction n generalizing t with
  | zero => exact ⟨le_rfl, le_rfl⟩
  | succ n ih =>
    rw [cpioSync]
    split
    · have := ih (t + 1)
      omega
    · omega

theorem cpioHeader_bounds (mem : ByteMem) (reverse : Bool) {rootfsEnd t : Nat}
    (ht : t < rootfsEnd) :
    t ≤ cpioHeader mem reverse rootfsEnd t ∧ cpioHeader mem reverse rootfsEnd t ≤ rootfsEnd := by
  have := cpioSync_bounds mem reverse (rootfsEnd - t) t
  unfold cpioHeader
  omega

theorem cpioRound_insert {mem : ByteMem} {reverse : Bool} {rootfsEnd t t' : Nat}
    {call : InsertCall} (h : cpioRound mem reverse rootfsEnd t = .insert call t') :
    t' = (cpioHeader mem reverse rootfsEnd t +
      entrySpan mem reverse (cpioHeader mem reverse rootfsEnd t)) % WORD_RANGE := by
  unfold cpioRound at h
  unfold entrySpan cpioHeader
  dsimp only at h ⊢
  split at h
  · cases h
  · split at h
    · cases h
    · split at h
      case isTrue hfile =>
        rw [if_pos hfile, ← (CpioRound.insert.inj h).2]
        simp [Nat.add_assoc]
      case isFalse hfile =>
        rw [if_neg hfile, ← (CpioRound.insert.inj h).2]
        simp [Nat.add_assoc]

/-- A sum that wraps at the width of an address is above its first summand when it does
not wrap, and what is added is not a multiple of the range. -/
theorem lt_wrap_iff {t n : Nat} (ht : t < WORD_RANGE) :
    t < (t + n) % WORD_RANGE ↔ 0 < n % WORD_RANGE ∧ t + n % WORD_RANGE < WORD_RANGE := by
  unfold WORD_RANGE at *
  omega

/-! ## The loop -/

section Loop

variable {σ : Type} (memOf : σ → ByteMem) (insert : σ → InsertCall → Option σ)
  (reverse : Bool) (rootfsEnd : Nat)

/-- A round of the loop that goes on: the state after the insertion, and the next `t`. -/
def cpioStep (st : σ × Nat) (_ : Unit) : Option (σ × Nat) :=
  if st.2 < rootfsEnd then
    match cpioRound (memOf st.1) reverse rootfsEnd st.2 with
    | .done _ => none
    | .insert call t => (insert st.1 call).map (fun s => (s, t))
  else none

/-- The next `t` is behind the header. -/
def CpioForward (st : σ × Nat) (_ : Unit) : Prop :=
  st.2 < rootfsEnd → ∀ call t,
    cpioRound (memOf st.1) reverse rootfsEnd st.2 = .insert call t →
      cpioHeader (memOf st.1) reverse rootfsEnd st.2 < t

/-- What is added to the address of the header is not zero in 32 bits, and the sum does
not wrap. -/
def CpioSpanFits (st : σ × Nat) (_ : Unit) : Prop :=
  st.2 < rootfsEnd → ∀ call t,
    cpioRound (memOf st.1) reverse rootfsEnd st.2 = .insert call t →
      let header := cpioHeader (memOf st.1) reverse rootfsEnd st.2
      let span := entrySpan (memOf st.1) reverse header % WORD_RANGE
      0 < span ∧ header + span < WORD_RANGE

/-- The insertion of the round returns. -/
def CpioInserts (st : σ × Nat) (_ : Unit) : Prop :=
  st.2 < rootfsEnd → ∀ call t,
    cpioRound (memOf st.1) reverse rootfsEnd st.2 = .insert call t → insert st.1 call ≠ none

/-- Every round that `cpio_read` comes to has the property. -/
def EveryRound (cond : σ × Nat → Unit → Prop) (s : σ) (t : Nat) : Prop :=
  ∀ n, Meets (cpioStep memOf insert reverse rootfsEnd) cond (s, t) (List.replicate n ())

variable {memOf insert reverse rootfsEnd} {s s' : σ} {t t' : Nat}

theorem cpioForward_iff (hend : rootfsEnd < WORD_RANGE) (st : σ × Nat) (u : Unit) :
    CpioForward memOf reverse rootfsEnd st u ↔ CpioSpanFits memOf reverse rootfsEnd st u := by
  refine forall_congr' (fun ht => forall₃_congr (fun call t' hround => ?_))
  have hheader := (cpioHeader_bounds (memOf st.1) reverse ht).2
  rw [cpioRound_insert hround]
  exact lt_wrap_iff (by omega)

theorem EveryRound.head {cond : σ × Nat → Unit → Prop}
    (h : EveryRound memOf insert reverse rootfsEnd cond s t) : cond (s, t) () :=
  (h 1).1

theorem EveryRound.tail {cond : σ × Nat → Unit → Prop}
    (h : EveryRound memOf insert reverse rootfsEnd cond s t)
    (hstep : cpioStep memOf insert reverse rootfsEnd (s, t) () = some (s', t')) :
    EveryRound memOf insert reverse rootfsEnd cond s' t' :=
  fun n => (h (n + 1)).2 (s', t') hstep

theorem EveryRound.cons {cond : σ × Nat → Unit → Prop} (hcond : cond (s, t) ())
    (h : ∀ s' t', cpioStep memOf insert reverse rootfsEnd (s, t) () = some (s', t') →
      EveryRound memOf insert reverse rootfsEnd cond s' t') :
    EveryRound memOf insert reverse rootfsEnd cond s t
  | 0 => trivial
  | n + 1 => ⟨hcond, fun st hst => h st.1 st.2 hst n⟩

/-- A loop that goes forward takes one round for a byte at most, and returns when its
insertions do. -/
theorem cpioLoop_ends {n : Nat} (hn : rootfsEnd - t < n)
    (h : EveryRound memOf insert reverse rootfsEnd (CpioForward memOf reverse rootfsEnd) s t) :
    ∃ out, cpioLoop memOf insert reverse rootfsEnd n s t = some out ∧
      (EveryRound memOf insert reverse rootfsEnd (CpioInserts memOf insert reverse rootfsEnd) s t →
        out.isSome) := by
  induction n generalizing s t with
  | zero => omega
  | succ n ih =>
    rw [cpioLoop]
    split
    case isFalse => exact ⟨_, rfl, fun _ => rfl⟩
    case isTrue ht =>
      split
      case h_1 => exact ⟨_, rfl, fun _ => rfl⟩
      case h_2 call t' hround =>
        cases hins : insert s call with
        | none => exact ⟨none, rfl, fun hret => absurd hins (hret.head ht call t' hround)⟩
        | some s' =>
          have hstep : cpioStep memOf insert reverse rootfsEnd (s, t) () = some (s', t') := by
            simp [cpioStep, ht, hround, hins]
          have hforward := h.head ht call t' hround
          have hheader := (cpioHeader_bounds (memOf s) reverse ht).1
          obtain ⟨out, hout, hret⟩ := ih (by dsimp only at hforward; omega) (h.tail hstep)
          exact ⟨out, hout, fun hins => hret (hins.tail hstep)⟩

end Loop

/-- `cpio_read` goes forward: from each header to the next the cursor is larger, and the
loop is over after a number of rounds.  It returns if the insertions do. -/
def CpioEnds {σ : Type} (memOf : σ → ByteMem) (insert : σ → InsertCall → Option σ)
    (rootfsStart rootfsEnd : Nat) (s : σ) : Prop :=
  let reverse := decide (cpio2ru16 (memOf s) rootfsStart = MAGIC)
  EveryRound memOf insert reverse rootfsEnd (CpioForward memOf reverse rootfsEnd) s rootfsStart ∧
    ∃ rounds out, cpioReadWith memOf insert rootfsStart rootfsEnd rounds s = some out ∧
      (EveryRound memOf insert reverse rootfsEnd (CpioInserts memOf insert reverse rootfsEnd)
        s rootfsStart → out.isSome)

/-- Whatever the archive is and whatever the insertions do, `cpio_read` goes forward
exactly when at each header it comes to the sum of the lengths stays above the header. -/
theorem cpioRead_ends_iff {σ : Type} (memOf : σ → ByteMem) (insert : σ → InsertCall → Option σ)
    (rootfsStart rootfsEnd : Nat) (hend : rootfsEnd < WORD_RANGE) (s : σ) :
    CpioEnds memOf insert rootfsStart rootfsEnd s ↔
      EveryRound memOf insert (decide (cpio2ru16 (memOf s) rootfsStart = MAGIC)) rootfsEnd
        (CpioSpanFits memOf (decide (cpio2ru16 (memOf s) rootfsStart = MAGIC)) rootfsEnd)
        s rootfsStart := by
  have hiff : ∀ reverse,
      EveryRound memOf insert reverse rootfsEnd (CpioForward memOf reverse rootfsEnd) s
          rootfsStart ↔
        EveryRound memOf insert reverse rootfsEnd (CpioSpanFits memOf reverse rootfsEnd) s
          rootfsStart := fun reverse =>
    forall_congr' (fun _ => meets_congr (fun _ => True)
      (fun st u _ => cpioForward_iff hend st u) (fun _ _ _ _ _ _ => trivial) trivial)
  constructor
  · intro h
    exact (hiff _).mp h.1
  · intro h
    have hforward := (hiff _).mpr h
    exact ⟨hforward, rootfsEnd - rootfsStart + 1, cpioLoop_ends (Nat.lt_succ_self _) hforward⟩

/-! ## An archive of one file -/

/-- An archive with a header that has the mode 0, the name `a` and a length of the body,
and the trailer behind the name. -/
def smallImage (size : Nat) : List UInt8 :=
  [MAGIC, 0, 0, 0, 0, 0, 0, 0, 0, 0, 2, size / 65536, size % 65536].flatMap (u16Bytes false) ++
    [0x61, 0] ++ cpioTrailer.encode false

/-- The tree of `fs_init`, with the archive at 4096. -/
def smallTree (size : Nat) : FsState :=
  { FsState.firstTree with mem := writeBytes (fun _ => 0) 4096 (smallImage size) }

/-- The tree with the entry of the archive. -/
def smallTree' (size : Nat) : FsState := ((smallTree size).fsAddEntry 0 [0x61] 0 NODEV).1

def smallCall (size : Nat) : InsertCall := ⟨[0x61], 0, NODEV, some 4124, size⟩

theorem smallTree_insert (size : Nat) :
    (smallTree size).insertCall (smallCall size) = some (smallTree' size) := by
  have hnew : (smallTree size).lookupPath [0x61] = some none :=
    show FsState.firstTree.lookupPath [0x61] = some none by decide +kernel
  show (smallTree size).fsInsertEntry [0x61] 0 NODEV (some 4124) size = _
  rw [FsState.fsInsertEntry, FsState.insertTarget, PathOps.insertTarget_result,
    FsState.run_lookupPath, hnew]
  rfl

theorem cpioRead_ends_empty : CpioEnds FsState.mem FsState.insertCall 4096 4162 (smallTree 0) := by
  have hspan : 0 < entrySpan (smallTree 0).mem false
        (cpioHeader (smallTree 0).mem false 4162 4096) % WORD_RANGE ∧
      cpioHeader (smallTree 0).mem false 4162 4096 + entrySpan (smallTree 0).mem false
        (cpioHeader (smallTree 0).mem false 4162 4096) % WORD_RANGE < WORD_RANGE := by
    decide +kernel
  apply (cpioRead_ends_iff FsState.mem FsState.insertCall 4096 4162 (by decide) (smallTree 0)).mpr
  refine .cons (fun _ _ _ _ => hspan) (fun s' t' hstep => ?_)
  obtain ⟨rfl, rfl⟩ := hstep
  refine .cons (fun _ call t h => ?_) (fun s' t' hstep => ?_)
  · cases h
  · cases hstep

/-! ## A header that is visited again -/

/-- A length that takes the cursor once around the address space. -/
def LOOP_SIZE : Nat := 4294967268

theorem smallTree_round :
    cpioRound (smallTree LOOP_SIZE).mem false 4162 4096 = .insert (smallCall LOOP_SIZE) 4096 := by
  decide +kernel

theorem cpioLoop_smallTree' (n : Nat) :
    cpioLoop FsState.mem FsState.insertCall false 4162 n (smallTree' LOOP_SIZE) 4096 = none := by
  induction n with
  | zero => rfl
  | succ n ih =>
    have hmem : (smallTree' LOOP_SIZE).mem = (smallTree LOOP_SIZE).mem := rfl
    rw [cpioLoop, hmem, smallTree_round]
    exact ih

/-- With a body of `2 ^ 32 - 28` bytes the header is read again in every round, and
`cpio_read` does not return. -/
theorem cpioRead_forever :
    cpioRound (smallTree LOOP_SIZE).mem false 4162 4096 = .insert (smallCall LOOP_SIZE) 4096 ∧
      (∀ rounds, (smallTree LOOP_SIZE).cpioRead 4096 4162 rounds = none) ∧
      ¬CpioEnds FsState.mem FsState.insertCall 4096 4162 (smallTree LOOP_SIZE) := by
  have hreverse : decide (cpio2ru16 (smallTree LOOP_SIZE).mem 4096 = MAGIC) = false := by
    decide +kernel
  have hnone : ∀ rounds, (smallTree LOOP_SIZE).cpioRead 4096 4162 rounds = none := by
    intro rounds
    show cpioReadWith FsState.mem FsState.insertCall 4096 4162 rounds (smallTree LOOP_SIZE) = none
    unfold cpioReadWith
    rw [hreverse]
    cases rounds with
    | zero => rfl
    | succ n =>
      rw [cpioLoop, smallTree_round]
      dsimp only
      rw [smallTree_insert]
      exact cpioLoop_smallTree' n
  refine ⟨smallTree_round, hnone, fun h => ?_⟩
  obtain ⟨rounds, out, hout, -⟩ := h.2
  cases (hnone rounds).symm.trans hout

end Koowaldah
