import Koowaldah.Fs.Fd

/-!
# The range of `alloc_fd`

`alloc_fd` looks for a clear bit of `fdset` among the first `last_fd + 1` ones, and
`last_fd` goes up to `FS_MAX_FDS`.  So the search of a thread that has had its last
descriptor looks at one bit too many, the bit `FS_MAX_FDS`, which `thread_create` does not
clear.
-/

namespace Koowaldah

open SysLib

/-- A descriptor table, and the descriptors that `alloc_fd` has returned and that have not
been given back. -/
structure FdAlloc where
  table : FdTable
  held : List Nat

inductive FdAllocCall where
  | alloc
  | free (fd : Nat)
deriving DecidableEq, Repr

namespace FdAlloc

/-- The thread that `thread_create` makes.  `mem` is what was in memory before. -/
def threadCreate (mem : Words) : FdAlloc := ⟨FdTable.threadCreate mem, []⟩

/-- One call.  Only descriptors that are held are given back. -/
def call (s : FdAlloc) : FdAllocCall → Option FdAlloc
  | .alloc =>
    match s.table.allocFd with
    | (t, .ofNat fd) => some ⟨t, fd :: s.held⟩
    | (t, .negSucc _) => some ⟨t, s.held⟩
  | .free fd => if fd ∈ s.held then some ⟨s.table.freeFd fd, s.held.erase fd⟩ else none

def Exhausted (s : FdAlloc) : Prop := ∀ fd < FS_MAX_FDS, fd ∈ s.held

def Smallest (s : FdAlloc) (fd : Nat) : Prop :=
  fd < FS_MAX_FDS ∧ fd ∉ s.held ∧ ∀ b < fd, b ∈ s.held

/-- What `alloc_fd` is to return: the smallest descriptor that is not held, and an error when
all of them are. -/
def InRange (s : FdAlloc) : FdAllocCall → Prop
  | .alloc => (∀ fd : Nat, s.table.allocFd.2 = fd → s.Smallest fd) ∧
      (s.table.allocFd.2 < 0 ↔ s.Exhausted)
  | .free _ => True

/-- The condition on a call of `alloc_fd`: when all the descriptors are held, the bit behind
theirs is set. -/
def NextBitSet (s : FdAlloc) : FdAllocCall → Prop
  | .alloc => s.Exhausted → bitAt s.table.fdset 0 FS_MAX_FDS = true
  | .free _ => True

end FdAlloc

/-! ## One call -/

theorem allocFd_of_some {t : FdTable} {fd : Nat}
    (hseek : bitmapSeekUnset t.fdset 0 (t.lastFd + 1) = some fd) :
    t.allocFd.2 = fd ∧ t.allocFd.1.fdset = bitmapBitSet t.fdset 0 fd ∧
      t.allocFd.1.lastFd = if fd = t.lastFd ∧ t.lastFd < FS_MAX_FDS then t.lastFd + 1
        else t.lastFd := by
  unfold FdTable.allocFd
  rw [hseek]
  dsimp only
  split <;> exact ⟨rfl, rfl, rfl⟩

theorem allocFd_of_none {t : FdTable}
    (hseek : bitmapSeekUnset t.fdset 0 (t.lastFd + 1) = none) : t.allocFd = (t, -EBADF) := by
  unfold FdTable.allocFd
  rw [hseek]

theorem FdAlloc.call_alloc {s : FdAlloc} {fd : Nat} (hret : s.table.allocFd.2 = fd) :
    s.call .alloc = some ⟨s.table.allocFd.1, fd :: s.held⟩ := by
  have hpair : s.table.allocFd = (s.table.allocFd.1, Int.ofNat fd) := Prod.ext rfl hret
  unfold FdAlloc.call
  rw [hpair]

/-- The bits below `FS_MAX_FDS` are those of the descriptors that are held, and the mark is
above all of these. -/
structure FdAllocInv (s : FdAlloc) : Prop where
  nodup : s.held.Nodup
  held_lt : ∀ fd ∈ s.held, fd < FS_MAX_FDS
  bit : ∀ fd < FS_MAX_FDS, bitAt s.table.fdset 0 fd = true ↔ fd ∈ s.held
  mark_le : s.table.lastFd ≤ FS_MAX_FDS
  mark : ∀ fd ∈ s.held, fd < s.table.lastFd

namespace FdAllocInv

variable {s s' : FdAlloc}

theorem threadCreate (mem : Words) : FdAllocInv (FdAlloc.threadCreate mem) where
  nodup := List.nodup_nil
  held_lt := nofun
  bit fd hfd := by
    show bitAt (bitmapZero mem 0 FS_MAX_FDS) 0 fd = true ↔ fd ∈ []
    have hword : fd / BITS_PER_LONG < FS_MAX_FDS / BITS_PER_LONG := by
      unfold FS_MAX_FDS BITS_PER_LONG at *
      omega
    rw [bitAt_bitmapZero]
    simp [hword]
  mark_le := Nat.zero_le _
  mark := nofun

theorem alloc_smallest (h : FdAllocInv s) {fd : Nat}
    (hseek : bitmapSeekUnset s.table.fdset 0 (s.table.lastFd + 1) = some fd)
    (hfd : fd < FS_MAX_FDS) : s.Smallest fd := by
  obtain ⟨-, hclear, hbelow⟩ := bitmapSeekUnset_some hseek
  refine ⟨hfd, ?_, ?_⟩
  · intro hheld
    rw [(h.bit fd hfd).mpr hheld] at hclear
    cases hclear
  · intro b hb
    exact (h.bit b (by omega)).mp (hbelow b hb)

/-- What the search comes to: a descriptor that is not held, or the bit behind the last one,
or nothing when that bit is set too. -/
theorem seek_cases (h : FdAllocInv s) :
    (∃ fd, bitmapSeekUnset s.table.fdset 0 (s.table.lastFd + 1) = some fd ∧ s.Smallest fd ∧
        ¬s.Exhausted) ∨
      (bitmapSeekUnset s.table.fdset 0 (s.table.lastFd + 1) = some FS_MAX_FDS ∧ s.Exhausted ∧
        bitAt s.table.fdset 0 FS_MAX_FDS = false) ∨
      (bitmapSeekUnset s.table.fdset 0 (s.table.lastFd + 1) = none ∧ s.Exhausted ∧
        bitAt s.table.fdset 0 FS_MAX_FDS = true) := by
  have hle := h.mark_le
  cases hseek : bitmapSeekUnset s.table.fdset 0 (s.table.lastFd + 1) with
  | some fd =>
    obtain ⟨hlt, hclear, hbelow⟩ := bitmapSeekUnset_some hseek
    by_cases hfd : fd < FS_MAX_FDS
    · have hsmall := h.alloc_smallest hseek hfd
      exact Or.inl ⟨fd, rfl, hsmall, fun hall => hsmall.2.1 (hall fd hfd)⟩
    · obtain rfl : fd = FS_MAX_FDS := by omega
      exact Or.inr (Or.inl ⟨rfl, fun b hb => (h.bit b hb).mp (hbelow b hb), hclear⟩)
  | none =>
    have hset := bitmapSeekUnset_none hseek
    -- the bit at the mark is clear when it is one of the descriptors
    have hmark : s.table.lastFd = FS_MAX_FDS := by
      by_contra hne
      have hlt : s.table.lastFd < FS_MAX_FDS := by omega
      have hheld := (h.bit _ hlt).mp (hset s.table.lastFd (Nat.lt_succ_self _))
      exact Nat.lt_irrefl _ (h.mark _ hheld)
    refine Or.inr (Or.inr ⟨rfl, ?_, hset _ (by omega)⟩)
    intro b hb
    exact (h.bit b hb).mp (hset b (by omega))

/-- `alloc_fd` stays in range if and only if the bit behind the last descriptor is set when
all of them are held. -/
theorem alloc_iff (h : FdAllocInv s) : s.InRange .alloc ↔ s.NextBitSet .alloc := by
  show (_ ∧ _) ↔ (_ → _)
  rcases h.seek_cases with ⟨fd, hseek, hsmall, hnot⟩ | ⟨hseek, hall, hclear⟩ | ⟨hseek, hall, hset⟩
  · have hret := (allocFd_of_some hseek).1
    refine iff_of_true ⟨?_, ?_⟩ (fun hall => absurd hall hnot)
    · intro b hb
      obtain rfl : b = fd := by omega
      exact hsmall
    · exact iff_of_false (by omega) hnot
  · have hret := (allocFd_of_some hseek).1
    refine iff_of_false ?_ ?_
    · intro hrange
      exact Nat.lt_irrefl _ (hrange.1 _ hret).1
    · intro hset
      rw [hset hall] at hclear
      cases hclear
  · have hret : s.table.allocFd.2 = -EBADF := by rw [allocFd_of_none hseek]
    have hneg : s.table.allocFd.2 < 0 := by
      rw [hret]
      decide
    refine iff_of_true ⟨?_, iff_of_true hneg hall⟩ (fun _ => hset)
    intro fd hfd
    omega

theorem add (h : FdAllocInv s) {t : FdTable} {fd : Nat} (hsmall : s.Smallest fd)
    (hset : t.fdset = bitmapBitSet s.table.fdset 0 fd) (hle : s.table.lastFd ≤ t.lastFd)
    (hmark : t.lastFd ≤ FS_MAX_FDS) (hlt : fd < t.lastFd) :
    FdAllocInv ⟨t, fd :: s.held⟩ where
  nodup := List.nodup_cons.mpr ⟨hsmall.2.1, h.nodup⟩
  held_lt := List.forall_mem_cons.mpr ⟨hsmall.1, h.held_lt⟩
  bit b hb := by
    have hbit := h.bit b hb
    simp [hset, bitAt_bitmapBitSet, hbit]
  mark_le := hmark
  mark := List.forall_mem_cons.mpr ⟨hlt, fun b hb => Nat.lt_of_lt_of_le (h.mark b hb) hle⟩

theorem alloc (h : FdAllocInv s) (hcond : s.NextBitSet .alloc)
    (hcall : s.call .alloc = some s') : FdAllocInv s' := by
  rcases h.seek_cases with ⟨fd, hseek, hsmall, -⟩ | ⟨-, hall, hclear⟩ | ⟨hseek, -, -⟩
  · obtain ⟨hret, hset, hmark⟩ := allocFd_of_some hseek
    have hfd := (bitmapSeekUnset_some hseek).1
    have hlt := hsmall.1
    have hle := h.mark_le
    rw [FdAlloc.call_alloc hret] at hcall
    cases hcall
    split at hmark
    · exact h.add hsmall hset (by omega) (by omega) (by omega)
    · exact h.add hsmall hset (by omega) (by omega) (by omega)
  · rw [hcond hall] at hclear
    cases hclear
  · unfold FdAlloc.call at hcall
    rw [allocFd_of_none hseek] at hcall
    obtain rfl : s = s' := Option.some.inj hcall
    exact h

theorem free (h : FdAllocInv s) {fd : Nat} (hcall : s.call (.free fd) = some s') :
    FdAllocInv s' := by
  obtain ⟨hheld, heq⟩ := Option.ite_none_right_eq_some.mp hcall
  cases heq
  have hsub : ∀ b ∈ s.held.erase fd, b ∈ s.held := fun b hb => List.mem_of_mem_erase hb
  constructor
  · exact h.nodup.erase fd
  · exact fun b hb => h.held_lt b (hsub b hb)
  · intro b hb
    show bitAt (bitmapBitClear s.table.fdset 0 fd) 0 b = true ↔ b ∈ s.held.erase fd
    rw [bitAt_bitmapBitClear, h.nodup.mem_erase_iff, ← h.bit b hb]
    simp
  · exact h.mark_le
  · exact fun b hb => h.mark b (hsub b hb)

end FdAllocInv

/-! ## Sequences of calls -/

/-- When `alloc_fd` stays in range.  In every sequence of calls of `alloc_fd` and `free_fd`,
from the table that `thread_create` makes on and whatever memory it makes it in, `alloc_fd`
returns the smallest descriptor below `FS_MAX_FDS` that is not held, and an error when there
is none, if and only if the bit `FS_MAX_FDS` is set whenever it is called with all of them
held. -/
theorem allocFd_inRange_iff (mem : Words) (calls : List FdAllocCall) :
    Meets FdAlloc.call FdAlloc.InRange (FdAlloc.threadCreate mem) calls ↔
      Meets FdAlloc.call FdAlloc.NextBitSet (FdAlloc.threadCreate mem) calls := by
  refine meets_congr FdAllocInv ?_ ?_ (FdAllocInv.threadCreate mem)
  · intro s c hinv
    cases c with
    | alloc => exact hinv.alloc_iff
    | free fd => exact Iff.rfl
  · intro s c s' hinv hcond hcall
    cases c with
    | alloc => exact hinv.alloc hcond hcall
    | free fd => exact hinv.free hcall

theorem run_alloc (mem : Words) {n : Nat} (hn : n ≤ FS_MAX_FDS) :
    ∃ s, run FdAlloc.call (FdAlloc.threadCreate mem) (List.replicate n .alloc) = some s ∧
      FdAllocInv s ∧ (∀ fd, fd ∈ s.held ↔ fd < n) ∧
      bitAt s.table.fdset 0 FS_MAX_FDS = bitAt mem 0 FS_MAX_FDS := by
  induction n with
  | zero =>
    refine ⟨_, rfl, FdAllocInv.threadCreate mem, fun fd => ?_, ?_⟩
    · exact iff_of_false nofun (Nat.not_lt_zero fd)
    · show bitAt (bitmapZero mem 0 FS_MAX_FDS) 0 FS_MAX_FDS = _
      rw [bitAt_bitmapZero]
      simp [FS_MAX_FDS, BITS_PER_LONG]
  | succ n ih =>
    obtain ⟨s, hrun, hinv, hheld, hbit⟩ := ih (by omega)
    have hnot : ¬s.Exhausted := fun hall => Nat.lt_irrefl n ((hheld n).mp (hall n hn))
    rcases hinv.seek_cases with ⟨fd, hseek, hsmall, -⟩ | ⟨-, hall, -⟩ | ⟨-, hall, -⟩
    · obtain ⟨hret, hset, -⟩ := allocFd_of_some hseek
      -- the smallest descriptor that is not held is `n`
      obtain rfl : fd = n := by
        have hge : ¬fd < n := fun hlt => hsmall.2.1 ((hheld fd).mpr hlt)
        have hle : ¬n < fd := fun hlt => Nat.lt_irrefl n ((hheld n).mp (hsmall.2.2 n hlt))
        omega
      have hcall := FdAlloc.call_alloc hret
      refine ⟨⟨s.table.allocFd.1, fd :: s.held⟩, ?_, ?_, ?_, ?_⟩
      · rw [List.replicate_succ', run_append_eq_some]
        exact ⟨s, hrun, by rw [run_cons, hcall]; rfl⟩
      · exact hinv.alloc (fun hall => absurd hall hnot) hcall
      · intro b
        simp only [List.mem_cons, hheld]
        omega
      · have hne : FS_MAX_FDS ≠ fd := by omega
        simp [hset, bitAt_bitmapBitSet, hne, hbit]
    · exact absurd hall hnot
    · exact absurd hall hnot

/-- A thread in cleared memory that has all the descriptors is given the descriptor 256. -/
theorem allocFd_returns_256 : ∃ s, run FdAlloc.call (FdAlloc.threadCreate (fun _ => 0#32))
        (List.replicate FS_MAX_FDS .alloc) = some s ∧
      s.Exhausted ∧ s.table.allocFd.2 = 256 ∧ ¬s.InRange .alloc := by
  obtain ⟨s, hrun, hinv, hheld, hbit⟩ := run_alloc (fun _ => 0#32) (Nat.le_refl FS_MAX_FDS)
  have hall : s.Exhausted := fun fd hfd => (hheld fd).mpr hfd
  have hclear : bitAt s.table.fdset 0 FS_MAX_FDS = false := hbit
  refine ⟨s, hrun, hall, ?_, ?_⟩
  · rcases hinv.seek_cases with ⟨fd, -, -, hnot⟩ | ⟨hseek, -, -⟩ | ⟨-, -, hset⟩
    · exact absurd hall hnot
    · exact (allocFd_of_some hseek).1
    · rw [hset] at hclear
      cases hclear
  · rw [hinv.alloc_iff]
    intro hcond
    rw [hcond hall] at hclear
    cases hclear

end Koowaldah
