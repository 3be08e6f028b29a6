import Koowaldah.MemArea.Alloc

/-!
# Faults that make an area grow

A model of the part of `pf_handler` of `arch/i386/trap.c` that is run for a fault in user
mode, with `mem_area_is_hit` and `mem_area_hit_offset` of `include/mem_area.h`.  It looks for an
area that may reach the faulting address and grows it by the distance in pages.  Everything
else that the handler does ends in a `panic`.

`pfHandler_hits_iff` says when the address is in the area then.

The distance down to an address is measured from the first byte of the area and the distance
up from the first byte after it, and both are rounded up in the same way.  So going up an
address at the start of a page is not reached, unless it is the end of the area itself.
-/

namespace Koowaldah

open SysLib

def MemArea.PAGE_MASK : Nat := PAGE_SIZE - 1

def memAreaIsHit (mma : MemArea) (addr : Nat) : Bool :=
  decide (addr ≥ mma.mStart) && decide (addr < mma.mEnd)

/-- `mem_area_hit_offset`; `sizelim` is the `m_sizelim` of the area. -/
def memAreaHitOffset (mma : MemArea) (sizelim addr : Nat) : Nat :=
  if hasFlag mma.mFlags MMA_STACK then
    if addr ≥ subWord mma.mEnd sizelim ∧ addr < mma.mEnd then subWord mma.mStart addr
    else NOPAGE_ADDR
  else if hasFlag mma.mFlags MMA_GROWS then
    if addr ≥ mma.mStart ∧ addr < addWord mma.mStart sizelim then subWord addr mma.mEnd
    else NOPAGE_ADDR
  else NOPAGE_ADDR

/-- The pages that `pf_handler` asks for.  The sum with `PAGE_MASK` is an `unsigned long`. -/
def pfPages (dist : Nat) : Nat :=
  let dist := if dist = 0 then PAGE_SIZE else dist
  addWord dist MemArea.PAGE_MASK / PAGE_SIZE

namespace VmState

/-- The loop of `pf_handler` over the areas of the mapping.  The answer is the area that it
has grown; without one the fault is not recovered from. -/
def pfHandler (sizelim : Nat → Nat) (addr : Nat) :
    List Nat → VmState → Except VmFault (Option Nat × VmState)
  | [], s => .ok (none, s)
  | mma :: rest, s => do
    let r ← s.area mma
    let dist := memAreaHitOffset r (sizelim mma) addr
    if memAreaIsHit r addr = false ∧ dist ≠ NOPAGE_ADDR then
      let s ← s.memAreaGrow mma (pfPages dist)
      return (some mma, s)
    else pfHandler sizelim addr rest s

/-! ## What the handler does -/

/-- The handler makes one call of `mem_area_grow`, on an area that is missed and may reach the
address. -/
theorem pfHandler_eq_ok {sizelim : Nat → Nat} {addr a : Nat} {s s' : VmState} :
    ∀ {mmas : List Nat}, s.pfHandler sizelim addr mmas = .ok (some a, s') →
    ∃ r, s.areas a = some r ∧ memAreaIsHit r addr = false ∧
      memAreaHitOffset r (sizelim a) addr ≠ NOPAGE_ADDR ∧
      s.memAreaGrow a (pfPages (memAreaHitOffset r (sizelim a) addr)) = .ok s'
  | [], hop => nomatch (Prod.mk.inj (Except.ok.inj hop)).1
  | mma :: rest, hop => by
    obtain ⟨r, hr, hrest⟩ := bind_eq_ok.mp hop
    dsimp only at hrest
    split at hrest
    · rename_i hmiss
      obtain ⟨t, hgrow, hret⟩ := bind_eq_ok.mp hrest
      obtain ⟨hmma, rfl⟩ := Prod.mk.inj (Except.ok.inj hret)
      cases hmma
      exact ⟨r, area_eq_ok.mp hr, hmiss.1, hmiss.2, hgrow⟩
    · exact pfHandler_eq_ok hrest

theorem hasFlag_of_hitOffset {r : MemArea} {sizelim addr : Nat}
    (hdist : memAreaHitOffset r sizelim addr ≠ NOPAGE_ADDR) :
    hasFlag r.mFlags (MMA_GROWS ||| MMA_STACK) = true := by
  unfold memAreaHitOffset at hdist
  have hor : hasFlag r.mFlags (MMA_GROWS ||| MMA_STACK) =
      (hasFlag r.mFlags MMA_GROWS || hasFlag r.mFlags MMA_STACK) := by
    unfold hasFlag
    rw [Nat.and_or_distrib_left]
    simp [Nat.or_eq_zero_iff]
  rw [hor]
  split at hdist
  · rename_i hstack
    rw [hstack, Bool.or_true]
  · split at hdist
    · rename_i hgrows
      rw [hgrows, Bool.true_or]
    · exact absurd rfl hdist

theorem growLoop_record {a : Nat} {r : MemArea} : ∀ (n : Nat) {s s' : VmState},
    s.growLoop a n = .ok s' → s.areas a = some r → s'.areas a = some (MemArea.grown^[n] r) := by
  intro n
  induction n generalizing r with
  | zero =>
    intro s s' hop hr
    cases hop
    exact hr
  | succ n ih =>
    intro s s' hop hr
    obtain ⟨pg, t, rt, -, hadd, -, hloop⟩ := growLoop_succ_eq_ok hop
    obtain ⟨r₀, hr₀, ht⟩ := memAreaAddPage_eq hadd
    obtain rfl : r₀ = r := Option.some.inj (hr₀.symm.trans hr)
    refine ih hloop ?_
    show t.areas a = some r₀.grown
    rw [ht, rawMemAreaAddPage_eq]
    exact Function.update_self ..

end VmState

/-! ## Bounds -/

namespace MemArea

theorem grown_iterate_mFlags (r : MemArea) (n : Nat) : (grown^[n] r).mFlags = r.mFlags := by
  induction n with
  | zero => rfl
  | succ n ih => rw [Function.iterate_succ_apply', grown_mFlags, ih]

theorem stack_iterate {r : MemArea} (hstack : hasFlag r.mFlags MMA_STACK = true)
    (hstart : r.mStart < WORD_RANGE) (n : Nat) :
    (grown^[n] r).mStart < WORD_RANGE ∧ pageSlot (grown^[n] r).mStart n = r.mStart ∧
      (grown^[n] r).mEnd = r.mEnd := by
  induction n with
  | zero => exact ⟨hstart, pageSlot_zero hstart, rfl⟩
  | succ n ih =>
    have hflags := r.grown_iterate_mFlags n
    rw [Function.iterate_succ_apply', grown_of_stack (hflags ▸ hstack)]
    refine ⟨Nat.mod_lt _ (by decide), ?_, ih.2.2⟩
    rw [pageSlot_subWord]
    exact ih.2.1

theorem grows_iterate {r : MemArea} (hstack : hasFlag r.mFlags MMA_STACK = false)
    (hend : r.mEnd < WORD_RANGE) (n : Nat) :
    (grown^[n] r).mStart = r.mStart ∧ (grown^[n] r).mEnd = pageSlot r.mEnd n := by
  induction n with
  | zero => exact ⟨rfl, (pageSlot_zero hend).symm⟩
  | succ n ih =>
    have hflags := r.grown_iterate_mFlags n
    rw [Function.iterate_succ_apply', grown_of_up (hflags ▸ hstack)]
    refine ⟨ih.1, ?_⟩
    rw [ih.2, pageSlot_succ]

end MemArea

/-- The distance rounded up to pages, and one page for no distance. -/
def distPages (dist : Nat) : Nat :=
  ((if dist = 0 then PAGE_SIZE else dist) + MemArea.PAGE_MASK) / PAGE_SIZE

/-- Where the sum passes the end of the word all pages of the address space are missing, which
makes no difference to an address. -/
theorem pageSlot_pfPages {dist : Nat} (hdist : dist < WORD_RANGE) (x : Nat) :
    pageSlot x (pfPages dist) = pageSlot x (distPages dist) := by
  have hpages : pfPages dist = distPages dist ∨
      pfPages dist + ADDR_PAGES = distPages dist := by
    unfold pfPages distPages addWord MemArea.PAGE_MASK PAGE_SIZE ADDR_PAGES WORD_RANGE at *
    dsimp only
    split <;> omega
  rcases hpages with heq | heq
  · rw [heq]
  · rw [← heq]
    unfold pageSlot
    rw [Nat.add_mul, Nat.mul_comm ADDR_PAGES, ← wordRange_eq, ← Nat.add_assoc, Nat.add_mod_right]

namespace VmState

/-! ## Whether the address is reached -/

section Hits

variable {r : MemArea} {addr sizelim n : Nat}

theorem stack_hits (hstack : hasFlag r.mFlags MMA_STACK = true) (hstart : r.mStart < WORD_RANGE)
    (haligned : PAGE_SIZE ∣ r.mStart) (hmiss : memAreaIsHit r addr = false)
    (hdist : memAreaHitOffset r sizelim addr ≠ NOPAGE_ADDR) :
    memAreaIsHit (MemArea.grown^[pfPages (memAreaHitOffset r sizelim addr)] r) addr = true := by
  unfold memAreaHitOffset at hdist ⊢
  rw [if_pos hstack] at hdist ⊢
  split at hdist
  · rename_i hin
    have hbelow : addr < r.mStart := by
      unfold memAreaIsHit at hmiss
      simp only [Bool.and_eq_false_iff, decide_eq_false_iff_not] at hmiss
      omega
    rw [if_pos hin, subWord_of_le (Nat.le_of_lt hbelow) hstart]
    obtain ⟨hlt, hslot, hend⟩ :=
      MemArea.stack_iterate hstack hstart (pfPages (r.mStart - addr))
    rw [pageSlot_pfPages (by omega)] at hslot
    unfold memAreaIsHit
    rw [hend, Bool.and_eq_true, decide_eq_true_eq, decide_eq_true_eq]
    refine ⟨?_, hin.2⟩
    unfold distPages pageSlot MemArea.PAGE_MASK at hslot
    rw [if_neg (by omega)] at hslot
    unfold PAGE_SIZE WORD_RANGE at *
    omega
  · exact absurd rfl hdist

/-- Up to an address the area comes to the end of its page, but for an address at the start of
a page that was not the next one. -/
theorem grows_hits_iff (hstack : hasFlag r.mFlags MMA_STACK = false) (hend : r.mEnd < WORD_RANGE)
    (haligned : PAGE_SIZE ∣ r.mEnd) (haddr : addr < WORD_RANGE)
    (hmiss : memAreaIsHit r addr = false) (hdist : memAreaHitOffset r sizelim addr ≠ NOPAGE_ADDR) :
    memAreaIsHit (MemArea.grown^[pfPages (memAreaHitOffset r sizelim addr)] r) addr = true ↔
      (addr = r.mEnd ∨ ¬ PAGE_SIZE ∣ addr) ∧ addr < WORD_RANGE - PAGE_SIZE := by
  unfold memAreaHitOffset at hdist ⊢
  rw [if_neg (Bool.eq_false_iff.mp hstack)] at hdist ⊢
  split at hdist
  · rename_i hgrows
    rw [if_pos hgrows]
    split at hdist
    · rename_i hin
      have habove : r.mEnd ≤ addr := by
        unfold memAreaIsHit at hmiss
        simp only [Bool.and_eq_false_iff, decide_eq_false_iff_not] at hmiss
        omega
      rw [if_pos hin, subWord_of_le habove haddr]
      obtain ⟨hstart', hend'⟩ := MemArea.grows_iterate hstack hend (pfPages (addr - r.mEnd))
      rw [pageSlot_pfPages (by omega)] at hend'
      unfold memAreaIsHit
      rw [hstart', hend', Bool.and_eq_true, decide_eq_true_eq, decide_eq_true_eq,
        and_iff_right hin.1]
      unfold distPages pageSlot MemArea.PAGE_MASK PAGE_SIZE WORD_RANGE at *
      split <;> omega
    · exact absurd rfl hdist
  · exact absurd rfl hdist

end Hits

/-- After `pf_handler` has grown an area with aligned bounds, the address is in the area exactly
when the area is a stack, or the address was its end or is not at the start of a page, and
the page after the address is in the address space too. -/
theorem pfHandler_hits_iff {sizelim : Nat → Nat} {addr a : Nat} {mmas : List Nat} {s s' : VmState}
    {r : MemArea} (hop : s.pfHandler sizelim addr mmas = .ok (some a, s')) (hr : s.areas a = some r)
    (haddr : addr < WORD_RANGE) (hstart : r.mStart < WORD_RANGE ∧ PAGE_SIZE ∣ r.mStart)
    (hend : r.mEnd < WORD_RANGE ∧ PAGE_SIZE ∣ r.mEnd) :
    (∃ r', s'.areas a = some r' ∧ memAreaIsHit r' addr = true) ↔
      hasFlag r.mFlags MMA_STACK = true ∨
        ((addr = r.mEnd ∨ ¬ PAGE_SIZE ∣ addr) ∧ addr < WORD_RANGE - PAGE_SIZE) := by
  obtain ⟨r₀, hr₀, hmiss, hdist, hgrow⟩ := pfHandler_eq_ok hop
  obtain rfl : r₀ = r := Option.some.inj (hr₀.symm.trans hr)
  have hrecord : s'.areas a =
      some (MemArea.grown^[pfPages (memAreaHitOffset r₀ (sizelim a) addr)] r₀) := by
    obtain ⟨r₁, hr₁, hloop⟩ := bind_eq_ok.mp hgrow
    obtain rfl : r₁ = r₀ := Option.some.inj ((area_eq_ok.mp hr₁).symm.trans hr)
    rw [if_pos (hasFlag_of_hitOffset hdist)] at hloop
    exact growLoop_record _ hloop hr
  have hhit : (∃ r', s'.areas a = some r' ∧ memAreaIsHit r' addr = true) ↔
      memAreaIsHit (MemArea.grown^[pfPages (memAreaHitOffset r₀ (sizelim a) addr)] r₀) addr =
        true := by
    rw [hrecord]
    simp
  rw [hhit]
  cases hstack : hasFlag r₀.mFlags MMA_STACK with
  | true =>
    rw [stack_hits hstack hstart.1 hstart.2 hmiss hdist]
    simp
  | false =>
    rw [grows_hits_iff hstack hend.1 hend.2 haddr hmiss hdist]
    simp

/-- The record of an area of one page from 0x8000000 on. -/
def onePage (flags : Nat) : MemArea := ⟨0x8000000, 0x8001000, 1, 1, 0, flags, 0, 7⟩

/-- A fault in a mapping that has this area only, which may become sixteen pages. -/
def faultIn (flags addr : Nat) : Except VmFault (Option Nat × Option MemArea) := do
  let (grown, s) ← (emptyVm.setArea 0 (onePage flags)).pfHandler (fun _ => 0x10000) addr [0]
  return (grown, s.areas 0)

theorem pfHandler_hits_middle : ∃ s', (emptyVm.setArea 0 (onePage MMA_GROWS)).pfHandler
      (fun _ => 0x10000) 0x8002800 [0] = .ok (some 0, s') ∧
    ∃ r', s'.areas 0 = some r' ∧ memAreaIsHit r' 0x8002800 = true := by
  have hr : (emptyVm.setArea 0 (onePage MMA_GROWS)).areas 0 = some (onePage MMA_GROWS) :=
    rfl
  have hrun : faultIn MMA_GROWS 0x8002800 =
      .ok (some 0, some ⟨0x8000000, 0x8003000, 3, 1, 0, MMA_GROWS, 0, 7⟩) := by
    decide +kernel
  obtain ⟨⟨grown, s'⟩, hop, hret⟩ := bind_eq_ok.mp hrun
  obtain ⟨rfl, -⟩ := Prod.mk.inj (Except.ok.inj hret)
  exact ⟨s', hop,
    (pfHandler_hits_iff hop hr (by decide) (by decide) (by decide)).mpr (Or.inr (by decide))⟩

/-- A fault at the start of the page after the next one: the area is grown by one page, and
the address is just behind it. -/
theorem pfHandler_misses_start : ∃ s', (emptyVm.setArea 0 (onePage MMA_GROWS)).pfHandler
      (fun _ => 0x10000) 0x8002000 [0] = .ok (some 0, s') ∧
    ∃ r', s'.areas 0 = some r' ∧ r'.mEnd = 0x8002000 ∧ memAreaIsHit r' 0x8002000 = false := by
  have hrun : faultIn MMA_GROWS 0x8002000 =
      .ok (some 0, some ⟨0x8000000, 0x8002000, 2, 1, 0, MMA_GROWS, 0, 7⟩) := by
    decide +kernel
  obtain ⟨⟨grown, s'⟩, hop, hret⟩ := bind_eq_ok.mp hrun
  obtain ⟨rfl, harea⟩ := Prod.mk.inj (Except.ok.inj hret)
  exact ⟨s', hop, _, harea, rfl, by decide⟩

end VmState

end Koowaldah
