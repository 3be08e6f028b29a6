import Koowaldah.Lib.TwoLevel
import Koowaldah.Paging.Basic

/-!
# Page tables as two-level tables

The words of a page directory and of its page tables are a two-level table
(`tablesOf`), in which the processor looks pages up (`pageWalk_eq`).

There are four groups.

* Bits.  What the masks and shifts of `include/i386/pages.h` do, and that entries
  of tables are different words (`slot_eq_iff`).
* The two-level table in memory.  A page is known by its two indices (`idx_inj`,
  `exists_idx`).
* `tablesOf_mapPage` and `tablesOf_unmapPage`: `map_page` and `unmap_page` are the
  operations of the two-level table, when the directory is not one of its own
  tables (`Placed`).
* How a mapping is made: the directory after `init_rootmap` and after `clone_map`
  (`initRootmap_pgdir`, `cloneLoop_pgdir`), and what `clone_map` does not store to
  (`cloneLoop_frame`).
-/

namespace Koowaldah

open Function SysLib

/-! ## Bits -/

section Bits

variable (x y : BitVec 32)

theorem PE_ADDR_eq_shift : PE_ADDR x = x >>> 12 <<< 12 := by
  have hmask : ∀ i < 32, (0xfffff000#32).getLsbD i = decide (12 ≤ i) := by decide
  apply BitVec.eq_of_getLsbD_eq
  intro i hi
  unfold PE_ADDR
  rw [BitVec.getLsbD_and, hmask i hi, BitVec.getLsbD_shiftLeft, BitVec.getLsbD_ushiftRight]
  by_cases h : 12 ≤ i
  · simp [h, hi]
  · simp [h]

theorem PE_ADDR_toNat : (PE_ADDR x).toNat = x.toNat / 4096 * 4096 := by
  rw [PE_ADDR_eq_shift, BitVec.toNat_shiftLeft, BitVec.toNat_ushiftRight, Nat.shiftRight_eq_div_pow,
    Nat.shiftLeft_eq]
  have := x.isLt
  omega

theorem PE_ADDR_or : PE_ADDR (x ||| y) = PE_ADDR x ||| PE_ADDR y := BitVec.and_or_distrib_right

theorem present_eq_getLsbD : present x = x.getLsbD 0 := by
  unfold present PTF_PRESENT
  rw [BitVec.and_one_eq_setWidth_ofBool_getLsbD]
  cases x.getLsbD 0 <;> decide

theorem present_or : present (x ||| y) = (present x || present y) := by
  rw [present_eq_getLsbD, present_eq_getLsbD, present_eq_getLsbD, BitVec.getLsbD_or]

theorem PGDIDX_eq : PGDIDX x = x.toNat / 2 ^ 22 := by
  unfold PGDIDX
  rw [BitVec.toNat_ushiftRight, Nat.shiftRight_eq_div_pow]

theorem PGTIDX_eq : PGTIDX x = x.toNat / 2 ^ 12 % 2 ^ 10 := by
  have hmask : PGT_MASK >>> 12 = 0x3ff#32 := by decide
  unfold PGTIDX
  rw [BitVec.ushiftRight_and_distrib, hmask, BitVec.toNat_and, BitVec.toNat_ushiftRight,
    Nat.shiftRight_eq_div_pow]
  exact Nat.and_two_pow_sub_one_eq_mod _ 10

variable {x y}

theorem pageAligned_iff : PageAligned x ↔ x.toNat % 4096 = 0 := by
  have hmod : (x &&& PAGE_MASK).toNat = x.toNat % 4096 := by
    rw [BitVec.toNat_and]
    exact Nat.and_two_pow_sub_one_eq_mod _ 12
  unfold PageAligned
  rw [← BitVec.toNat_inj, hmod]
  rfl

theorem pageAligned_PE_ADDR : PageAligned (PE_ADDR x) := by
  rw [pageAligned_iff, PE_ADDR_toNat]
  exact Nat.mul_mod_left _ _

theorem PE_ADDR_of_aligned (h : PageAligned x) : PE_ADDR x = x := by
  apply BitVec.eq_of_toNat_eq
  have hmod := pageAligned_iff.mp h
  rw [PE_ADDR_toNat]
  omega

theorem slot_eq_iff (hx : PageAligned x) (hy : PageAligned y) {i j : Nat} (hi : i < 1024)
    (hj : j < 1024) : slot x i = slot y j ↔ x = y ∧ i = j := by
  have hx' := pageAligned_iff.mp hx
  have hy' := pageAligned_iff.mp hy
  unfold slot
  constructor
  · intro h
    exact ⟨BitVec.eq_of_toNat_eq (by omega), by omega⟩
  · intro h
    rw [h.1, h.2]

end Bits

/-! ## The tables in memory -/

/-- An address without an offset in its page. -/
abbrev PageAddr := { addr : BitVec 32 // PageAligned addr }

theorem PGDIDX_lt (x : BitVec 32) : PGDIDX x < PGD_ENTRIES := by
  rw [PGDIDX_eq]
  have := x.isLt
  unfold PGD_ENTRIES
  omega

theorem PGTIDX_lt (x : BitVec 32) : PGTIDX x < PGT_ENTRIES := by
  rw [PGTIDX_eq]
  exact Nat.mod_lt _ (by decide)

def dirIdx (virt : PageAddr) : Fin PGD_ENTRIES := ⟨PGDIDX virt, PGDIDX_lt virt⟩

def tabIdx (virt : PageAddr) : Fin PGT_ENTRIES := ⟨PGTIDX virt, PGTIDX_lt virt⟩

theorem idx_inj {v w : PageAddr} : v = w ↔ dirIdx v = dirIdx w ∧ tabIdx v = tabIdx w := by
  constructor
  · intro h
    rw [h]
    exact ⟨rfl, rfl⟩
  · intro h
    have hd : PGDIDX v = PGDIDX w := congrArg (fun d : Fin PGD_ENTRIES => d.val) h.1
    have ht : PGTIDX v = PGTIDX w := congrArg (fun i : Fin PGT_ENTRIES => i.val) h.2
    have hv := pageAligned_iff.mp v.2
    have hw := pageAligned_iff.mp w.2
    rw [PGDIDX_eq, PGDIDX_eq] at hd
    rw [PGTIDX_eq, PGTIDX_eq] at ht
    apply Subtype.ext
    apply BitVec.eq_of_toNat_eq
    omega

theorem exists_idx (d : Fin PGD_ENTRIES) (i : Fin PGT_ENTRIES) :
    ∃ v : PageAddr, dirIdx v = d ∧ tabIdx v = i := by
  have hd : d.val < 1024 := d.2
  have hi : i.val < 1024 := i.2
  have hval : (BitVec.ofNat 32 (d.val * 2 ^ 22 + i.val * 2 ^ 12)).toNat =
      d.val * 2 ^ 22 + i.val * 2 ^ 12 := by
    rw [BitVec.toNat_ofNat]
    exact Nat.mod_eq_of_lt (by omega)
  refine ⟨⟨BitVec.ofNat 32 (d.val * 2 ^ 22 + i.val * 2 ^ 12), ?_⟩, ?_, ?_⟩
  · rw [pageAligned_iff, hval]
    omega
  · apply Fin.ext
    show PGDIDX _ = d.val
    rw [PGDIDX_eq, hval]
    omega
  · apply Fin.ext
    show PGTIDX _ = i.val
    rw [PGTIDX_eq, hval]
    omega

/-- What an entry of a page table is for the processor. -/
def pteValue (pte : BitVec 32) : Option (BitVec 32) :=
  if present pte then some (PE_ADDR pte) else none

/-- The two-level table that a page directory is the root of. -/
def tablesOf (mem : Words) (pgdir : BitVec 32) :
    TwoLevel (Fin PGD_ENTRIES) (Fin PGT_ENTRIES) (BitVec 32) (BitVec 32) where
  valid d := present (mem (slot pgdir d))
  table d := PE_ADDR (mem (slot pgdir d))
  entry d i := pteValue (mem (slot (PE_ADDR (mem (slot pgdir d))) i))

theorem pageWalk_eq (mem : Words) (pgdir : BitVec 32) (virt : PageAddr) :
    pageWalk mem pgdir virt = (tablesOf mem pgdir).lookup (dirIdx virt) (tabIdx virt) := rfl

/-- The directory is a page, and none of its tables is that page. -/
structure Placed (mem : Words) (pgdir : BitVec 32) : Prop where
  aligned : PageAligned pgdir
  table_ne : ∀ d, (tablesOf mem pgdir).table d ≠ pgdir

section Ops

variable {mem : Words} {pgdir : BitVec 32}

theorem setWord_self (mem : Words) (w : Nat) (v : BitVec 32) : setWord mem w v w = v :=
  update_self ..

theorem setWord_of_ne (mem : Words) {w x : Nat} (v : BitVec 32) (h : x ≠ w) :
    setWord mem w v x = mem x := update_of_ne h ..

section

variable (h : Placed mem pgdir)

include h

theorem Placed.slot_ne (d d' : Fin PGD_ENTRIES) (i : Fin PGT_ENTRIES) :
    slot pgdir d' ≠ slot ((tablesOf mem pgdir).table d) i := by
  intro heq
  exact h.table_ne d ((slot_eq_iff h.aligned pageAligned_PE_ADDR d'.2 i.2).mp heq).1.symm

theorem tablesOf_setEntry (d : Fin PGD_ENTRIES) (i : Fin PGT_ENTRIES)
    (v : BitVec 32) : tablesOf (setWord mem (slot ((tablesOf mem pgdir).table d) i) v) pgdir =
      { tablesOf mem pgdir with entry := (tablesOf mem pgdir).setEntry d i (pteValue v) } := by
  generalize hmem : setWord mem (slot ((tablesOf mem pgdir).table d) i) v = mem'
  have hdir : ∀ d' : Fin PGD_ENTRIES, mem' (slot pgdir d') = mem (slot pgdir d') := by
    intro d'
    rw [← hmem, setWord_of_ne]
    exact h.slot_ne d d' i
  have htable : ∀ d', (tablesOf mem' pgdir).table d' = (tablesOf mem pgdir).table d' :=
    fun d' => congrArg PE_ADDR (hdir d')
  refine TwoLevel.ext (funext fun d' => congrArg present (hdir d')) (funext htable) ?_
  funext d' j
  show pteValue (mem' (slot ((tablesOf mem' pgdir).table d') j)) =
    if (tablesOf mem pgdir).table d' = (tablesOf mem pgdir).table d ∧ j = i then pteValue v
    else (tablesOf mem pgdir).entry d' j
  rw [htable, ← hmem]
  by_cases hs : (tablesOf mem pgdir).table d' = (tablesOf mem pgdir).table d ∧ j = i
  · rw [if_pos hs, hs.1, hs.2, setWord_self]
  · rw [if_neg hs, setWord_of_ne]
    · rfl
    · intro heq
      have hinj := (slot_eq_iff pageAligned_PE_ADDR pageAligned_PE_ADDR j.2 i.2).mp heq
      exact hs ⟨hinj.1, Fin.ext hinj.2⟩

theorem tablesOf_setPresent (d : Fin PGD_ENTRIES) :
    tablesOf (setWord mem (slot pgdir d) (mem (slot pgdir d) ||| PTF_PRESENT)) pgdir =
      { tablesOf mem pgdir with
        valid := Function.update (tablesOf mem pgdir).valid d true } := by
  generalize hmem : setWord mem (slot pgdir d) (mem (slot pgdir d) ||| PTF_PRESENT) = mem'
  have hself : mem' (slot pgdir d) = mem (slot pgdir d) ||| PTF_PRESENT := by
    rw [← hmem, setWord_self]
  have hother : ∀ d' : Fin PGD_ENTRIES, d' ≠ d →
      mem' (slot pgdir d') = mem (slot pgdir d') := by
    intro d' hne
    rw [← hmem, setWord_of_ne]
    intro heq
    exact hne (Fin.ext ((slot_eq_iff h.aligned h.aligned d'.2 d.2).mp heq).2)
  have htable : ∀ d', (tablesOf mem' pgdir).table d' = (tablesOf mem pgdir).table d' := by
    intro d'
    show PE_ADDR (mem' (slot pgdir d')) = PE_ADDR (mem (slot pgdir d'))
    by_cases hd : d' = d
    · have hlow : PE_ADDR PTF_PRESENT = 0#32 := by decide
      rw [hd, hself, PE_ADDR_or, hlow, BitVec.or_zero]
    · rw [hother d' hd]
  refine TwoLevel.ext (funext fun d' => ?_) (funext htable) ?_
  · show present (mem' (slot pgdir d')) = Function.update (tablesOf mem pgdir).valid d true d'
    by_cases hd : d' = d
    · have hset : present PTF_PRESENT = true := by decide
      rw [hd, hself, present_or, hset, Bool.or_true, update_self]
    · rw [hother d' hd, update_of_ne hd]
      rfl
  · funext d' j
    show pteValue (mem' (slot ((tablesOf mem' pgdir).table d') j)) = _
    rw [htable, ← hmem, setWord_of_ne]
    · rfl
    · exact (h.slot_ne d' d j).symm

theorem tablesOf_unmapPage (virt : PageAddr) : tablesOf (unmapPage pgdir virt mem) pgdir =
      (tablesOf mem pgdir).unmap (dirIdx virt) (tabIdx virt) :=
  tablesOf_setEntry h (dirIdx virt) (tabIdx virt) 0

end

theorem pteValue_mapEntry (phys : BitVec 32) (flags : BitVec 16) :
    pteValue (phys ||| PTF_PRESENT ||| PTF_USER ||| flags.setWidth 32) =
      some (PE_ADDR (phys ||| flags.setWidth 32)) := by
  have hlow : PE_ADDR PTF_PRESENT = 0#32 ∧ PE_ADDR PTF_USER = 0#32 := by decide
  have hset : present PTF_PRESENT = true := by decide
  unfold pteValue
  rw [present_or, present_or, present_or, hset, Bool.or_true, Bool.true_or, Bool.true_or,
    if_pos rfl, PE_ADDR_or, PE_ADDR_or, PE_ADDR_or, hlow.1, hlow.2, PE_ADDR_or, BitVec.or_zero,
    BitVec.or_zero]

theorem tablesOf_mapPage (h : Placed mem pgdir) (virt : PageAddr) (phys : BitVec 32)
    (flags : BitVec 16) : tablesOf (mapPage pgdir virt phys flags mem) pgdir =
      (tablesOf mem pgdir).map (dirIdx virt) (tabIdx virt)
        (PE_ADDR (phys ||| flags.setWidth 32)) := by
  have hpresent := tablesOf_setPresent h (dirIdx virt)
  generalize hmem : setWord mem (slot pgdir (dirIdx virt))
    (mem (slot pgdir (dirIdx virt)) ||| PTF_PRESENT) = mem₁ at hpresent
  have htable : (tablesOf mem₁ pgdir).table = (tablesOf mem pgdir).table := by
    rw [hpresent]
  have h₁ : Placed mem₁ pgdir := by
    refine ⟨h.aligned, fun d => ?_⟩
    rw [htable]
    exact h.table_ne d
  have hset := tablesOf_setEntry h₁ (dirIdx virt) (tabIdx virt)
    (phys ||| PTF_PRESENT ||| PTF_USER ||| flags.setWidth 32)
  rw [htable, pteValue_mapEntry, hpresent] at hset
  have hmap : mapPage pgdir virt phys flags mem =
      setWord mem₁ (slot ((tablesOf mem pgdir).table (dirIdx virt)) (tabIdx virt))
        (phys ||| PTF_PRESENT ||| PTF_USER ||| flags.setWidth 32) := by
    rw [← hmem]
    rfl
  rw [hmap, hset]
  rfl

end Ops

/-! ## How a mapping is made -/

section Build

variable {pgdir pgtable : BitVec 32} {mem : Words}

variable {x d e : Nat} {map : BitVec 32}

theorem pageAligned_add {x : BitVec 32} (h : PageAligned x) (k : Nat) :
    PageAligned (x + BitVec.ofNat 32 (k * PAGE_SIZE)) := by
  have hx := pageAligned_iff.mp h
  rw [pageAligned_iff, BitVec.toNat_add, BitVec.toNat_ofNat]
  unfold PAGE_SIZE
  omega

theorem add_pages_inj (x : BitVec 32) {k : Nat} (hk : k < PGD_ENTRIES) (hd : d < PGD_ENTRIES)
    (heq : x + BitVec.ofNat 32 (k * PAGE_SIZE) = x + BitVec.ofNat 32 (d * PAGE_SIZE)) : k = d := by
  have hnat := congrArg BitVec.toNat (add_left_cancel heq)
  rw [BitVec.toNat_ofNat, BitVec.toNat_ofNat] at hnat
  unfold PAGE_SIZE at hnat
  unfold PGD_ENTRIES at hk hd
  omega

theorem storeEntries_slot (table : BitVec 32) (entry : Nat → BitVec 32) (n i : Nat) (mem : Words)
    (e : Nat) : storeEntries table entry i n mem (slot table e) =
      if i ≤ e ∧ e < i + n then entry e else mem (slot table e) := by
  induction n generalizing i mem with
  | zero => exact (if_neg (by omega)).symm
  | succ n ih =>
    unfold storeEntries
    rw [ih]
    by_cases hlater : i + 1 ≤ e ∧ e < i + 1 + n
    · rw [if_pos hlater, if_pos (by omega)]
    · rw [if_neg hlater]
      by_cases hhere : e = i
      · rw [hhere, setWord_self, if_pos (by omega)]
      · rw [if_neg (by omega), setWord_of_ne]
        unfold slot
        omega

theorem initRootmap_pgdir (physPgs d : Nat) (hd : d < PGT_ENTRIES) :
    initRootmap physPgs pgdir pgtable mem (slot pgdir d) =
      if d < tablesz physPgs then
        (pgtable + BitVec.ofNat 32 (d * PAGE_SIZE)) ||| PTF_PRESENT ||| PTF_RW ||| PTF_GLOBAL
      else PTF_USER ||| PTF_RW := by
  unfold initRootmap
  rw [storeEntries_slot]
  by_cases hlt : d < tablesz physPgs
  · rw [if_neg (by omega), storeEntries_slot, if_pos (by omega), if_pos hlt]
  · rw [if_pos (by omega), if_neg hlt]

theorem placed_initRootmap {physPgs : Nat} (hdir : PageAligned pgdir) (htab : PageAligned pgtable)
    (hzero : pgdir ≠ 0)
    (hapart : ∀ k < tablesz physPgs, pgtable + BitVec.ofNat 32 (k * PAGE_SIZE) ≠ pgdir) :
    Placed (initRootmap physPgs pgdir pgtable mem) pgdir := by
  refine ⟨hdir, fun d => ?_⟩
  show PE_ADDR (initRootmap physPgs pgdir pgtable mem (slot pgdir d)) ≠ pgdir
  rw [initRootmap_pgdir physPgs d d.2]
  have hlow : PE_ADDR PTF_PRESENT = 0#32 ∧ PE_ADDR PTF_RW = 0#32 ∧ PE_ADDR PTF_GLOBAL = 0#32 ∧
      PE_ADDR (PTF_USER ||| PTF_RW) = 0#32 := by
    decide
  split
  · rename_i hlt
    rw [PE_ADDR_or, PE_ADDR_or, PE_ADDR_or, hlow.1, hlow.2.1, hlow.2.2.1, BitVec.or_zero,
      BitVec.or_zero, BitVec.or_zero, PE_ADDR_of_aligned (pageAligned_add htab d)]
    exact hapart d hlt
  · rw [hlow.2.2.2]
    exact hzero.symm

theorem copyEntries_frame {src : BitVec 32} (n t : Nat) (mem : Words)
    (hx : ∀ e, e < t + n → x ≠ slot pgtable e) : copyEntries pgtable src t n mem x = mem x := by
  induction n generalizing t mem with
  | zero => rfl
  | succ n ih =>
    unfold copyEntries
    rw [ih _ _ (fun e he => hx e (by omega)), setWord_of_ne _ _ (hx t (by omega))]

theorem cloneEntry_pgdir (hdir : PageAligned pgdir) (htab : PageAligned pgtable)
    (hne : pgtable ≠ pgdir) (hd : d < PGD_ENTRIES) (he : e < PGD_ENTRIES) :
    cloneEntry pgdir map pgtable d mem (slot pgdir e) =
      if e = d then mem (slot map d) &&& PAGE_MASK ||| pgtable else mem (slot pgdir e) := by
  have hcopy : ∀ (src : BitVec 32) (mem : Words),
      copyEntries pgtable src 0 PGT_ENTRIES mem (slot pgdir e) = mem (slot pgdir e) := by
    intro src mem
    apply copyEntries_frame
    intro t ht heq
    rw [Nat.zero_add] at ht
    exact hne ((slot_eq_iff hdir htab he ht).mp heq).1.symm
  have hset : ∀ v w : BitVec 32, setWord (setWord mem (slot pgdir d) v) (slot pgdir d) w
      (slot pgdir e) = if e = d then w else mem (slot pgdir e) := by
    intro v w
    by_cases heq : e = d
    · rw [if_pos heq, heq, setWord_self]
    · have hslot : slot pgdir e ≠ slot pgdir d :=
        fun h => heq ((slot_eq_iff hdir hdir he hd).mp h).2
      rw [if_neg heq, setWord_of_ne _ _ hslot, setWord_of_ne _ _ hslot]
  unfold cloneEntry
  rw [setWord_self, setWord_self]
  split
  · rw [hcopy, hset]
  · rw [hset]

theorem add_page (x : BitVec 32) (k : Nat) :
    x + BitVec.ofNat 32 PAGE_SIZE + BitVec.ofNat 32 (k * PAGE_SIZE) =
      x + BitVec.ofNat 32 ((k + 1) * PAGE_SIZE) := by
  rw [BitVec.add_assoc, ← BitVec.ofNat_add, Nat.succ_mul, Nat.add_comm]

theorem PE_ADDR_mask (x : BitVec 32) : PE_ADDR (x &&& PAGE_MASK) = 0#32 := by
  have hmask : PAGE_MASK &&& 0xfffff000#32 = 0#32 := by decide
  unfold PE_ADDR
  rw [BitVec.and_assoc, hmask, BitVec.and_zero]

/-- The directory that `clone_map` copies lies apart from what it stores. -/
structure SourceApart (pgdir map pgtable : BitVec 32) (n : Nat) : Prop where
  aligned : PageAligned map
  pgdir_ne : map ≠ pgdir
  table_ne : ∀ k < n, pgtable + BitVec.ofNat 32 (k * PAGE_SIZE) ≠ map

theorem present_of_aligned {x : BitVec 32} (h : PageAligned x) : present x = false := by
  have hmod := pageAligned_iff.mp h
  rw [present_eq_getLsbD, BitVec.getLsbD, Nat.testBit_zero]
  exact decide_eq_false (by omega)

theorem present_mask (x : BitVec 32) : present (x &&& PAGE_MASK) = present x := by
  have hbit : PAGE_MASK.getLsbD 0 = true := by decide
  rw [present_eq_getLsbD, present_eq_getLsbD, BitVec.getLsbD_and, hbit, Bool.and_true]

theorem cloneEntry_frame (htab : PageAligned pgtable) (hdir : x ≠ slot pgdir d)
    (hx : present (mem (slot map d)) = true → ∀ t < PGT_ENTRIES, x ≠ slot pgtable t) :
    cloneEntry pgdir map pgtable d mem x = mem x := by
  have hset : ∀ v w : BitVec 32,
      setWord (setWord mem (slot pgdir d) v) (slot pgdir d) w x = mem x := by
    intro v w
    rw [setWord_of_ne _ _ hdir, setWord_of_ne _ _ hdir]
  unfold cloneEntry
  rw [setWord_self, setWord_self, present_or, present_mask, present_of_aligned htab, Bool.or_false]
  split
  · rename_i hpresent
    rw [copyEntries_frame, hset]
    intro e he
    exact hx hpresent e (by omega)
  · exact hset _ _

theorem SourceApart.cloneEntry {n : Nat} (hdir : PageAligned pgdir) (htab : PageAligned pgtable)
    (h : SourceApart pgdir map pgtable (n + 1)) (mem : Words) (hd : d < PGD_ENTRIES)
    (he : e < PGD_ENTRIES) :
    cloneEntry pgdir map pgtable d mem (slot map e) = mem (slot map e) := by
  have h0 := h.table_ne 0 (Nat.succ_pos n)
  rw [Nat.zero_mul, BitVec.add_zero] at h0
  apply cloneEntry_frame htab
  · exact fun heq => h.pgdir_ne ((slot_eq_iff h.aligned hdir he hd).mp heq).1
  · exact fun _ t ht heq => h0 ((slot_eq_iff h.aligned htab he ht).mp heq).1.symm

theorem SourceApart.succ {n : Nat} (h : SourceApart pgdir map pgtable (n + 1)) :
    SourceApart pgdir map (pgtable + BitVec.ofNat 32 PAGE_SIZE) n := by
  refine ⟨h.aligned, h.pgdir_ne, fun k hk => ?_⟩
  rw [add_page]
  exact h.table_ne (k + 1) (by omega)

theorem pageAligned_next (htab : PageAligned pgtable) :
    PageAligned (pgtable + BitVec.ofNat 32 PAGE_SIZE) := by
  have h1 := pageAligned_add htab 1
  rw [Nat.one_mul] at h1
  exact h1

/-- The loop of `clone_map` gives the directory one table after the other, with the
flags of the old one. -/
theorem cloneLoop_pgdir (map : BitVec 32) (hdir : PageAligned pgdir) (n d : Nat) (mem : Words)
    (htab : PageAligned pgtable) (hn : d + n ≤ PGD_ENTRIES)
    (hapart : ∀ k < n, pgtable + BitVec.ofNat 32 (k * PAGE_SIZE) ≠ pgdir) (he : e < PGD_ENTRIES) :
    (e < d → cloneLoop pgdir map pgtable d n mem (slot pgdir e) = mem (slot pgdir e)) ∧
      (d ≤ e → e < d + n → ∃ old, cloneLoop pgdir map pgtable d n mem (slot pgdir e) =
        old &&& PAGE_MASK ||| (pgtable + BitVec.ofNat 32 ((e - d) * PAGE_SIZE)) ∧
        (SourceApart pgdir map pgtable n → old = mem (slot map e))) := by
  induction n generalizing pgtable d mem with
  | zero => exact ⟨fun _ => rfl, fun h h' => absurd h' (by omega)⟩
  | succ n ih =>
    have hne : pgtable ≠ pgdir := by
      have h0 := hapart 0 (Nat.succ_pos n)
      rw [Nat.zero_mul, BitVec.add_zero] at h0
      exact h0
    have hapart' : ∀ k < n, pgtable + BitVec.ofNat 32 PAGE_SIZE + BitVec.ofNat 32 (k * PAGE_SIZE) ≠
        pgdir := by
      intro k hk
      rw [add_page]
      exact hapart (k + 1) (by omega)
    rcases ih (d + 1) (cloneEntry pgdir map pgtable d mem) (pageAligned_next htab) (by omega)
      hapart' with ⟨hbefore, hafter⟩
    unfold cloneLoop
    constructor
    · intro hlt
      rw [hbefore (by omega), cloneEntry_pgdir hdir htab hne (by omega) he, if_neg (by omega)]
    · intro hle hlt
      by_cases heq : e = d
      · refine ⟨mem (slot map e), ?_, fun _ => rfl⟩
        rw [hbefore (by omega), cloneEntry_pgdir hdir htab hne (by omega) he, if_pos heq, heq,
          Nat.sub_self, Nat.zero_mul, BitVec.add_zero]
      · rcases hafter (by omega) (by omega) with ⟨old, hword, hold⟩
        refine ⟨old, ?_, ?_⟩
        · rw [hword, add_page, show e - (d + 1) + 1 = e - d by omega]
        · intro hsrc
          rw [hold hsrc.succ, hsrc.cloneEntry hdir htab mem (by omega) he]

/-- What `clone_map` leaves as it was: where the old mapping has no table, the new
table is what memory held before. -/
theorem cloneLoop_frame (hdir : PageAligned pgdir) (n d : Nat) (mem : Words)
    (htab : PageAligned pgtable) (hn : d + n ≤ PGD_ENTRIES) (hsrc : SourceApart pgdir map pgtable n)
    (hx : ∀ e < PGD_ENTRIES, x ≠ slot pgdir e)
    (habsent : ∀ k < n, present (mem (slot map (d + k))) = true →
      ∀ t < PGT_ENTRIES, x ≠ slot (pgtable + BitVec.ofNat 32 (k * PAGE_SIZE)) t) :
    cloneLoop pgdir map pgtable d n mem x = mem x := by
  induction n generalizing pgtable d mem with
  | zero => rfl
  | succ n ih =>
    have hround : cloneEntry pgdir map pgtable d mem x = mem x := by
      apply cloneEntry_frame htab (hx d (by omega))
      intro hpresent t ht
      have h0 := habsent 0 (Nat.succ_pos n) hpresent t ht
      rw [Nat.zero_mul, BitVec.add_zero] at h0
      exact h0
    unfold cloneLoop
    rw [ih (d + 1) _ (pageAligned_next htab) (by omega) hsrc.succ, hround]
    intro k hk hpresent t ht
    rw [hsrc.cloneEntry hdir htab mem (by omega) (by omega), Nat.add_assoc,
      Nat.add_comm 1] at hpresent
    rw [add_page]
    exact habsent (k + 1) (by omega) hpresent t ht

theorem cloneMap_table (map : BitVec 32) (mem : Words) (hdir : PageAligned pgdir)
    (htab : PageAligned pgtable)
    (hapart : ∀ k < PGD_ENTRIES, pgtable + BitVec.ofNat 32 (k * PAGE_SIZE) ≠ pgdir)
    (d : Fin PGD_ENTRIES) : (tablesOf (cloneMap pgdir pgtable map mem) pgdir).table d =
      pgtable + BitVec.ofNat 32 (d * PAGE_SIZE) := by
  rcases (cloneLoop_pgdir map hdir PGD_ENTRIES 0 mem htab (by omega) hapart d.2).2
    (Nat.zero_le _) (by omega) with ⟨old, hword, -⟩
  unfold tablesOf cloneMap
  dsimp only
  rw [hword, PE_ADDR_or, PE_ADDR_mask, BitVec.zero_or, PE_ADDR_of_aligned (pageAligned_add htab _)]
  rfl

theorem placed_cloneMap (hdir : PageAligned pgdir) (htab : PageAligned pgtable)
    (hapart : ∀ k < PGD_ENTRIES, pgtable + BitVec.ofNat 32 (k * PAGE_SIZE) ≠ pgdir) :
    Placed (cloneMap pgdir pgtable map mem) pgdir := by
  refine ⟨hdir, fun d => ?_⟩
  rw [cloneMap_table map mem hdir htab hapart]
  exact hapart d d.2

end Build

end Koowaldah
