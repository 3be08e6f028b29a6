import Koowaldah.Klib
import Koowaldah.Paging.Tables

/-!
# The tables of the root mapping and of a clone

`init_rootmap` and `clone_map` take a page for the directory and a block of pages for the
tables.  The order of the block is computed from the number of physical pages.

There are two groups.

* The root mapping.  `initRootmap_pgtable` reads the tables back, over the four loops, and
  `initRootmap_of_outside` says that nothing else is stored.  `pageAccess` is what the
  processor finds for a virtual page, with the permission to write; the root mapping is the
  identity for it (`rootMap_identity`).
* The block of a clone.  `cloneDirStores` lists the words that the rounds of `clone_map` store
  in the new directory (`cloneDirStores_eq_pgdir`).  They name `PGD_ENTRIES` pages from the
  start of the block on (`cloneDirStores_getElem?`), while the block has as many pages as the
  physical memory has tables (`cloneMap_inside_iff`).
-/

namespace Koowaldah

/-! ## The root mapping -/

/-- An entry has `PTF_RW` set. -/
def writable (pe : BitVec 32) : Bool := pe &&& PTF_RW ≠ 0

/-- What the processor finds for a virtual page: the physical address, and whether the page
may be written to. -/
def pageAccess (mem : Words) (pgdir virt : BitVec 32) : Option (BitVec 32 × Bool) :=
  let pde := mem (slot pgdir (PGDIDX virt))
  if present pde then
    let pte := mem (slot (PE_ADDR pde) (PGTIDX virt))
    if present pte then some (PE_ADDR pte, writable pde && writable pte) else none
  else none

/-- The pages of the block that `init_rootmap` takes for its tables. -/
def rootTablePages (physPgs : Nat) : Nat := 2 ^ log2 (tablesz physPgs)

/-- The directory page and the block that `init_rootmap` was given. -/
structure RootRoom (physPgs : Nat) (pgdir pgtable : PageAddr) : Prop where
  pos : 1 ≤ physPgs
  le : physPgs ≤ PGD_ENTRIES * PGT_ENTRIES
  block_le : pgtable.1.toNat + rootTablePages physPgs * PAGE_SIZE ≤ WORD_RANGE
  apart : pgdir.1.toNat + PAGE_SIZE ≤ pgtable.1.toNat ∨
    pgtable.1.toNat + rootTablePages physPgs * PAGE_SIZE ≤ pgdir.1.toNat

def InDir (pgdir : BitVec 32) (x : Nat) : Prop := ∃ i < PGD_ENTRIES, x = slot pgdir i

def InBlock (pgtable : BitVec 32) (pages x : Nat) : Prop :=
  ∃ i < pages * PGT_ENTRIES, x = slot pgtable i

theorem storeEntries_of_ne (table : BitVec 32) (entry : Nat → BitVec 32) (n i : Nat) (mem : Words)
    {x : Nat} (hx : ∀ e, i ≤ e → e < i + n → x ≠ slot table e) :
    storeEntries table entry i n mem x = mem x := by
  induction n generalizing i mem with
  | zero => rfl
  | succ n ih =>
    rw [storeEntries, ih (i + 1) _ (fun e hlo hhi => hx e (by omega) (by omega)),
      setWord_of_ne _ _ (hx i (Nat.le_refl i) (by omega))]

section Root

variable {physPgs : Nat} {pgdir pgtable : PageAddr} {mem : Words}

theorem RootRoom.tablesz_le (h : RootRoom physPgs pgdir pgtable) :
    tablesz physPgs ≤ PGD_ENTRIES ∧ tablesz physPgs ≤ rootTablePages physPgs := by
  have hpos := h.pos
  have hle := h.le
  have hsz : 1 ≤ tablesz physPgs ∧ tablesz physPgs ≤ PGD_ENTRIES := by
    unfold tablesz
    unfold PGD_ENTRIES PGT_ENTRIES at *
    split <;> omega
  refine ⟨hsz.2, (log2_spec hsz.1 ?_).1⟩
  exact Nat.lt_of_le_of_lt hsz.2 (by decide)

theorem tablesz_mul (physPgs : Nat) :
    physPgs + (PGT_ENTRIES - physPgs % PGT_ENTRIES) % PGT_ENTRIES =
      tablesz physPgs * PGT_ENTRIES := by
  unfold tablesz PGT_ENTRIES
  split <;> omega

section

variable (h : RootRoom physPgs pgdir pgtable)

include h

theorem RootRoom.slot_ne {i e : Nat} (hi : i < PGD_ENTRIES)
    (he : e < rootTablePages physPgs * PGT_ENTRIES) : slot pgdir i ≠ slot pgtable e := by
  have hapart := h.apart
  unfold slot
  unfold PAGE_SIZE at hapart
  unfold PGD_ENTRIES at hi
  unfold PGT_ENTRIES at he
  omega

theorem initRootmap_pgtable {e : Nat} (he : e < tablesz physPgs * PGT_ENTRIES) :
    initRootmap physPgs pgdir pgtable mem (slot pgtable e) =
      if e < physPgs then PTE_DESC (BitVec.ofNat 32 e) (PTF_PRESENT ||| PTF_RW)
      else PTF_USER ||| PTF_RW := by
  obtain ⟨hsz, hroom⟩ := h.tablesz_le
  have hblock : e < rootTablePages physPgs * PGT_ENTRIES :=
    Nat.lt_of_lt_of_le he (Nat.mul_le_mul_right _ hroom)
  have hmul := tablesz_mul physPgs
  unfold initRootmap
  -- neither loop over the directory stores to a table
  rw [storeEntries_of_ne _ _ _ _ _ (fun i _ hi => (h.slot_ne (by
      unfold PGD_ENTRIES PGT_ENTRIES at *
      omega) hblock).symm),
    storeEntries_of_ne _ _ _ _ _ (fun i _ hi => (h.slot_ne (by omega) hblock).symm),
    storeEntries_slot, storeEntries_slot]
  by_cases hlt : e < physPgs
  · rw [if_neg (by omega), if_pos (by omega), if_pos hlt]
  · rw [if_pos (by omega), if_neg hlt]

theorem initRootmap_of_outside {x : Nat}
    (hdir : ¬ InDir pgdir x) (hblock : ¬ InBlock pgtable (rootTablePages physPgs) x) :
    initRootmap physPgs pgdir pgtable mem x = mem x := by
  obtain ⟨hsz, hroom⟩ := h.tablesz_le
  have hmul := tablesz_mul physPgs
  have hroom' : tablesz physPgs * PGT_ENTRIES ≤ rootTablePages physPgs * PGT_ENTRIES :=
    Nat.mul_le_mul_right _ hroom
  have hne : ∀ i < PGD_ENTRIES, x ≠ slot pgdir i := fun i hi heq => hdir ⟨i, hi, heq⟩
  have hne' : ∀ e < rootTablePages physPgs * PGT_ENTRIES, x ≠ slot pgtable e :=
    fun e he heq => hblock ⟨e, he, heq⟩
  have hsame : PGT_ENTRIES = PGD_ENTRIES := rfl
  unfold initRootmap
  rw [storeEntries_of_ne _ _ _ _ _ (fun i _ hi => hne i (by omega)),
    storeEntries_of_ne _ _ _ _ _ (fun i _ hi => hne i (by omega)),
    storeEntries_of_ne _ _ _ _ _ (fun e _ he => hne' e (by omega)),
    storeEntries_of_ne _ _ _ _ _ (fun e _ he => hne' e (by omega))]

end

/-! ### The walk -/

theorem writable_eq_getLsbD (x : BitVec 32) : writable x = x.getLsbD 1 := by
  have htwo : PTF_RW = BitVec.twoPow 32 1 := by decide
  unfold writable
  rw [htwo, BitVec.and_twoPow]
  cases x.getLsbD 1 <;> decide

theorem writable_or (x y : BitVec 32) : writable (x ||| y) = (writable x || writable y) := by
  rw [writable_eq_getLsbD, writable_eq_getLsbD, writable_eq_getLsbD, BitVec.getLsbD_or]

theorem rootPde_spec {x : BitVec 32} (h : PageAligned x) :
    PE_ADDR (x ||| PTF_PRESENT ||| PTF_RW ||| PTF_GLOBAL) = x ∧
      present (x ||| PTF_PRESENT ||| PTF_RW ||| PTF_GLOBAL) = true ∧
      writable (x ||| PTF_PRESENT ||| PTF_RW ||| PTF_GLOBAL) = true := by
  have hlow : PE_ADDR PTF_PRESENT = 0#32 ∧ PE_ADDR PTF_RW = 0#32 ∧ PE_ADDR PTF_GLOBAL = 0#32 := by
    decide
  have hset : present PTF_PRESENT = true ∧ writable PTF_RW = true := by decide
  refine ⟨?_, ?_, ?_⟩
  · rw [PE_ADDR_or, PE_ADDR_or, PE_ADDR_or, hlow.1, hlow.2.1, hlow.2.2, BitVec.or_zero,
      BitVec.or_zero, BitVec.or_zero, PE_ADDR_of_aligned h]
  · simp only [present_or, hset.1, Bool.or_true, Bool.true_or]
  · simp only [writable_or, hset.2, Bool.or_true, Bool.true_or]

theorem rootPte_spec {e : Nat} (he : e < PGD_ENTRIES * PGT_ENTRIES) :
    (PE_ADDR (PTE_DESC (BitVec.ofNat 32 e) (PTF_PRESENT ||| PTF_RW))).toNat = e * PAGE_SIZE ∧
      present (PTE_DESC (BitVec.ofNat 32 e) (PTF_PRESENT ||| PTF_RW)) = true ∧
      writable (PTE_DESC (BitVec.ofNat 32 e) (PTF_PRESENT ||| PTF_RW)) = true := by
  have hlow : PE_ADDR (PTF_PRESENT ||| PTF_RW) = 0#32 ∧ present (PTF_PRESENT ||| PTF_RW) = true ∧
      writable (PTF_PRESENT ||| PTF_RW) = true := by
    decide
  have hval : (BitVec.ofNat 32 e <<< PAGE_SHIFT).toNat = e * 4096 := by
    unfold PGD_ENTRIES PGT_ENTRIES at he
    unfold PAGE_SHIFT
    rw [BitVec.toNat_shiftLeft, BitVec.toNat_ofNat, Nat.shiftLeft_eq]
    omega
  unfold PTE_DESC
  refine ⟨?_, ?_, ?_⟩
  · rw [PE_ADDR_or, hlow.1, BitVec.or_zero, PE_ADDR_toNat]
    unfold PAGE_SIZE
    omega
  · rw [present_or, hlow.2.1, Bool.or_true]
  · rw [writable_or, hlow.2.2, Bool.or_true]

theorem slot_table {x : BitVec 32} {d t pages : Nat}
    (hblock : x.toNat + pages * PAGE_SIZE ≤ WORD_RANGE) (hd : d < pages) :
    slot (x + BitVec.ofNat 32 (d * PAGE_SIZE)) t = slot x (d * PGT_ENTRIES + t) := by
  unfold slot
  rw [BitVec.toNat_add, BitVec.toNat_ofNat]
  unfold PAGE_SIZE WORD_RANGE at *
  unfold PGT_ENTRIES
  omega

/-- The root mapping is the identity on the physical pages, and maps no other page.  It is
made with stores to its directory and its block only. -/
theorem rootMap_identity (h : RootRoom physPgs pgdir pgtable) (mem : Words) :
    (∀ virt : PageAddr, pageAccess (initRootmap physPgs pgdir pgtable mem) pgdir virt =
      if virt.1.toNat / PAGE_SIZE < physPgs then some (virt.1, true) else none) ∧
    ∀ x, ¬ InDir pgdir x → ¬ InBlock pgtable (rootTablePages physPgs) x →
      initRootmap physPgs pgdir pgtable mem x = mem x := by
  refine ⟨fun virt => ?_, fun x => initRootmap_of_outside h⟩
  obtain ⟨hsz, hroom⟩ := h.tablesz_le
  have hmul := tablesz_mul physPgs
  have hdir := PGDIDX_lt virt
  have htab := PGTIDX_lt virt
  have haligned := pageAligned_iff.mp virt.2
  -- the number of the page, from its two indices
  have hvpn : virt.1.toNat / PAGE_SIZE = PGDIDX virt * PGT_ENTRIES + PGTIDX virt := by
    rw [PGDIDX_eq, PGTIDX_eq]
    unfold PAGE_SIZE PGT_ENTRIES
    omega
  unfold pageAccess
  rw [initRootmap_pgdir physPgs _ hdir, hvpn]
  by_cases hd : PGDIDX virt < tablesz physPgs
  · obtain ⟨haddr, hpresent, hwritable⟩ := rootPde_spec (pageAligned_add pgtable.2 (PGDIDX virt))
    have he : PGDIDX virt * PGT_ENTRIES + PGTIDX virt < tablesz physPgs * PGT_ENTRIES := by
      unfold PGT_ENTRIES at htab ⊢
      omega
    rw [if_pos hd, if_pos hpresent, haddr,
      slot_table h.block_le (Nat.lt_of_lt_of_le hd hroom), initRootmap_pgtable h he]
    by_cases hlt : PGDIDX virt * PGT_ENTRIES + PGTIDX virt < physPgs
    · obtain ⟨hpage, hpresent', hwritable'⟩ := rootPte_spec (Nat.lt_of_lt_of_le hlt h.le)
      have heq : PE_ADDR (PTE_DESC (BitVec.ofNat 32 (PGDIDX virt * PGT_ENTRIES + PGTIDX virt))
          (PTF_PRESENT ||| PTF_RW)) = virt.1 := by
        apply BitVec.eq_of_toNat_eq
        rw [hpage, ← hvpn]
        unfold PAGE_SIZE
        omega
      rw [if_pos hlt, if_pos hpresent', if_pos hlt, heq, hwritable, hwritable']
      rfl
    · rw [if_neg hlt, if_neg hlt, if_neg (by decide)]
  · have hge : ¬ PGDIDX virt * PGT_ENTRIES + PGTIDX virt < physPgs := by
      unfold PGT_ENTRIES at *
      omega
    rw [if_neg hd, if_neg (by decide), if_neg hge]

end Root

theorem rootMap_identity_two_tables : RootRoom 1025 ⟨0x1000#32, by decide⟩ ⟨0x2000#32, by decide⟩ ∧
      pageAccess (initRootmap 1025 0x1000#32 0x2000#32 (fun _ => 0)) 0x1000#32 0x400000#32 =
        some (0x400000#32, true) := by
  have hroom : RootRoom 1025 ⟨0x1000#32, by decide⟩ ⟨0x2000#32, by decide⟩ :=
    ⟨by decide, by decide, by decide, by decide⟩
  have hlast := (rootMap_identity hroom (fun _ => 0)).1 ⟨0x400000#32, by decide⟩
  refine ⟨hroom, hlast.trans ?_⟩
  decide

/-! ## The block of a clone -/

/-- The pages of the block that `clone_map` takes for its tables. -/
def cloneTablePages (physPgs : Nat) : Nat :=
  2 ^ log2 ((physPgs + PGT_ENTRIES - 1) % WORD_RANGE / PGT_ENTRIES)

/-- The word that a round of `clone_map` stores last in its directory entry. -/
def cloneWord (dst map pgtable : BitVec 32) (d : Nat) (mem : Words) : BitVec 32 :=
  setWord mem (slot dst d) (mem (slot map d) &&& PAGE_MASK) (slot dst d) ||| pgtable

/-- The words that the rounds of `clone_map` store in the new directory. -/
def cloneDirStores (dst map : BitVec 32) : BitVec 32 → Nat → Nat → Words → List (BitVec 32)
  | _, _, 0, _ => []
  | pgtable, d, n + 1, mem =>
    cloneWord dst map pgtable d mem ::
      cloneDirStores dst map (pgtable + BitVec.ofNat 32 PAGE_SIZE) (d + 1) n
        (cloneEntry dst map pgtable d mem)

theorem cloneDirStores_getElem? (dst map : BitVec 32) {pgtable : BitVec 32}
    (htab : PageAligned pgtable) (n d : Nat) (mem : Words) {k : Nat} (hk : k < n) :
    ∃ w, (cloneDirStores dst map pgtable d n mem)[k]? = some w ∧
      PE_ADDR w = pgtable + BitVec.ofNat 32 (k * PAGE_SIZE) := by
  induction n generalizing pgtable d mem k with
  | zero => exact absurd hk (Nat.not_lt_zero k)
  | succ n ih =>
    rw [cloneDirStores]
    cases k with
    | zero =>
      refine ⟨_, rfl, ?_⟩
      unfold cloneWord
      rw [setWord_self, PE_ADDR_or, PE_ADDR_mask, BitVec.zero_or, PE_ADDR_of_aligned htab,
        Nat.zero_mul, BitVec.add_zero]
    | succ k =>
      obtain ⟨w, hw, haddr⟩ := ih (pageAligned_next htab) (d + 1)
        (cloneEntry dst map pgtable d mem) (Nat.lt_of_succ_lt_succ hk)
      refine ⟨w, hw, ?_⟩
      rw [haddr, add_page]

theorem cloneDirStores_length (dst map : BitVec 32) (n : Nat) : ∀ (pgtable : BitVec 32) (d : Nat)
    (mem : Words), (cloneDirStores dst map pgtable d n mem).length = n := by
  induction n with
  | zero => exact fun _ _ _ => rfl
  | succ n ih =>
    intro pgtable d mem
    rw [cloneDirStores, List.length_cons, ih]

/-- The words that are stored are those that the loop leaves in the directory, when the
directory is not one of the tables. -/
theorem cloneDirStores_eq_pgdir {pgdir pgtable : BitVec 32} (map : BitVec 32)
    (hdir : PageAligned pgdir) (n d : Nat) (mem : Words) (htab : PageAligned pgtable)
    (hn : d + n ≤ PGD_ENTRIES)
    (hapart : ∀ k < n, pgtable + BitVec.ofNat 32 (k * PAGE_SIZE) ≠ pgdir) {k : Nat} (hk : k < n) :
    (cloneDirStores pgdir map pgtable d n mem)[k]? =
      some (cloneLoop pgdir map pgtable d n mem (slot pgdir (d + k))) := by
  induction n generalizing pgtable d mem k with
  | zero => exact absurd hk (Nat.not_lt_zero k)
  | succ n ih =>
    have hapart' : ∀ k < n, pgtable + BitVec.ofNat 32 PAGE_SIZE + BitVec.ofNat 32 (k * PAGE_SIZE) ≠
        pgdir := by
      intro k hk
      rw [add_page]
      exact hapart (k + 1) (Nat.succ_lt_succ hk)
    unfold cloneDirStores cloneLoop
    cases k with
    | zero =>
      have hne : pgtable ≠ pgdir := by simpa using hapart 0 hk
      -- the later rounds store to later entries
      have hlater := (cloneLoop_pgdir map hdir n (d + 1) (cloneEntry pgdir map pgtable d mem)
        (pageAligned_next htab) (by omega) hapart' (show d < PGD_ENTRIES by omega)).1
        (Nat.lt_succ_self d)
      rw [List.getElem?_cons_zero, Nat.add_zero d, hlater,
        cloneEntry_pgdir hdir htab hne (by omega) (by omega), if_pos rfl, cloneWord, setWord_self]
    | succ k =>
      have hidx : d + (k + 1) = d + 1 + k := by omega
      rw [List.getElem?_cons_succ, hidx]
      exact ih (d + 1) _ (pageAligned_next htab) (by omega) hapart' (Nat.lt_of_succ_lt_succ hk)

/-- The block has a page for every table of the clone only if more than half of all pages are
there, and their number does not wrap when it is rounded up. -/
theorem cloneTablePages_iff {physPgs : Nat} (hlt : physPgs < WORD_RANGE) :
    PGD_ENTRIES ≤ cloneTablePages physPgs ↔
      524288 < physPgs ∧ physPgs ≤ WORD_RANGE - PGT_ENTRIES := by
  have hten : PGD_ENTRIES = 2 ^ 10 := rfl
  unfold cloneTablePages
  rw [hten, Nat.pow_le_pow_iff_right (Nat.lt_succ_self 1)]
  have htables : 512 < (physPgs + PGT_ENTRIES - 1) % WORD_RANGE / PGT_ENTRIES ↔
      524288 < physPgs ∧ physPgs ≤ WORD_RANGE - PGT_ENTRIES := by
    unfold PGT_ENTRIES
    unfold WORD_RANGE at *
    omega
  rw [← htables]
  have hle : (physPgs + PGT_ENTRIES - 1) % WORD_RANGE / PGT_ENTRIES < WORD_RANGE :=
    Nat.lt_of_le_of_lt (Nat.div_le_self _ _) (Nat.mod_lt _ (by decide))
  generalize (physPgs + PGT_ENTRIES - 1) % WORD_RANGE / PGT_ENTRIES = x at hle ⊢
  by_cases hx : 1 ≤ x
  · have hlog : log2 x ≤ 9 ↔ x ≤ 2 ^ 9 := log2_le_iff hx hle
    omega
  · obtain rfl : x = 0 := by omega
    decide

def TableInside (pgtable : BitVec 32) (pages : Nat) (pde : BitVec 32) : Prop :=
  pgtable.toNat ≤ (PE_ADDR pde).toNat ∧
    (PE_ADDR pde).toNat + PAGE_SIZE ≤ pgtable.toNat + pages * PAGE_SIZE

def TablesApart (pde pde' : BitVec 32) : Prop :=
  ∀ t < PGT_ENTRIES, ∀ u < PGT_ENTRIES, slot (PE_ADDR pde) t ≠ slot (PE_ADDR pde') u

theorem cloneDirStores_pairwise {dst map pgtable : BitVec 32} (htab : PageAligned pgtable)
    (mem : Words) : (cloneDirStores dst map pgtable 0 PGD_ENTRIES mem).Pairwise TablesApart := by
  rw [List.pairwise_iff_getElem]
  intro k l hk hl hlt t ht u hu heq
  rw [cloneDirStores_length] at hk hl
  obtain ⟨w, hw, haddr⟩ := cloneDirStores_getElem? dst map htab PGD_ENTRIES 0 mem hk
  obtain ⟨w', hw', haddr'⟩ := cloneDirStores_getElem? dst map htab PGD_ENTRIES 0 mem hl
  rw [List.getElem?_eq_some_iff] at hw hw'
  rw [hw.2, hw'.2, haddr, haddr',
    slot_eq_iff (pageAligned_add htab k) (pageAligned_add htab l) ht hu] at heq
  exact Nat.ne_of_lt hlt (add_pages_inj pgtable hk hl heq.1)

/-- All tables of a clone are inside the block that was taken for them only if the machine has
more than 524288 pages. -/
theorem cloneMap_inside_iff {physPgs : Nat} (hlt : physPgs < WORD_RANGE)
    (dst map : BitVec 32) (pgtable : PageAddr)
    (hblock : pgtable.1.toNat + cloneTablePages physPgs * PAGE_SIZE ≤ WORD_RANGE) (mem : Words) :
    ((∀ w ∈ cloneDirStores dst map pgtable 0 PGD_ENTRIES mem,
        TableInside pgtable (cloneTablePages physPgs) w) ∧
      (cloneDirStores dst map pgtable 0 PGD_ENTRIES mem).Pairwise TablesApart) ↔
      524288 < physPgs ∧ physPgs ≤ WORD_RANGE - PGT_ENTRIES := by
  have hvalue : ∀ k < PGD_ENTRIES, (pgtable.1 + BitVec.ofNat 32 (k * PAGE_SIZE)).toNat =
      (pgtable.1.toNat + k * PAGE_SIZE) % WORD_RANGE := by
    intro k hk
    unfold PAGE_SIZE WORD_RANGE
    rw [BitVec.toNat_add, BitVec.toNat_ofNat]
    omega
  rw [and_iff_left (cloneDirStores_pairwise pgtable.2 mem), ← cloneTablePages_iff hlt]
  constructor
  · intro h
    by_contra hfew
    -- the first page behind the block is the table of an entry
    have hk : cloneTablePages physPgs < PGD_ENTRIES := Nat.lt_of_not_le hfew
    obtain ⟨w, hw, haddr⟩ := cloneDirStores_getElem? dst map pgtable.2 PGD_ENTRIES 0 mem hk
    have hinside := h w (List.mem_of_getElem? hw)
    unfold TableInside at hinside
    rw [haddr, hvalue _ hk] at hinside
    unfold PGD_ENTRIES at hk
    unfold PAGE_SIZE WORD_RANGE at *
    omega
  · intro hmany w hw
    obtain ⟨k, hk, hget⟩ := List.getElem_of_mem hw
    rw [cloneDirStores_length] at hk
    obtain ⟨w', hw', haddr⟩ := cloneDirStores_getElem? dst map pgtable.2 PGD_ENTRIES 0 mem hk
    rw [List.getElem?_eq_some_iff] at hw'
    have heq : w = w' := by rw [← hget, hw'.2]
    unfold TableInside
    rw [heq, haddr, hvalue k hk]
    unfold PAGE_SIZE WORD_RANGE at *
    omega

theorem cloneMap_inside_all_pages : 1048576 < WORD_RANGE ∧
      ∀ w ∈ cloneDirStores 0x1000#32 0x2000#32 0x400000#32 0 PGD_ENTRIES (fun _ => 0),
        TableInside 0x400000#32 (cloneTablePages 1048576) w := by
  refine ⟨by decide, ?_⟩
  have hiff := @cloneMap_inside_iff 1048576 (by decide) 0x1000#32 0x2000#32
    ⟨0x400000#32, by decide⟩ (by decide) (fun _ => 0)
  exact (hiff.mpr (by decide)).1

/-- On a machine with 32 MiB the block has eight pages, and the table of the ninth directory
entry is behind it. -/
theorem cloneMap_outside : cloneTablePages 8192 = 8 ∧
      ¬ ∀ w ∈ cloneDirStores 0x1000#32 0x2000#32 0x400000#32 0 PGD_ENTRIES (fun _ => 0),
        TableInside 0x400000#32 8 w := by
  refine ⟨by decide, fun h => ?_⟩
  have htab : PageAligned 0x400000#32 := by decide
  obtain ⟨w, hw, haddr⟩ := @cloneDirStores_getElem? 0x1000#32 0x2000#32 _ htab PGD_ENTRIES 0
    (fun _ => 0) 8 (by decide)
  have hinside := (h w (List.mem_of_getElem? hw)).2
  rw [haddr] at hinside
  exact absurd hinside (by decide)

end Koowaldah
