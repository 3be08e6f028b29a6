import Koowaldah.Arch

/-!
# Symbol tables

A model of `symtab_lookup_addr` of `kernel/symtab.c`, with the table that `tools/symtab.sh`
writes: the functions of the kernel, sorted by address.

`SYMTAB_IS_HIT` takes the end of a range for a part of it, and a search that finds nothing returns
the index of the first symbol.  So the address of a function is taken for the function before it
when there is no gap between the two, and an address outside all functions is always taken for
one (`symtabLookupAddr_finds_iff`).
-/

namespace Koowaldah

/-- `struct symbol`, without the texts. -/
structure Symbol where
  addr : Nat
  size : Nat
deriving DecidableEq, Repr

/-- `symbol_table` as `symtab.sh` writes it: no symbol has the address or the size 0, the ranges
follow each other, and `end_addr` is an `unsigned long`. -/
structure SymbolTable where
  symbols : List Symbol
  pos : ∀ s ∈ symbols, 0 < s.addr ∧ 0 < s.size
  sorted : symbols.Pairwise (fun s s' => s.addr + s.size ≤ s'.addr)
  end_lt : ∀ s ∈ symbols, s.addr + s.size < WORD_RANGE

namespace SymbolTable

def startAddr (t : SymbolTable) : Nat := (t.symbols.head?.map Symbol.addr).getD 0

def endAddr (t : SymbolTable) : Nat := (t.symbols.getLast?.map (fun s => s.addr + s.size)).getD 0

end SymbolTable

def symtabIsHit (addr : Nat) (s : Symbol) : Bool :=
  s.addr ≤ addr && addr ≤ (s.addr + s.size) % WORD_RANGE

def symtabLookupAddr (t : SymbolTable) (addr : Nat) : Nat :=
  if addr < t.startAddr ∨ t.endAddr < addr then 0
  else (t.symbols.findIdx? (symtabIsHit addr)).getD 0

namespace SymbolTable

variable {t : SymbolTable} {addr i j : Nat}

/-- The address is in the range of symbol `i`. -/
def InRange (t : SymbolTable) (i addr : Nat) : Prop :=
  ∃ h : i < t.symbols.length, t.symbols[i].addr ≤ addr ∧
    addr < t.symbols[i].addr + t.symbols[i].size

theorem isHit_iff (h : i < t.symbols.length) : symtabIsHit addr t.symbols[i] = true ↔
    t.symbols[i].addr ≤ addr ∧ addr ≤ t.symbols[i].addr + t.symbols[i].size := by
  have hlt := t.end_lt _ (List.getElem_mem h)
  unfold symtabIsHit
  rw [Nat.mod_eq_of_lt hlt, Bool.and_eq_true, decide_eq_true_iff, decide_eq_true_iff]

theorem end_le (hij : i < j) (hj : j < t.symbols.length) :
    t.symbols[i].addr + t.symbols[i].size ≤ t.symbols[j].addr :=
  List.pairwise_iff_getElem.mp t.sorted i j (by omega) hj hij

theorem InRange.lookup_eq (h : t.InRange i addr) :
    symtabLookupAddr t addr = (t.symbols.findIdx? (symtabIsHit addr)).getD 0 := by
  obtain ⟨hi, hlow, hhigh⟩ := h
  have hstart : t.startAddr ≤ t.symbols[i].addr := by
    unfold startAddr
    rw [List.head?_eq_getElem?, List.getElem?_eq_getElem (Nat.zero_lt_of_lt hi)]
    rcases Nat.eq_zero_or_pos i with rfl | hpos
    · exact Nat.le_refl _
    · exact Nat.le_trans (Nat.le_add_right _ _) (end_le hpos hi)
  have hend : t.symbols[i].addr + t.symbols[i].size ≤ t.endAddr := by
    unfold endAddr
    rw [List.getLast?_eq_getElem?, List.getElem?_eq_getElem (by omega)]
    rcases Nat.lt_or_ge i (t.symbols.length - 1) with hlt | hge
    · exact Nat.le_trans (end_le hlt (by omega)) (Nat.le_add_right _ _)
    · simp only [show t.symbols.length - 1 = i by omega]
      exact Nat.le_refl _
  exact if_neg (by omega)

/-- A hit before the symbol of an address can only be the symbol in front of it, at its end. -/
theorem InRange.hit_before (h : t.InRange i addr) (hji : j < i) (hj : j < t.symbols.length) :
    symtabIsHit addr t.symbols[j] = true ↔
      j + 1 = i ∧ t.symbols[j].addr + t.symbols[j].size = addr := by
  obtain ⟨hi, hlow, hhigh⟩ := h
  have hle := end_le hji hi
  rw [isHit_iff hj]
  constructor
  · intro hhit
    refine ⟨?_, by omega⟩
    by_contra hne
    have hnext := end_le (show j < j + 1 by omega) (show j + 1 < t.symbols.length by omega)
    have hthen := end_le (show j + 1 < i by omega) hi
    have hpos := (t.pos _ (List.getElem_mem (show j + 1 < t.symbols.length by omega))).2
    omega
  · intro hend
    omega

theorem InRange.unique (h : t.InRange i addr) (h' : t.InRange j addr) : i = j := by
  obtain ⟨hi, hlow, hhigh⟩ := h
  obtain ⟨hj, hlow', hhigh'⟩ := h'
  rcases Nat.lt_trichotomy i j with hlt | heq | hgt
  · have := end_le hlt hj
    omega
  · exact heq
  · have := end_le hgt hi
    omega

/-- The symbol in front of symbol `i` does not end at the address. -/
def NotEndBefore (t : SymbolTable) (i addr : Nat) : Prop :=
  ∀ (j : Nat) (h : j < t.symbols.length), j + 1 = i →
    t.symbols[j].addr + t.symbols[j].size ≠ addr

theorem InRange.lookup_eq_iff (h : t.InRange i addr) :
    symtabLookupAddr t addr = i ↔ t.NotEndBefore i addr := by
  have hi := h.1
  rw [h.lookup_eq]
  constructor
  · intro hlookup j hj hji hend
    have hhit := (h.hit_before (by omega) hj).mpr ⟨hji, hend⟩
    cases hk : t.symbols.findIdx? (symtabIsHit addr) with
    | none =>
      rw [List.findIdx?_eq_none_iff.mp hk _ (List.getElem_mem hj)] at hhit
      cases hhit
    | some k =>
      rw [hk] at hlookup
      obtain rfl : k = i := hlookup
      obtain ⟨hlt, -, hfirst⟩ := List.findIdx?_eq_some_iff_getElem.mp hk
      exact hfirst j (by omega) hhit
  · intro hnot
    have hfound : t.symbols.findIdx? (symtabIsHit addr) = some i := by
      rw [List.findIdx?_eq_some_iff_getElem]
      refine ⟨hi, (isHit_iff hi).mpr ⟨h.2.1, Nat.le_of_lt h.2.2⟩, fun j hji hhit => ?_⟩
      obtain ⟨hnext, hend⟩ := (h.hit_before hji (by omega)).mp hhit
      exact hnot j (by omega) hnext hend
    rw [hfound]
    rfl

end SymbolTable

theorem symtabLookupAddr_lt {t : SymbolTable} (hne : t.symbols ≠ []) (addr : Nat) :
    symtabLookupAddr t addr < t.symbols.length := by
  have hpos := List.length_pos_of_ne_nil hne
  unfold symtabLookupAddr
  split
  · exact hpos
  · cases hfound : t.symbols.findIdx? (symtabIsHit addr) with
    | none => exact hpos
    | some k => exact (List.findIdx?_eq_some_iff_getElem.mp hfound).1

/-- What a search is for: the symbol of an address, and no symbol for an address without one. -/
def SymbolTable.Finds (t : SymbolTable) (addr : Nat) : Prop :=
  (∀ i, t.InRange i addr → symtabLookupAddr t addr = i) ∧
    ((∀ i, ¬t.InRange i addr) → ¬symtabLookupAddr t addr < t.symbols.length)

/-- A search is right for the addresses in a range that are not the end of the range before it,
and for no others: what it returns for an address outside of all ranges is always an index of the
table. -/
theorem symtabLookupAddr_finds_iff (t : SymbolTable) (addr : Nat) :
    t.Finds addr ↔ t.symbols = [] ∨ ∃ i, t.InRange i addr ∧ t.NotEndBefore i addr := by
  constructor
  · intro hfinds
    by_cases hin : ∃ i, t.InRange i addr
    · obtain ⟨i, hi⟩ := hin
      exact .inr ⟨i, hi, hi.lookup_eq_iff.mp (hfinds.1 i hi)⟩
    · rw [not_exists] at hin
      by_contra hne
      exact hfinds.2 hin (symtabLookupAddr_lt (fun h => hne (.inl h)) addr)
  · intro h
    rcases h with hnil | ⟨i, hi, hnot⟩
    · refine ⟨fun i ⟨hlt, _⟩ => ?_, fun _ => ?_⟩
      · rw [hnil] at hlt
        exact absurd hlt (Nat.not_lt_zero i)
      · rw [hnil]
        exact Nat.not_lt_zero _
    · refine ⟨fun j hj => ?_, fun hout => absurd hi (hout i)⟩
      rw [← hi.unique hj]
      exact hi.lookup_eq_iff.mpr hnot

/-- Two functions without a gap, and one behind a gap. -/
def threeSymbols : SymbolTable :=
  ⟨[⟨0x1000, 0x10⟩, ⟨0x1010, 0x10⟩, ⟨0x1030, 0x10⟩], by decide, by decide, by decide⟩

/-- The first address of the second function is taken for the first function, and so is an address
in the gap. -/
theorem symtabLookupAddr_shared_end :
    threeSymbols.InRange 1 0x1010 ∧ symtabLookupAddr threeSymbols 0x1010 = 0 ∧
      (∀ i, ¬threeSymbols.InRange i 0x1028) ∧ symtabLookupAddr threeSymbols 0x1028 = 0 := by
  refine ⟨⟨by decide, by decide⟩, by decide, ?_, by decide⟩
  rintro i ⟨hi, hin⟩
  have hout : ∀ i, (h : i < 3) → ¬(threeSymbols.symbols[i].addr ≤ 0x1028 ∧
      0x1028 < threeSymbols.symbols[i].addr + threeSymbols.symbols[i].size) := by decide
  exact hout i hi hin

end Koowaldah
