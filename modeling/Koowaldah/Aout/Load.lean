import Koowaldah.Aout.Copy
import Koowaldah.Fs.Virtfs
import Koowaldah.MemArea.Alloc

/-!
# Loading an `a.out` binary

`aout_load` of `kernel/fs/aout.c`, with the macros of `include/aout.h`.  The sizes of the
sections come from the header of the file, and nothing compares them with the length of the
file.  The numbers of pages are computed on 32 bits.

The entries of `i_pages` that have been filled are a list.  A run that reads another entry, or
goes on behind the last page of an area, ends with `VmFault.freed`, and so does one that uses
an area that `mem_area_alloc_new` did not make.

The header is read once, at the start.  The source reads it again between the copies, which go
to pages that `mem_area_alloc_new` has just taken from the free ones.
-/

namespace Koowaldah

open SysLib SysLib.Dyadic SysLib.Links

variable {s : VmState} {off : Nat}

/-! ## Headers -/

/-- `struct exec`, without the fields that the loader only prints or does not use. -/
structure AoutExec where
  aMidmag : BitVec 32
  aText : BitVec 32
  aData : BitVec 32
  aBss : BitVec 32
  aEntry : BitVec 32
deriving DecidableEq, Repr

/-- `sizeof(struct exec)`. -/
def SIZEOF_EXEC : Nat := 32

def ENOEXEC : Int := 8

def AOUT_OMAGIC : BitVec 32 := 0x107#32

def MMA_RO : Nat := 0

/-- `AOUTH`: the header at an address. -/
def aoutHeader (mem : ByteMem) (addr : Nat) : AoutExec :=
  let bytes := readBytes mem addr SIZEOF_EXEC
  { aMidmag := BitVec.ofNat 32 (wordAt bytes 0)
    aText := BitVec.ofNat 32 (wordAt bytes 4)
    aData := BitVec.ofNat 32 (wordAt bytes 8)
    aBss := BitVec.ofNat 32 (wordAt bytes 12)
    aEntry := BitVec.ofNat 32 (wordAt bytes 20) }

namespace AoutExec

/-- `AOUT_isOMAGIC`. -/
def isOMAGIC (h : AoutExec) : Bool := h.aMidmag &&& 0xffff#32 = AOUT_OMAGIC

/-- `AOUT_TEXTOFF`. -/
def textOff (_ : AoutExec) : Nat := SIZEOF_EXEC

/-- `AOUT_DATAOFF`. -/
def dataOff (h : AoutExec) : Nat := addWord h.textOff h.aText.toNat

end AoutExec

/-- `INPAGES`, with `PGALIGN`. -/
def inPages (x : Nat) : Nat := roundupL2 x PAGE_SIZE / PAGE_SIZE

namespace AoutExec

def cpg (h : AoutExec) : Nat := inPages h.aText.toNat

def dpg (h : AoutExec) : Nat := inPages (addWord h.aData.toNat h.aBss.toNat)

end AoutExec

/-! ## The load -/

/-- What a load is given besides the file: the number of the mapping, the slices that
`slice_alloc` hands out for the areas of the mapping, the place of the local list head of
`mem_area_alloc_new`, and a bound on the rounds of each loop. -/
structure LoadEnv where
  fuel : Nat
  list : Nat
  map : Nat
  slices : Nat → Nat

/-- The areas and the memory, and the array `m_mma` of the mapping with `m_nmma`. -/
structure LoadState where
  vm : VmState
  mem : ByteMem
  mMma : Nat → Option Nat
  mNmma : Nat

namespace LoadState

/-- `map->m_mma[i] = mem_area_alloc_new(map, start, pages, flags)`. -/
def allocMma (env : LoadEnv) (i start pages flags : Nat) (s : LoadState) :
    Except VmFault LoadState := do
  let (got, vm) ← s.vm.memAreaAllocNew env.fuel env.list env.map start pages flags (env.slices i)
  return { s with
    vm, mMma := Function.update s.mMma i (if got then some (env.slices i) else none) }

/-- `map->m_mma[i]`, where the area is used. -/
def mma (i : Nat) (s : LoadState) : Except VmFault Nat :=
  match s.mMma i with
  | none => .error .freed
  | some a => .ok a

/-- `aout_copy_section` into the area at `m_mma[i]`. -/
def copySection (env : LoadEnv) (fz : Zone) (pages : List Nat) (i off len : Nat)
    (s : LoadState) : Except VmFault LoadState := do
  let a ← s.mma i
  let mem ← s.vm.aoutCopySection env.fuel fz pages a off len s.mem
  return { s with mem }

/-- `aout_load`: the state, and the value returned. -/
def aoutLoad (env : LoadEnv) (fz : Zone) (pages : List Nat) (s : LoadState) :
    Except VmFault (LoadState × Int) :=
  match pages[0]? with
  | none => .error .freed
  | some pg =>
    let aouth := aoutHeader s.mem (pageToAddr fz pg)
    if aouth.isOMAGIC = false then .ok (s, -ENOEXEC)
    else do
      -- do text section
      let s ← s.allocMma env 0 aouth.aEntry.toNat aouth.cpg MMA_RO
      let s ← s.copySection env fz pages 0 aouth.textOff aouth.aText.toNat
      -- do data section
      let text ← s.vm.area (← s.mma 0)
      let s ← s.allocMma env 1 text.mEnd aouth.dpg MMA_RW
      let s ← s.copySection env fz pages 1 aouth.dataOff aouth.aData.toNat
      return ({ s with mNmma := 2 }, 0)

end LoadState

/-! ## The pages that are read -/

namespace SectionCursor

/-- The entries of `i_pages` that the rounds of the loop read. -/
def reads : Nat → SectionCursor → List Nat
  | 0, _ => []
  | n + 1, c => if c.left = 0 then [] else c.pgnum :: c.advance.reads n

/-- The same round: `to` has the same offset in its page. -/
structure Same (c c' : SectionCursor) : Prop where
  pgnum : c.pgnum = c'.pgnum
  pgoff : c.pgoff = c'.pgoff
  left : c.left = c'.left
  toAddr : c.toAddr % PAGE_SIZE = c'.toAddr % PAGE_SIZE

theorem Same.refl (c : SectionCursor) : Same c c := ⟨rfl, rfl, rfl, rfl⟩

theorem Same.tocopy {c c' : SectionCursor} (h : Same c c') : c.tocopy = c'.tocopy := by
  unfold SectionCursor.tocopy
  rw [h.pgoff, h.left, h.toAddr]

theorem Same.advance {c c' : SectionCursor} (h : Same c c') : Same c.advance c'.advance := by
  have hto : (c.toAddr + c'.tocopy) % PAGE_SIZE = (c'.toAddr + c'.tocopy) % PAGE_SIZE := by
    rw [Nat.add_mod, h.toAddr, ← Nat.add_mod]
  unfold SectionCursor.advance
  rw [h.tocopy, h.pgoff, h.left, h.pgnum]
  dsimp only
  exact ⟨rfl, by rw [hto], rfl, hto⟩

end SectionCursor

/-- The entries of `i_pages` that `aout_copy_section` reads. -/
def sectionReads (off len : Nat) : List Nat := (SectionCursor.start off len).reads len

section

variable (haligned : s.zone.base % PAGE_SIZE = 0)

include haligned

theorem sectionTo_mod {tmp : AreaNode} {c : SectionCursor}
    {toAddr : Nat} (h : s.sectionTo tmp c = .ok toAddr) :
    toAddr % PAGE_SIZE = c.toAddr % PAGE_SIZE := by
  unfold VmState.sectionTo at h
  split at h
  · cases tmp with
    | head _ => cases h
    | page q =>
      cases h
      unfold pageToAddr
      unfold PAGE_SIZE at *
      omega
  · cases h
    rfl

theorem copySectionLoop_reads {fz : Zone}
    {pages : List Nat} (fuel : Nat) : ∀ {c c' : SectionCursor} {tmp : AreaNode}
    {mem mem' : ByteMem}, c.Same c' →
    VmState.copySectionLoop fz pages s fuel tmp c mem = .ok mem' →
    ∀ n, ∀ k ∈ c'.reads n, k < pages.length := by
  induction fuel with
  | zero => exact fun _ h => nomatch h
  | succ fuel ih =>
    intro c c' tmp mem mem' hsame hrun n k hk
    rw [VmState.copySectionLoop] at hrun
    cases n with
    | zero => cases hk
    | succ n =>
      rw [SectionCursor.reads] at hk
      split at hk
      · cases hk
      · rename_i hleft
        rw [if_neg (hsame.left ▸ hleft)] at hrun
        split at hrun
        · cases hrun
        · rename_i page hpage
          obtain ⟨toAddr, hto, hrest⟩ := bind_eq_ok.mp hrun
          rw [hsame.pgnum] at hpage
          rcases List.mem_cons.mp hk with rfl | hk
          · exact (List.getElem?_eq_some_iff.mp hpage).1
          · have hround : SectionCursor.Same { c with toAddr } c' :=
              ⟨hsame.pgnum, hsame.pgoff, hsame.left,
                (sectionTo_mod haligned hto).trans hsame.toAddr⟩
            exact ih hround.advance hrest n k hk

theorem copySectionLoop_append (fz : Zone)
    {pages : List Nat} (more : List Nat) (fuel : Nat) : ∀ {c c' : SectionCursor} (tmp : AreaNode)
    (mem : ByteMem), c.Same c' → (∀ k ∈ c'.reads fuel, k < pages.length) →
    VmState.copySectionLoop fz (pages ++ more) s fuel tmp c mem =
      VmState.copySectionLoop fz pages s fuel tmp c mem := by
  induction fuel with
  | zero => exact fun _ _ _ _ => rfl
  | succ fuel ih =>
    intro c c' tmp mem hsame hreads
    rw [VmState.copySectionLoop, VmState.copySectionLoop]
    by_cases hleft : c'.left = 0
    · rw [if_pos (hsame.left.trans hleft), if_pos (hsame.left.trans hleft)]
    · rw [SectionCursor.reads, if_neg hleft] at hreads
      have hpgnum : c.pgnum < pages.length := hsame.pgnum ▸ hreads _ List.mem_cons_self
      rw [if_neg (hsame.left ▸ hleft), if_neg (hsame.left ▸ hleft),
        List.getElem?_append_left hpgnum, List.getElem?_eq_getElem hpgnum]
      cases hto : s.sectionTo tmp c with
      | error e => rfl
      | ok toAddr =>
        have hround : SectionCursor.Same { c with toAddr } c' :=
          ⟨hsame.pgnum, hsame.pgoff, hsame.left,
            (sectionTo_mod haligned hto).trans hsame.toAddr⟩
        exact ih _ _ hround.advance (fun k hk => hreads k (List.mem_cons_of_mem _ hk))

end

theorem SectionCursor.reads_mono {k : Nat} (m n : Nat) : ∀ {c : SectionCursor},
    k ∈ c.reads n → k ∈ c.reads (n + m) := by
  induction n with
  | zero => exact fun hk => nomatch hk
  | succ n ih =>
    intro c hk
    rw [Nat.succ_add, SectionCursor.reads]
    rw [SectionCursor.reads] at hk
    split at hk
    · cases hk
    · rename_i hleft
      rw [if_neg hleft]
      exact List.mem_cons.mpr ((List.mem_cons.mp hk).imp_right ih)

theorem CursorAt.mem_reads_iff (rounds : Nat) : ∀ {n : Nat} {c : SectionCursor},
    CursorAt off n c → c.left ≠ 0 → c.left ≤ rounds → ∀ k, k ∈ c.reads rounds ↔
      (off + n) / PAGE_SIZE ≤ k ∧ k ≤ (off + n + c.left - 1) / PAGE_SIZE := by
  induction rounds with
  | zero => exact fun _ hleft hle => absurd (Nat.le_zero.mp hle) hleft
  | succ rounds ih =>
    intro n c hat hleft hle k
    obtain ⟨hpos, hcopy, hsrc, _⟩ := hat.tocopy_le hleft
    obtain ⟨hpgnum, hpgoff⟩ := hat.pgnum_eq
    have hleft' : c.advance.left = c.left - c.tocopy := rfl
    rw [SectionCursor.reads, if_neg hleft, List.mem_cons]
    by_cases hlast : c.tocopy = c.left
    · -- the rest of the section is in this page
      have hnil : c.advance.reads rounds = [] := by
        cases rounds with
        | zero => rfl
        | succ rounds => rw [SectionCursor.reads, if_pos (by omega)]
      rw [hnil]
      simp only [List.not_mem_nil, or_false]
      unfold PAGE_SIZE at *
      omega
    · have hstep := ih (hat.advance (by omega)) (by omega) (by omega) k
      rw [hstep]
      unfold PAGE_SIZE at *
      omega

theorem mem_sectionReads_iff (hoff : off < WORD_RANGE) (len k : Nat) : k ∈ sectionReads off len ↔
      len ≠ 0 ∧ off / PAGE_SIZE ≤ k ∧ k ≤ (off + len - 1) / PAGE_SIZE := by
  unfold sectionReads
  by_cases hlen : len = 0
  · rw [hlen]
    exact iff_of_false List.not_mem_nil (fun h => h.1 rfl)
  · rw [(cursorAt_start hoff len).mem_reads_iff len hlen (Nat.le_refl len) k, and_iff_right hlen]
    rfl

theorem mem_sectionReads_of_reads {len n k : Nat} (hoff : off < WORD_RANGE)
    (hk : k ∈ (SectionCursor.start off len).reads n) : k ∈ sectionReads off len := by
  have hlen : len ≠ 0 := by
    rintro rfl
    cases n with
    | zero => cases hk
    | succ n => exact nomatch hk
  have hmem := SectionCursor.reads_mono len n hk
  rw [(cursorAt_start hoff len).mem_reads_iff _ hlen (Nat.le_add_left len n)] at hmem
  exact (mem_sectionReads_iff hoff len k).mpr ⟨hlen, hmem⟩

theorem sectionReads_lt_iff (hoff : off < WORD_RANGE) (len filled : Nat) :
    (∀ k ∈ sectionReads off len, k < filled) ↔
      (len ≠ 0 → (off + len - 1) / PAGE_SIZE < filled) := by
  constructor
  · intro h hlen
    apply h
    rw [mem_sectionReads_iff hoff]
    refine ⟨hlen, ?_, Nat.le_refl _⟩
    apply Nat.div_le_div_right
    omega
  · intro h k hk
    rw [mem_sectionReads_iff hoff] at hk
    exact Nat.lt_of_le_of_lt hk.2.2 (h hk.1)

/-! ## The sizes of the areas -/

namespace AoutExec

/-- The entries of `i_pages` that a load reads. -/
def reads (h : AoutExec) : List Nat :=
  0 :: (sectionReads h.textOff h.aText.toNat ++ sectionReads h.dataOff h.aData.toNat)

/-- Each section has enough pages for the bytes that are copied into it. -/
def Fits (h : AoutExec) : Prop :=
  h.aText.toNat ≤ h.cpg * PAGE_SIZE ∧ h.aData.toNat ≤ h.dpg * PAGE_SIZE

end AoutExec

theorem inPages_mul (x : Nat) :
    inPages x * PAGE_SIZE = (x + (PAGE_SIZE - 1)) % WORD_RANGE / PAGE_SIZE * PAGE_SIZE := by
  unfold inPages roundupL2
  rw [Nat.mul_div_cancel _ (by decide)]

theorem le_inPages_iff {n x : Nat} (hx : x < WORD_RANGE) : n ≤ inPages x * PAGE_SIZE ↔
      n = 0 ∨ (x ≤ WORD_RANGE - PAGE_SIZE ∧ n ≤ (x + (PAGE_SIZE - 1)) / PAGE_SIZE * PAGE_SIZE) := by
  rw [inPages_mul]
  unfold WORD_RANGE PAGE_SIZE at *
  omega

theorem AoutExec.fits_iff (h : AoutExec) : h.Fits ↔ h.aText.toNat ≤ WORD_RANGE - PAGE_SIZE ∧
      (h.aData.toNat = 0 ∨ (addWord h.aData.toNat h.aBss.toNat ≤ WORD_RANGE - PAGE_SIZE ∧
        h.aData.toNat ≤
          (addWord h.aData.toNat h.aBss.toNat + (PAGE_SIZE - 1)) / PAGE_SIZE * PAGE_SIZE)) := by
  have htext : h.aText.toNat < WORD_RANGE := h.aText.isLt
  have hsum : addWord h.aData.toNat h.aBss.toNat < WORD_RANGE := Nat.mod_lt _ (by decide)
  unfold AoutExec.Fits AoutExec.cpg AoutExec.dpg
  rw [le_inPages_iff htext, le_inPages_iff hsum]
  refine and_congr_left fun _ => ?_
  unfold WORD_RANGE PAGE_SIZE at *
  omega

/-! ## Runs -/

theorem AoutExec.textOff_lt (h : AoutExec) : h.textOff < WORD_RANGE := by
  show SIZEOF_EXEC < WORD_RANGE
  decide

theorem AoutExec.dataOff_lt (h : AoutExec) : h.dataOff < WORD_RANGE := Nat.mod_lt _ (by decide)

namespace LoadState

variable {env : LoadEnv} {fz : Zone} {pages : List Nat} {s s' : LoadState} {i : Nat}

theorem allocMma_base {start npages flags : Nat} (hcont : hasFlag flags MMA_CONT = false)
    (hop : s.allocMma env i start npages flags = .ok s') : s'.vm.zone.base = s.vm.zone.base := by
  obtain ⟨⟨got, vm⟩, hnew, hret⟩ := bind_eq_ok.mp hop
  cases hret
  exact VmState.memAreaAllocNew_base hcont hnew

theorem copySection_reads {off len : Nat} (haligned : s.vm.zone.base % PAGE_SIZE = 0)
    (hop : s.copySection env fz pages i off len = .ok s') :
    s'.vm = s.vm ∧ ∀ k ∈ sectionReads off len, k < pages.length := by
  obtain ⟨a, -, hop⟩ := bind_eq_ok.mp hop
  obtain ⟨mem, hcopy, hret⟩ := bind_eq_ok.mp hop
  cases hret
  exact ⟨rfl, copySectionLoop_reads haligned _ (SectionCursor.Same.refl _) hcopy len⟩

theorem copySection_append {off len : Nat} (more : List Nat)
    (haligned : s.vm.zone.base % PAGE_SIZE = 0) (hoff : off < WORD_RANGE)
    (hreads : ∀ k ∈ sectionReads off len, k < pages.length) :
    s.copySection env fz (pages ++ more) i off len = s.copySection env fz pages i off len := by
  refine bind_congr_ok fun a _ => ?_
  have hloop := copySectionLoop_append haligned fz more env.fuel
    (s.vm.zone.areaList.next (.head a)) s.mem (SectionCursor.Same.refl (.start off len))
    (fun k hk => hreads k (mem_sectionReads_of_reads hoff hk))
  unfold VmState.aoutCopySection
  rw [hloop]

theorem aoutLoad_eq_ok {pg : Nat} {r : Int} (hpg : pages[0]? = some pg)
    (haligned : s.vm.zone.base % PAGE_SIZE = 0) (hop : s.aoutLoad env fz pages = .ok (s', r)) :
    (r = -ENOEXEC ∧ s' = s ∧ (aoutHeader s.mem (pageToAddr fz pg)).isOMAGIC = false) ∨
      (r = 0 ∧ (aoutHeader s.mem (pageToAddr fz pg)).isOMAGIC = true ∧
        ∀ k ∈ (aoutHeader s.mem (pageToAddr fz pg)).reads, k < pages.length) := by
  unfold aoutLoad at hop
  rw [hpg] at hop
  dsimp only at hop
  split at hop
  · rename_i hmagic
    cases hop
    exact .inl ⟨rfl, rfl, hmagic⟩
  · rename_i hmagic
    obtain ⟨s₁, htext, hop⟩ := bind_eq_ok.mp hop
    obtain ⟨s₂, hcopied, hop⟩ := bind_eq_ok.mp hop
    obtain ⟨a, -, hop⟩ := bind_eq_ok.mp hop
    obtain ⟨text, -, hop⟩ := bind_eq_ok.mp hop
    obtain ⟨s₃, hdata, hop⟩ := bind_eq_ok.mp hop
    obtain ⟨s₄, hcopied', hop⟩ := bind_eq_ok.mp hop
    cases hop
    have hbase₁ := allocMma_base (by decide) htext
    rw [← hbase₁] at haligned
    obtain ⟨hvm₂, hreads⟩ := copySection_reads haligned hcopied
    have hbase₃ := allocMma_base (by decide) hdata
    rw [← hvm₂, ← hbase₃] at haligned
    obtain ⟨-, hreads'⟩ := copySection_reads haligned hcopied'
    refine .inr ⟨rfl, Bool.eq_true_of_not_eq_false hmagic, ?_⟩
    intro k hk
    rcases List.mem_cons.mp hk with rfl | hk
    · exact (List.getElem?_eq_some_iff.mp hpg).1
    · exact (List.mem_append.mp hk).elim (hreads k) (hreads' k)

theorem aoutLoad_refused {r : Int} (hop : s.aoutLoad env fz pages = .ok (s', r)) (hr : r ≠ 0) :
    r = -ENOEXEC ∧ s' = s := by
  unfold aoutLoad at hop
  split at hop
  · cases hop
  · dsimp only at hop
    split at hop
    · cases hop
      exact ⟨rfl, rfl⟩
    · obtain ⟨_, -, hop⟩ := bind_eq_ok.mp hop
      obtain ⟨_, -, hop⟩ := bind_eq_ok.mp hop
      obtain ⟨_, -, hop⟩ := bind_eq_ok.mp hop
      obtain ⟨_, -, hop⟩ := bind_eq_ok.mp hop
      obtain ⟨_, -, hop⟩ := bind_eq_ok.mp hop
      obtain ⟨_, -, hop⟩ := bind_eq_ok.mp hop
      cases hop
      exact absurd rfl hr

theorem aoutLoad_append {pg : Nat} (more : List Nat) (hpg : pages[0]? = some pg)
    (haligned : s.vm.zone.base % PAGE_SIZE = 0)
    (hreads : ∀ k ∈ (aoutHeader s.mem (pageToAddr fz pg)).reads, k < pages.length) :
    s.aoutLoad env fz (pages ++ more) = s.aoutLoad env fz pages := by
  have htext := fun k hk => hreads k (List.mem_cons_of_mem _ (List.mem_append_left _ hk))
  have hdata := fun k hk => hreads k (List.mem_cons_of_mem _ (List.mem_append_right _ hk))
  unfold aoutLoad
  rw [List.getElem?_append_left (List.getElem?_eq_some_iff.mp hpg).1, hpg]
  dsimp only
  split
  · rfl
  · refine bind_congr_ok fun s₁ hs₁ => ?_
    have hbase₁ := allocMma_base (by decide) hs₁
    rw [← hbase₁] at haligned
    rw [copySection_append more haligned (AoutExec.textOff_lt _) htext]
    refine bind_congr_ok fun s₂ hs₂ => bind_congr_ok fun a _ => bind_congr_ok fun text _ =>
      bind_congr_ok fun s₃ hs₃ => ?_
    obtain ⟨hvm₂, -⟩ := copySection_reads haligned hs₂
    have hbase₃ := allocMma_base (by decide) hs₃
    rw [← hvm₂, ← hbase₃] at haligned
    rw [copySection_append more haligned (AoutExec.dataOff_lt _) hdata]

end LoadState

/-- The headers for which every page that is read is a page of the file: header, text and data
lie in the file. -/
theorem AoutExec.reads_lt_iff {h : AoutExec} (htext : h.aText.toNat ≤ WORD_RANGE - PAGE_SIZE)
    (filled : Nat) : (∀ k ∈ h.reads, k < filled) ↔
      SIZEOF_EXEC + h.aText.toNat + h.aData.toNat ≤ filled * PAGE_SIZE := by
  have hoff : h.dataOff = SIZEOF_EXEC + h.aText.toNat := by
    refine Nat.mod_eq_of_lt ?_
    show SIZEOF_EXEC + h.aText.toNat < WORD_RANGE
    unfold SIZEOF_EXEC
    unfold WORD_RANGE PAGE_SIZE at *
    omega
  unfold AoutExec.reads
  rw [List.forall_mem_cons, List.forall_mem_append, sectionReads_lt_iff h.textOff_lt,
    sectionReads_lt_iff h.dataOff_lt, hoff]
  unfold AoutExec.textOff SIZEOF_EXEC PAGE_SIZE
  omega

/-- When `aout_load` is safe: the header is refused, or the file has all of its bytes and the
sizes in pages do not wrap.  A load that returns 0 has found every entry in the file, and one
whose entries are all in the file uses no other entry. -/
theorem aoutLoad_trusts_iff (h : AoutExec) (filled : Nat) :
    ((h.isOMAGIC = false ∨ ((∀ k ∈ h.reads, k < filled) ∧ h.Fits)) ↔
      (h.isOMAGIC = false ∨
        (SIZEOF_EXEC + h.aText.toNat + h.aData.toNat ≤ filled * PAGE_SIZE ∧
          h.aText.toNat ≤ WORD_RANGE - PAGE_SIZE ∧
          (h.aData.toNat = 0 ∨ (addWord h.aData.toNat h.aBss.toNat ≤ WORD_RANGE - PAGE_SIZE ∧
            h.aData.toNat ≤
              (addWord h.aData.toNat h.aBss.toNat + (PAGE_SIZE - 1)) / PAGE_SIZE * PAGE_SIZE))))) ∧
      ∀ (env : LoadEnv) (fz : Zone) (pages : List Nat) (pg : Nat) (s : LoadState),
        pages.length = filled → pages[0]? = some pg →
        aoutHeader s.mem (pageToAddr fz pg) = h → s.vm.zone.base % PAGE_SIZE = 0 →
        (∀ s' r, s.aoutLoad env fz pages = .ok (s', r) →
          (r = -ENOEXEC ∧ s' = s ∧ h.isOMAGIC = false) ∨
            (r = 0 ∧ h.isOMAGIC = true ∧ ∀ k ∈ h.reads, k < filled)) ∧
        ((∀ k ∈ h.reads, k < filled) →
          ∀ more, s.aoutLoad env fz (pages ++ more) = s.aoutLoad env fz pages) := by
  refine ⟨or_congr_right ?_, ?_⟩
  · rw [h.fits_iff]
    constructor
    · rintro ⟨hreads, htext, hdata⟩
      exact ⟨(AoutExec.reads_lt_iff htext filled).mp hreads, htext, hdata⟩
    · rintro ⟨hfile, htext, hdata⟩
      exact ⟨(AoutExec.reads_lt_iff htext filled).mpr hfile, htext, hdata⟩
  · rintro env fz pages pg s rfl hpg rfl haligned
    exact ⟨fun s' r hop => LoadState.aoutLoad_eq_ok hpg haligned hop,
      fun hreads more => LoadState.aoutLoad_append more hpg haligned hreads⟩

/-- A file that begins with a header, in the first pages of `fileZone`. -/
def headerMem (h : AoutExec) : ByteMem := fun x =>
  ([h.aMidmag, h.aText, h.aData, h.aBss, 0, h.aEntry].flatMap fun w => wordBytes w.toNat).getD
    (x - fileZone.base) 0

def freshLoad (h : AoutExec) : LoadState := ⟨VmState.emptyVm, headerMem h, fun _ => none, 0⟩

def longText : AoutExec := ⟨AOUT_OMAGIC, 8192#32, 0#32, 0#32, 0x40000000#32⟩

/-- A data section of one page, and a `bss` that brings the sum to 0. -/
def wrappedData : AoutExec := ⟨AOUT_OMAGIC, 32#32, 4096#32, 0xfffff000#32, 0x40000000#32⟩

/-- Neither header is refused.  The load of the first one reads entries behind the end of the
file, and the second one gets no page for its data. -/
theorem aoutLoad_untrusted :
    aoutHeader (freshLoad longText).mem (pageToAddr fileZone 0) = longText ∧
      longText.isOMAGIC = true ∧ longText.reads = [0, 0, 1, 1, 2] ∧
      ((freshLoad longText).aoutLoad ⟨9000, 9, 7, id⟩ fileZone [0]).toOption.isNone = true ∧
      wrappedData.isOMAGIC = true ∧ (∀ k ∈ wrappedData.reads, k < 2) ∧ wrappedData.dpg = 0 := by
  decide +kernel

end Koowaldah
