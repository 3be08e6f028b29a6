import Koowaldah.Fs.Basic
import Koowaldah.Lib.Parts
import Koowaldah.MemArea.Basic

/-!
# Copying a section

`aout_copy_section` of `kernel/fs/aout.c` copies a section of a file, which lies in the pages
of an inode, into the pages of a memory area.  The pages of the file are cut at other places
of the section than those of the area, so a page of the area is filled in two rounds: up to
the end of a page of the file, and then from the start of the next one.  `pgoff` is the offset
in the page of the file, and 0 in the second round.

`SectionCursor` has the variables of the loop.  `tocopy` and `advance` are what a round
does to them; they depend on `to` only by its offset in the page.
-/

namespace Koowaldah

open SysLib SysLib.Dyadic SysLib.Links

/-- The local variables of `aout_copy_section`, without the node of the list. -/
structure SectionCursor where
  pgnum : Nat
  pgoff : Nat
  left : Nat
  toAddr : Nat
deriving DecidableEq, Repr

namespace SectionCursor

/-- Where the loop starts.  The mask takes the low 32 bits of the offset. -/
def start (off len : Nat) : SectionCursor :=
  ⟨off % WORD_RANGE / PAGE_SIZE, off % PAGE_SIZE, len, 0⟩

def tocopy (c : SectionCursor) : Nat :=
  if c.pgoff ≠ 0 then min c.left (PAGE_SIZE - c.pgoff)
  else min c.left (PAGE_SIZE - c.toAddr % PAGE_SIZE)

def advance (c : SectionCursor) : SectionCursor :=
  -- switch to next source page
  let pgnum := if c.pgoff + c.tocopy = PAGE_SIZE then c.pgnum + 1 else c.pgnum
  let pgoff := if c.pgoff + c.tocopy = PAGE_SIZE then c.pgoff else c.tocopy
  let toAddr := c.toAddr + c.tocopy
  ⟨pgnum, if toAddr % PAGE_SIZE = 0 then pgoff else 0, c.left - c.tocopy, toAddr⟩

end SectionCursor

namespace VmState

/-- `to` at the start of a round: a page of the area is entered at its start. -/
def sectionTo (s : VmState) (tmp : AreaNode) (c : SectionCursor) : Except VmFault Nat :=
  if c.toAddr % PAGE_SIZE = 0 then (pageOf tmp).map (pageToAddr s.zone) else .ok c.toAddr

/-- The loop of `aout_copy_section`.  The pages of the file are in the zone `fz`. -/
def copySectionLoop (fz : Zone) (pages : List Nat) (s : VmState) :
    Nat → AreaNode → SectionCursor → ByteMem → Except VmFault ByteMem
  | 0, _, _, _ => .error .endless
  | n + 1, tmp, c, mem =>
    if c.left = 0 then .ok mem
    else
      match pages[c.pgnum]? with
      | none => .error .freed
      | some page => do
        let toAddr ← s.sectionTo tmp c
        let c := { c with toAddr }
        let mem := memoryCopy mem c.toAddr (pageToAddr fz page + c.pgoff) c.tocopy
        let tmp := if c.advance.toAddr % PAGE_SIZE = 0 then s.zone.areaList.next tmp else tmp
        copySectionLoop fz pages s n tmp c.advance mem

/-- `aout_copy_section` into the area `a`. -/
def aoutCopySection (fuel : Nat) (fz : Zone) (pages : List Nat) (a off len : Nat) (mem : ByteMem)
    (s : VmState) : Except VmFault ByteMem :=
  copySectionLoop fz pages s fuel (s.zone.areaList.next (.head a)) (.start off len) mem

end VmState

/-! ## The cursors -/

section Cursors

variable {z : Zone} {a off n : Nat} {ps : List Nat} {c : SectionCursor} {tmp : AreaNode}

/-- Where the cursors are when `n` bytes of the section have been copied, and some are left. -/
structure CursorAt (off n : Nat) (c : SectionCursor) : Prop where
  src : c.pgnum * PAGE_SIZE + c.pgoff = off + n
  pgoff_lt : c.pgoff < PAGE_SIZE
  toAddr_mod : c.toAddr % PAGE_SIZE = n % PAGE_SIZE
  second : n % PAGE_SIZE ≠ 0 → c.pgoff = 0

theorem cursorAt_start (hoff : off < WORD_RANGE) (len : Nat) : CursorAt off 0 (.start off len) := by
  refine ⟨?_, Nat.mod_lt _ (by decide), rfl, fun hne => absurd rfl hne⟩
  show off % WORD_RANGE / PAGE_SIZE * PAGE_SIZE + off % PAGE_SIZE = off + 0
  rw [Nat.mod_eq_of_lt hoff, Nat.div_add_mod', Nat.add_zero]

theorem CursorAt.pgnum_eq (h : CursorAt off n c) :
    c.pgnum = (off + n) / PAGE_SIZE ∧ c.pgoff = (off + n) % PAGE_SIZE := by
  have hsrc := h.src
  have hlt := h.pgoff_lt
  unfold PAGE_SIZE at *
  omega

/-- A round stays in one page of the file and in one page of the area, and copies something. -/
theorem CursorAt.tocopy_le (h : CursorAt off n c) (hleft : c.left ≠ 0) :
    0 < c.tocopy ∧ c.tocopy ≤ c.left ∧ c.pgoff + c.tocopy ≤ PAGE_SIZE ∧
      n % PAGE_SIZE + c.tocopy ≤ PAGE_SIZE := by
  have hlt := h.pgoff_lt
  have hsecond := h.second
  have hnlt : n % PAGE_SIZE < PAGE_SIZE := Nat.mod_lt _ (by decide)
  unfold SectionCursor.tocopy
  rw [h.toAddr_mod]
  split <;> omega

/-- A round that is not the last one goes to the end of the page of the file, or to that of the
page of the area. -/
theorem CursorAt.tocopy_eq (h : CursorAt off n c) (hmore : c.tocopy < c.left) :
    c.tocopy = if c.pgoff ≠ 0 then PAGE_SIZE - c.pgoff else PAGE_SIZE - n % PAGE_SIZE := by
  unfold SectionCursor.tocopy at hmore ⊢
  rw [h.toAddr_mod] at hmore ⊢
  split at hmore
  · rename_i hpgoff
    rw [if_pos hpgoff, if_pos hpgoff]
    omega
  · rename_i hpgoff
    rw [if_neg hpgoff, if_neg hpgoff]
    omega

theorem CursorAt.advance (h : CursorAt off n c) (hmore : c.tocopy < c.left) :
    CursorAt off (n + c.tocopy) c.advance := by
  have hfull := h.tocopy_eq hmore
  have hsrc := h.src
  have hlt := h.pgoff_lt
  have hmod := h.toAddr_mod
  have hto : c.advance.toAddr % PAGE_SIZE = (n + c.tocopy) % PAGE_SIZE := by
    show (c.toAddr + c.tocopy) % PAGE_SIZE = _
    rw [Nat.add_mod, hmod, ← Nat.add_mod]
  have hnum : c.advance.pgnum = if c.pgoff + c.tocopy = PAGE_SIZE then c.pgnum + 1 else c.pgnum :=
    rfl
  by_cases hpgoff : c.pgoff = 0
  · -- the page of the area is full
    rw [if_neg (not_not.mpr hpgoff)] at hfull
    have hend : (n + c.tocopy) % PAGE_SIZE = 0 := by
      unfold PAGE_SIZE at *
      omega
    have hoff : c.advance.pgoff = if c.pgoff + c.tocopy = PAGE_SIZE then c.pgoff else c.tocopy :=
      if_pos (hto.trans hend)
    refine ⟨?_, ?_, hto, fun hne => absurd hend hne⟩
    · rw [hoff, hnum]
      split
      · rw [Nat.succ_mul]
        omega
      · omega
    · rw [hoff]
      split <;> omega
  · -- the page of the file is at its end
    rw [if_pos hpgoff] at hfull
    have hsecond := mt h.second hpgoff
    have hinside : ¬ (n + c.tocopy) % PAGE_SIZE = 0 := by
      unfold PAGE_SIZE at *
      omega
    have hoff : c.advance.pgoff = 0 := if_neg (hto ▸ hinside)
    refine ⟨?_, ?_, hto, fun _ => hoff⟩
    · rw [hnum, if_pos (by omega), Nat.succ_mul]
      omega
    · rw [hoff]
      exact Nat.zero_lt_of_lt hlt

/-! ## The list of the area -/

/-- The node of the list, and the address in its page, when `n` bytes have been copied. -/
structure NodeAt (z : Zone) (a : Nat) (ps : List Nat) (n : Nat) (c : SectionCursor)
    (tmp : AreaNode) : Prop where
  tmp_eq : tmp = after (.head a) ((ps.drop (n / PAGE_SIZE)).map AreaNode.page)
  addr : n % PAGE_SIZE ≠ 0 → ∃ q, ps[n / PAGE_SIZE]? = some q ∧
    c.toAddr = pageToAddr z q + n % PAGE_SIZE

theorem NodeAt.page {s : VmState} (h : NodeAt s.zone a ps n c tmp) (hat : CursorAt off n c)
    (hn : n < ps.length * PAGE_SIZE) : ∃ q, ps[n / PAGE_SIZE]? = some q ∧ tmp = .page q ∧
      s.sectionTo tmp c = .ok (pageToAddr s.zone q + n % PAGE_SIZE) := by
  have hlt : n / PAGE_SIZE < ps.length := by
    unfold PAGE_SIZE at *
    omega
  have htmp : tmp = .page ps[n / PAGE_SIZE] := by
    rw [h.tmp_eq, List.drop_eq_getElem_cons hlt, List.map_cons, after_cons]
  refine ⟨ps[n / PAGE_SIZE], List.getElem?_eq_getElem hlt, htmp, ?_⟩
  unfold VmState.sectionTo
  rw [hat.toAddr_mod]
  by_cases hzero : n % PAGE_SIZE = 0
  · rw [htmp, hzero]
    rfl
  · obtain ⟨q, hq, hto⟩ := h.addr hzero
    rw [List.getElem?_eq_getElem hlt, Option.some.injEq] at hq
    rw [if_neg hzero, hto, hq]

theorem CursorAt.setAddr (h : CursorAt off n c) (haligned : z.base % PAGE_SIZE = 0) (q : Nat) :
    CursorAt off n { c with toAddr := pageToAddr z q + n % PAGE_SIZE } := by
  refine ⟨h.src, h.pgoff_lt, ?_, h.second⟩
  unfold pageToAddr
  unfold PAGE_SIZE at *
  dsimp only
  omega

theorem exists_split {l : List Nat} {i x : Nat} (h : l[i]? = some x) :
    ∃ pre post, l = pre ++ x :: post ∧ pre.length = i := by
  obtain ⟨hlt, hget⟩ := List.getElem?_eq_some_iff.mp h
  refine ⟨l.take i, l.drop (i + 1), ?_, List.length_take_of_le (Nat.le_of_lt hlt)⟩
  rw [← hget, ← List.drop_eq_getElem_cons hlt, List.take_append_drop]

theorem next_page {h : Links AreaNode} (hring : h.IsRing (.head a) (ps.map AreaNode.page))
    {i q : Nat} (hq : ps[i]? = some q) :
    h.next (.page q) = after (.head a) ((ps.drop (i + 1)).map AreaNode.page) := by
  obtain ⟨pre, post, rfl, rfl⟩ := exists_split hq
  rw [List.map_append] at hring
  rw [hring.neighbours.2, ← List.drop_drop, List.drop_left, List.drop_one, List.tail_cons]

theorem NodeAt.advance {h : Links AreaNode} (hat : CursorAt off n c)
    (hring : h.IsRing (.head a) (ps.map AreaNode.page)) {q : Nat}
    (hq : ps[n / PAGE_SIZE]? = some q) (hto : c.toAddr = pageToAddr z q + n % PAGE_SIZE)
    (hmore : c.tocopy < c.left) :
    NodeAt z a ps (n + c.tocopy) c.advance
      (if c.advance.toAddr % PAGE_SIZE = 0 then h.next (.page q) else .page q) := by
  have hle := hat.tocopy_le (by omega)
  obtain ⟨hlt, hget⟩ := List.getElem?_eq_some_iff.mp hq
  rw [(hat.advance hmore).toAddr_mod]
  by_cases hend : (n + c.tocopy) % PAGE_SIZE = 0
  · have hnext : (n + c.tocopy) / PAGE_SIZE = n / PAGE_SIZE + 1 := by
      unfold PAGE_SIZE at *
      omega
    refine ⟨?_, fun hne => absurd hend hne⟩
    rw [if_pos hend, hnext, next_page hring hq]
  · have hsame : (n + c.tocopy) / PAGE_SIZE = n / PAGE_SIZE := by
      unfold PAGE_SIZE at *
      omega
    have hrest : (n + c.tocopy) % PAGE_SIZE = n % PAGE_SIZE + c.tocopy := by
      unfold PAGE_SIZE at *
      omega
    constructor
    · rw [if_neg hend, hsame, List.drop_eq_getElem_cons hlt, List.map_cons, after_cons, hget]
    · intro _
      refine ⟨q, hsame ▸ hq, ?_⟩
      show c.toAddr + c.tocopy = _
      rw [hto, hrest, Nat.add_assoc]

end Cursors

/-! ## The memory -/

section Memory

variable {fz z : Zone} {pages ps : List Nat} {off : Nat} {mem₀ mem : ByteMem}

def pageListBytes (z : Zone) (ps : List Nat) (mem : ByteMem) : List UInt8 :=
  readParts mem PAGE_SIZE (ps.map (pageToAddr z))

/-- No page of the file is a page of the area. -/
def PagesApart (fz z : Zone) (pages ps : List Nat) : Prop :=
  ∀ p ∈ pages, ∀ q ∈ ps, pageToAddr fz p + PAGE_SIZE ≤ pageToAddr z q ∨
    pageToAddr z q + PAGE_SIZE ≤ pageToAddr fz p

/-- The first `n` bytes of the section have been copied, and nothing else has changed. -/
structure Half (fz z : Zone) (pages ps : List Nat) (off : Nat) (mem₀ : ByteMem) (n : Nat)
    (mem : ByteMem) : Prop where
  area : pageListBytes z ps mem =
    overlay ((pageListBytes fz pages mem₀).drop off) (pageListBytes z ps mem₀) n
  file : pageListBytes fz pages mem = pageListBytes fz pages mem₀
  frame : ∀ x, (∀ q ∈ ps, x < pageToAddr z q ∨ pageToAddr z q + PAGE_SIZE ≤ x) →
    mem x = mem₀ x

theorem half_zero (fz z : Zone) (pages ps : List Nat) (off : Nat) (mem : ByteMem) :
    Half fz z pages ps off mem 0 mem :=
  ⟨by simp [overlay], rfl, fun _ _ => rfl⟩

theorem Half.step {n k p q o : Nat} (h : Half fz z pages ps off mem₀ n mem)
    (hapart : PagesApart fz z pages ps) (hnodup : ps.Nodup)
    (hp : pages[(off + n) / PAGE_SIZE]? = some p) (ho : o = (off + n) % PAGE_SIZE)
    (hq : ps[n / PAGE_SIZE]? = some q) (hsrc : o + k ≤ PAGE_SIZE)
    (hdst : n % PAGE_SIZE + k ≤ PAGE_SIZE) : Half fz z pages ps off mem₀ (n + k)
      (memoryCopy mem (pageToAddr z q + n % PAGE_SIZE) (pageToAddr fz p + o) k) := by
  obtain ⟨fpre, fpost, rfl, hfpre⟩ := exists_split hp
  obtain ⟨pre, post, rfl, hpre⟩ := exists_split hq
  have hn : pre.length * PAGE_SIZE + n % PAGE_SIZE = n := by rw [hpre, Nat.div_add_mod']
  have hoff : fpre.length * PAGE_SIZE + o = off + n := by rw [hfpre, ho, Nat.div_add_mod']
  have hlen : n ≤ ((pageListBytes fz (fpre ++ p :: fpost) mem₀).drop off).length := by
    unfold pageListBytes
    rw [List.length_drop, readParts_length, List.length_map, List.length_append, List.length_cons,
      Nat.add_mul]
    unfold PAGE_SIZE at *
    omega
  have hother : ∀ b ∈ pre ++ post, PartApart PAGE_SIZE (pageToAddr z q + n % PAGE_SIZE) k
      (pageToAddr z b) := by
    intro b hb
    have hne : b ≠ q := by
      rintro rfl
      exact (List.nodup_cons.mp (List.nodup_middle.mp hnodup)).1 hb
    unfold PartApart pageToAddr
    unfold PAGE_SIZE at *
    omega
  have hchunk : readBytes mem (pageToAddr fz p + o) k =
      (((pageListBytes fz (fpre ++ p :: fpost) mem₀).drop off).drop n).take k := by
    rw [List.drop_drop, ← h.file, ← hoff]
    unfold pageListBytes
    rw [List.map_append, List.map_cons, ← List.length_map (pageToAddr fz),
      readParts_range mem _ _ _ hsrc]
  rw [memoryCopy_eq]
  constructor
  · have hmove := readParts_moveBytes mem (pre.map (pageToAddr z)) (pageToAddr z q)
      (post.map (pageToAddr z)) (pageToAddr fz p + o) hdst ?_ ?_
    · have harea := h.area
      unfold pageListBytes at harea hchunk ⊢
      rw [List.length_map, hn, hchunk, ← List.map_cons, ← List.map_append, harea] at hmove
      rw [hmove]
      exact overlay_add hlen
    · intro b hb
      obtain ⟨q', hq', rfl⟩ := List.mem_map.mp hb
      exact hother q' (List.mem_append_left post hq')
    · intro b hb
      obtain ⟨q', hq', rfl⟩ := List.mem_map.mp hb
      exact hother q' (List.mem_append_right pre hq')
  · rw [← h.file]
    apply readParts_moveBytes_of_apart
    intro b hb
    obtain ⟨p', hp', rfl⟩ := List.mem_map.mp hb
    have hfar := hapart p' hp' q (List.mem_append_right pre List.mem_cons_self)
    unfold PartApart
    omega
  · intro x hx
    have hxq := hx q (List.mem_append_right pre List.mem_cons_self)
    rw [moveBytes_of_outside (by omega)]
    exact h.frame x hx

end Memory

/-! ## The loop -/

section Loop

variable {s : VmState} {fz : Zone} {pages ps : List Nat} {a off len : Nat} {mem₀ : ByteMem}

theorem copySectionLoop_spec (hring : s.zone.areaList.IsRing (.head a) (ps.map AreaNode.page))
    (haligned : s.zone.base % PAGE_SIZE = 0) (hapart : PagesApart fz s.zone pages ps)
    (hfile : off + len ≤ pages.length * PAGE_SIZE) (hroom : len ≤ ps.length * PAGE_SIZE)
    (fuel : Nat) : ∀ {n : Nat} {c : SectionCursor} {tmp : AreaNode} {mem : ByteMem},
    n + c.left = len → (c.left ≠ 0 → CursorAt off n c ∧ NodeAt s.zone a ps n c tmp) →
    Half fz s.zone pages ps off mem₀ n mem → c.left < fuel →
    ∃ mem', VmState.copySectionLoop fz pages s fuel tmp c mem = .ok mem' ∧
      Half fz s.zone pages ps off mem₀ len mem' := by
  have hnodup : ps.Nodup := List.Nodup.of_map AreaNode.page (List.nodup_cons.mp hring.1).2
  induction fuel with
  | zero => exact fun _ _ _ hlt => absurd hlt (Nat.not_lt_zero _)
  | succ fuel ih =>
    intro n c tmp mem hsum hinv hhalf hlt
    rw [VmState.copySectionLoop]
    by_cases hleft : c.left = 0
    · rw [if_pos hleft]
      rw [hleft] at hsum
      exact ⟨mem, rfl, hsum ▸ hhalf⟩
    · obtain ⟨hat, hnode⟩ := hinv hleft
      obtain ⟨q, hq, rfl, hto⟩ := hnode.page hat (by omega)
      have hat' := hat.setAddr haligned q
      obtain ⟨hpos, hcopy, hsrc, hdst⟩ := hat'.tocopy_le hleft
      change _ ≤ c.left at hcopy
      obtain ⟨hpgnum, hpgoff⟩ := hat'.pgnum_eq
      have hpage : (off + n) / PAGE_SIZE < pages.length := by
        unfold PAGE_SIZE at *
        omega
      obtain ⟨p, hp⟩ : ∃ p, pages[(off + n) / PAGE_SIZE]? = some p :=
        ⟨_, List.getElem?_eq_getElem hpage⟩
      have hp' : pages[c.pgnum]? = some p := hpgnum ▸ hp
      rw [if_neg hleft, hp', hto]
      refine ih ?_ ?_ (hhalf.step hapart hnodup hp hpgoff hq hsrc hdst) ?_
      · show n + _ + (c.left - _) = len
        omega
      · intro hmore
        have hlt := Nat.lt_of_sub_ne_zero hmore
        exact ⟨hat'.advance hlt, NodeAt.advance hat' hring hq rfl hlt⟩
      · show c.left - _ < fuel
        omega

/-- `aout_copy_section` copies the section.  It returns, the area has the bytes of the file
from `off` on at its start and its old bytes behind them, and nothing else changes. -/
theorem aoutCopySection_spec (hring : s.zone.areaList.IsRing (.head a) (ps.map AreaNode.page))
    (haligned : s.zone.base % PAGE_SIZE = 0) (hapart : PagesApart fz s.zone pages ps)
    (hpages : pages.length ≤ INODE_PAGES) (hfile : off + len ≤ pages.length * PAGE_SIZE)
    (hroom : (len + PAGE_SIZE - 1) / PAGE_SIZE ≤ ps.length) (mem : ByteMem) {fuel : Nat}
    (hfuel : len < fuel) : ∃ mem', s.aoutCopySection fuel fz pages a off len mem = .ok mem' ∧
      pageListBytes s.zone ps mem' =
        ((pageListBytes fz pages mem).drop off).take len ++ (pageListBytes s.zone ps mem).drop len ∧
      ∀ x, (∀ q ∈ ps, x < pageToAddr s.zone q ∨ pageToAddr s.zone q + PAGE_SIZE ≤ x) →
        mem' x = mem x := by
  have hnode : NodeAt s.zone a ps 0 (.start off len) (s.zone.areaList.next (.head a)) :=
    ⟨hring.next_head, fun hne => absurd rfl hne⟩
  have hroom' : len ≤ ps.length * PAGE_SIZE := by
    unfold PAGE_SIZE at *
    omega
  have hoff : off < WORD_RANGE := by
    unfold INODE_PAGES at hpages
    unfold WORD_RANGE PAGE_SIZE at *
    omega
  obtain ⟨mem', hrun, hhalf⟩ := copySectionLoop_spec hring haligned hapart hfile hroom' fuel
    (Nat.zero_add len) (fun _ => ⟨cursorAt_start hoff len, hnode⟩)
    (half_zero fz s.zone pages ps off mem) hfuel
  exact ⟨mem', hrun, hhalf.area, hhalf.frame⟩

end Loop

/-- An area with the pages 5 and 3, in this order. -/
def twoPages : VmState where
  zone :=
    { base := 0x100000, totalPages := 8, freePages := 0, allocLevels := fun _ => []
      order := fun _ => 0, virt := fun _ => 0
      areaList :=
        { next := fun
            | .head _ => .page 5
            | .page 5 => .page 3
            | .page _ => .head 0
          prev := fun
            | .head _ => .page 3
            | .page 3 => .page 5
            | .page _ => .head 0 } }
  areas := fun _ => none
  pgtable := fun _ _ => none

/-- A zone for the pages of a file. -/
def fileZone : Zone := { twoPages.zone with base := 0x200000 }

theorem aoutCopySection_twoPages :
    ∃ mem', twoPages.aoutCopySection 5001 fileZone [7, 2] 0 32 5000 (fun x => UInt8.ofNat x) =
        .ok mem' ∧
      pageListBytes twoPages.zone [5, 3] mem' =
        ((pageListBytes fileZone [7, 2] (fun x => UInt8.ofNat x)).drop 32).take 5000 ++
          (pageListBytes twoPages.zone [5, 3] (fun x => UInt8.ofNat x)).drop 5000 := by
  have hring : twoPages.zone.areaList.IsRing (.head 0) ([5, 3].map AreaNode.page) :=
    ⟨by decide, rfl, rfl, rfl, rfl, rfl, rfl, trivial⟩
  have hapart : PagesApart fileZone twoPages.zone [7, 2] [5, 3] := by
    unfold PagesApart
    decide
  have hfile : 32 + 5000 ≤ [7, 2].length * PAGE_SIZE := by decide
  obtain ⟨mem', hrun, harea, _⟩ := aoutCopySection_spec hring (by decide) hapart (by decide)
    hfile (by decide) (fun x => UInt8.ofNat x) (Nat.lt_succ_self 5000)
  exact ⟨mem', hrun, harea⟩

end Koowaldah
