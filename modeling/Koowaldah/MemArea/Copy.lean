import Koowaldah.Klib
import Koowaldah.MemArea.Alloc

/-!
# Copies of memory areas

`mem_area_copy` of `kernel/mem_area.c` makes an area for another mapping and copies the
pages in list order.  The new area is made without `MMA_STACK`, so its pages are mapped
upwards from the start, whatever the order of the source.

The copy is the same address space exactly when the source is no stack of two pages or more,
and has a power of two of pages if they are to be contiguous (`memAreaCopy_copyOf_iff`).
-/

namespace Koowaldah

open Function SysLib SysLib.Dyadic SysLib.Links

/-! ## The functions -/

/-- `flags & ~mask`. -/
def clearFlags (flags mask : Nat) : Nat := flags ^^^ (flags &&& mask)

namespace VmState

/-- The loop body of `mma_map_pages`, without `add`. -/
def remapPageOf (a : Nat) (node : AreaNode) (s : VmState) : Except VmFault VmState := do
  let pg ← pageOf node
  let r ← s.area a
  return s.mapPage r.mMap (s.zone.virt pg) (pageToAddr s.zone pg) r.mProt

def memAreaRemap (fuel a flags : Nat) (s : VmState) : Except VmFault VmState := do
  let r ← s.area a
  let s := s.setArea a
    { r with
      mFlags := clearFlags r.mFlags (MMA_RW ||| MMA_EXEC) ||| (flags &&& (MMA_RW ||| MMA_EXEC))
      mProt := protOf flags }
  let org ← s.mmaOriginal fuel a
  walk (.head org) (remapPageOf a) fuel (s.zone.areaList.next (.head org)) s

/-- The loop of `mem_area_copy` over the two page lists, up to the heads `src` and `dst`. -/
def copyPages (src dst : AreaNode) (s : VmState) :
    Nat → AreaNode → AreaNode → ByteMem → Except VmFault ByteMem
  | 0, _, _, _ => .error .endless
  | n + 1, lsrc, ldst, mem =>
    if lsrc = src then .ok mem
    else if ldst = dst then .error .bug
    else do
      let pgsrc ← pageOf lsrc
      let pgdst ← pageOf ldst
      copyPages src dst s n (s.zone.areaList.next lsrc) (s.zone.areaList.next ldst)
        (memoryCopy mem (pageToAddr s.zone pgdst) (pageToAddr s.zone pgsrc) PAGE_SIZE)

/-- The end of `mem_area_copy`: the new area gets `MMA_STACK` if the old one has it, and its
pages are made read-only if those are. -/
def copyFlags (fuel c flags : Nat) (s : VmState) : Except VmFault VmState := do
  let rc ← s.area c
  let s := s.setArea c { rc with mFlags := rc.mFlags ||| (flags &&& MMA_STACK) }
  if hasFlag flags MMA_RW then return s else s.memAreaRemap fuel c flags

/-- `mem_area_copy` of the area `a` into the slice `c`.  The answer says whether there is a
copy. -/
def memAreaCopy (fuel list map a c : Nat) (mem : ByteMem) (s : VmState) :
    Except VmFault (Bool × VmState × ByteMem) := do
  let r ← s.area a
  let (got, s) ← s.memAreaAllocNew fuel list map r.mStart r.mPages
    (clearFlags (r.mFlags ||| MMA_RW) MMA_STACK) c
  if got then
    let mem ← copyPages (.head a) (.head c) s fuel (s.zone.areaList.next (.head a))
      (s.zone.areaList.next (.head c)) mem
    let s ← s.copyFlags fuel c r.mFlags
    return (true, s, mem)
  else return (false, s, mem)

end VmState

/-! ## Flags -/

theorem hasFlag_two_pow (flags k : Nat) : hasFlag flags (2 ^ k) = flags.testBit k := by
  unfold hasFlag
  rw [Nat.and_two_pow]
  cases flags.testBit k with
  | false => simp
  | true =>
    simp

theorem testBit_clearFlags (flags mask i : Nat) :
    (clearFlags flags mask).testBit i = (flags.testBit i && !mask.testBit i) := by
  unfold clearFlags
  rw [Nat.testBit_xor, Nat.testBit_and]
  cases flags.testBit i <;> cases mask.testBit i <;> rfl

theorem hasFlag_copyFlags (flags : Nat) :
    hasFlag (clearFlags (flags ||| MMA_RW) MMA_STACK) MMA_STACK = false ∧
      hasFlag (clearFlags (flags ||| MMA_RW) MMA_STACK) MMA_CONT = hasFlag flags MMA_CONT ∧
      hasFlag (clearFlags (flags ||| MMA_RW) MMA_STACK) MMA_CLONE = hasFlag flags MMA_CLONE := by
  have hstack : MMA_STACK = 2 ^ 2 := rfl
  have hcont : MMA_CONT = 2 ^ 4 := rfl
  have hclone : MMA_CLONE = 2 ^ 5 := rfl
  have hrw : MMA_RW = 2 ^ 0 := rfl
  rw [hcont, hclone, hasFlag_two_pow, hasFlag_two_pow, hasFlag_two_pow, hasFlag_two_pow]
  rw [hstack, hasFlag_two_pow, hrw]
  simp only [testBit_clearFlags, Nat.testBit_or, Nat.testBit_two_pow]
  simp

theorem hasFlag_clone_of_copy {flags f : Nat} (h : hasFlag flags MMA_CLONE = false) :
    hasFlag (flags ||| (f &&& MMA_STACK)) MMA_CLONE = false ∧
      hasFlag (clearFlags (flags ||| (f &&& MMA_STACK)) (MMA_RW ||| MMA_EXEC) |||
        (f &&& (MMA_RW ||| MMA_EXEC))) MMA_CLONE = false := by
  have hclone : MMA_CLONE = 2 ^ 5 := rfl
  have hstack : MMA_STACK.testBit 5 = false := by decide
  have hmask : (MMA_RW ||| MMA_EXEC).testBit 5 = false := by decide
  rw [hclone, hasFlag_two_pow] at h ⊢
  rw [hasFlag_two_pow]
  simp only [Nat.testBit_or, Nat.testBit_and, testBit_clearFlags, h, hstack, hmask]
  simp

/-! ## The contents -/

section Contents

variable {z : Zone} {mem : ByteMem} {ps qs : List Nat}

def copyPage (z : Zone) (mem : ByteMem) (pq : Nat × Nat) : ByteMem :=
  memoryCopy mem (pageToAddr z pq.2) (pageToAddr z pq.1) PAGE_SIZE

theorem copyPage_self (z : Zone) (mem : ByteMem) (p q : Nat) {j : Nat} (hj : j < PAGE_SIZE) :
    copyPage z mem (p, q) (pageToAddr z q + j) = mem (pageToAddr z p + j) := by
  unfold copyPage
  rw [memoryCopy_eq]
  unfold moveBytes
  dsimp only
  rw [if_pos (by omega), Nat.add_sub_cancel_left]

theorem copyPage_other (z : Zone) (mem : ByteMem) {p q t : Nat} (hne : t ≠ q) {j : Nat}
    (hj : j < PAGE_SIZE) :
    copyPage z mem (p, q) (pageToAddr z t + j) = mem (pageToAddr z t + j) := by
  unfold copyPage
  rw [memoryCopy_eq]
  apply moveBytes_of_outside
  unfold pageToAddr PAGE_SIZE at *
  omega

theorem foldl_copy_other {t : Nat} (ht : t ∉ qs) {j : Nat} (hj : j < PAGE_SIZE) :
    (ps.zip qs).foldl (copyPage z) mem (pageToAddr z t + j) = mem (pageToAddr z t + j) := by
  induction ps generalizing qs mem with
  | nil => rfl
  | cons p ps ih =>
    cases qs with
    | nil => rfl
    | cons q qs =>
      rw [List.mem_cons, not_or] at ht
      rw [List.zip_cons_cons, List.foldl_cons, ih ht.2]
      exact copyPage_other z mem ht.1 hj

theorem foldl_copy_page (hnodup : qs.Nodup) (hapart : ∀ p ∈ ps, p ∉ qs) {i p q j : Nat}
    (hp : ps[i]? = some p) (hq : qs[i]? = some q) (hj : j < PAGE_SIZE) :
    (ps.zip qs).foldl (copyPage z) mem (pageToAddr z q + j) = mem (pageToAddr z p + j) := by
  induction ps generalizing qs mem i with
  | nil => exact nomatch hp
  | cons p₀ ps ih =>
    cases qs with
    | nil => exact nomatch hq
    | cons q₀ qs =>
      rw [List.nodup_cons] at hnodup
      rw [List.zip_cons_cons, List.foldl_cons]
      cases i with
      | zero =>
        obtain rfl : p₀ = p := Option.some.inj hp
        obtain rfl : q₀ = q := Option.some.inj hq
        rw [foldl_copy_other hnodup.1 hj]
        exact copyPage_self z mem p₀ q₀ hj
      | succ i =>
        have hapart' : ∀ p ∈ ps, p ∉ qs := fun p hp hm =>
          hapart p (List.mem_cons_of_mem _ hp) (List.mem_cons_of_mem _ hm)
        rw [ih hnodup.2 hapart' hp hq]
        apply copyPage_other z mem _ hj
        intro heq
        have hmem := hapart p (List.mem_cons_of_mem _ (List.mem_of_getElem? hp))
        exact hmem (heq ▸ List.mem_cons_self)

end Contents

namespace VmState

section Loop

variable {s : VmState} {a c : Nat}

theorem copyPages_eq {pages xs : List Nat}
    (hsrc : s.zone.areaList.IsRing (.head a) (pages.map AreaNode.page))
    (hdst : s.zone.areaList.IsRing (.head c) (xs.map AreaNode.page)) {fuel : Nat}
    {ps qs pre pre' : List Nat} {mem mem' : ByteMem} (hps : pages = pre ++ ps)
    (hqs : xs = pre' ++ qs)
    (hop : copyPages (.head a) (.head c) s fuel (after (.head a) (ps.map AreaNode.page))
      (after (.head c) (qs.map AreaNode.page)) mem = .ok mem') :
    ps.length ≤ qs.length ∧ mem' = (ps.zip qs).foldl (copyPage s.zone) mem := by
  induction ps generalizing qs pre pre' mem fuel with
  | nil =>
    cases fuel with
    | zero => exact nomatch hop
    | succ fuel =>
      rw [List.map_nil, after_nil, copyPages, if_pos rfl] at hop
      exact ⟨Nat.zero_le _, (Except.ok.inj hop).symm⟩
  | cons p ps ih =>
    cases fuel with
    | zero => exact nomatch hop
    | succ fuel =>
      rw [List.map_cons, after_cons, copyPages] at hop
      cases qs with
      | nil =>
        rw [List.map_nil, after_nil, if_pos rfl] at hop
        cases hop
      | cons q qs =>
        rw [List.map_cons, after_cons] at hop
        have hnext : s.zone.areaList.next (.page p) = after (.head a) (ps.map AreaNode.page) := by
          rw [hps, List.map_append] at hsrc
          exact hsrc.neighbours.2
        have hnext' : s.zone.areaList.next (.page q) = after (.head c) (qs.map AreaNode.page) := by
          rw [hqs, List.map_append] at hdst
          exact hdst.neighbours.2
        rw [hnext, hnext'] at hop
        have hps' : pages = (pre ++ [p]) ++ ps := by
          rw [hps, List.append_assoc]
          rfl
        have hqs' : xs = (pre' ++ [q]) ++ qs := by
          rw [hqs, List.append_assoc]
          rfl
        rcases ih hps' hqs' hop with ⟨hlen, hmem⟩
        refine ⟨Nat.succ_le_succ hlen, ?_⟩
        rw [hmem]
        rfl

theorem copyPages_ok {src dst lsrc ldst : AreaNode} {fuel : Nat} {mem mem' : ByteMem}
    (hop : copyPages src dst s fuel lsrc ldst mem = .ok mem') (mem₁ : ByteMem) :
    ∃ mem₁', copyPages src dst s fuel lsrc ldst mem₁ = .ok mem₁' := by
  induction fuel generalizing lsrc ldst mem mem₁ with
  | zero => exact nomatch hop
  | succ fuel ih =>
    rw [copyPages] at hop ⊢
    split at hop
    · rename_i hend
      rw [if_pos hend]
      exact ⟨mem₁, rfl⟩
    · rename_i hend
      rw [if_neg hend]
      split at hop
      · cases hop
      · rename_i hbug
        rw [if_neg hbug]
        rcases bind_eq_ok.mp hop with ⟨p, hp, hop₁⟩
        rcases bind_eq_ok.mp hop₁ with ⟨q, hq, hop₂⟩
        rcases ih hop₂ (memoryCopy mem₁ (pageToAddr s.zone q) (pageToAddr s.zone p) PAGE_SIZE) with
          ⟨mem₁', hok⟩
        refine ⟨mem₁', ?_⟩
        rw [hp, hq]
        exact hok

end Loop

/-! ## The layout of the copy -/

section Remap

variable {s s' : VmState} {a c : Nat} {r : MemArea} {stack : Bool} {pages : List Nat}

section

variable (h : Placed s a r stack pages)

include h

theorem Placed.remap (hfit : pages.length < ADDR_PAGES) {pg : Nat}
    (hpg : pg ∈ pages) (flags : Nat) :
    Placed (s.mapPage r.mMap (s.zone.virt pg) (pageToAddr s.zone pg) flags) a r stack pages where
  record := h.record
  start := h.start
  stop := h.stop
  count := h.count
  entry := by
    intro i q hq
    rcases h.entry i q hq with ⟨hvirt, f, hentry⟩
    refine ⟨hvirt, ?_⟩
    rcases List.getElem?_of_mem hpg with ⟨j, hj⟩
    show ∃ f, Function.update s.pgtable r.mMap _ r.mMap _ = _
    rw [update_self, update_apply]
    split
    · rename_i heq
      have hi := (List.getElem?_eq_some_iff.mp hq).1
      have hj' := (List.getElem?_eq_some_iff.mp hj).1
      rw [(h.entry j pg hj).1] at heq
      have hplace := pageSlot_page_inj (Nat.lt_trans (slotOf_lt hi) hfit)
        (Nat.lt_trans (slotOf_lt hj') hfit) heq
      rw [slotOf_inj hi hj' hplace, hj] at hq
      rw [Option.some.inj hq]
      exact ⟨flags, rfl⟩
    · exact ⟨f, hentry⟩

theorem Placed.setFlags (flags prot : Nat) :
    Placed (s.setArea a { r with mFlags := flags, mProt := prot }) a
      { r with mFlags := flags, mProt := prot } stack pages :=
  ⟨update_self .., h.start, h.stop, h.count, h.entry⟩

theorem remapWalk_placed (hfit : pages.length < ADDR_PAGES)
    (hring : s.zone.areaList.IsRing (.head a) (pages.map AreaNode.page)) {fuel : Nat}
    (hwalk : walk (.head a) (remapPageOf a) fuel (s.zone.areaList.next (.head a)) s = .ok s') :
    Placed s' a r stack pages ∧ s'.zone = s.zone := by
  have hend := walk_ring_inv (remapPageOf a) hring
    (fun l t => (∃ pre, pages = pre ++ l) ∧ Placed t a r stack pages ∧ t.zone = s.zone)
    (fun l t ht => by rw [ht.2.2]) ?_ ⟨⟨[], rfl⟩, h, rfl⟩ hwalk
  · exact hend.2
  · intro pg l t ht
    rcases ht with ⟨⟨pre, hpages⟩, hplaced, hzone⟩
    have hmem : pg ∈ pages := by
      rw [hpages]
      exact List.mem_append_right _ List.mem_cons_self
    have hok : remapPageOf a (.page pg) t =
        .ok (t.mapPage r.mMap (t.zone.virt pg) (pageToAddr t.zone pg) r.mProt) := by
      unfold remapPageOf
      rw [area_eq_ok.mpr hplaced.record]
      rfl
    refine ⟨_, hok, ⟨pre ++ [pg], ?_⟩, hplaced.remap hfit hmem _, hzone⟩
    rw [hpages, List.append_assoc]
    rfl

theorem memAreaRemap_placed (hfit : pages.length < ADDR_PAGES)
    (hring : s.zone.areaList.IsRing (.head a) (pages.map AreaNode.page)) {fuel flags : Nat}
    (hclone : hasFlag (clearFlags r.mFlags (MMA_RW ||| MMA_EXEC) |||
      (flags &&& (MMA_RW ||| MMA_EXEC))) MMA_CLONE = false)
    (hop : s.memAreaRemap fuel a flags = .ok s') :
    ∃ f p, Placed s' a { r with mFlags := f, mProt := p } stack pages ∧ s'.zone = s.zone := by
  rcases bind_eq_ok.mp hop with ⟨r₀, hr₀, hop₁⟩
  obtain rfl : r₀ = r := Option.some.inj ((area_eq_ok.mp hr₀).symm.trans h.record)
  rcases bind_eq_ok.mp hop₁ with ⟨org, horg, hwalk⟩
  have hset := h.setFlags (clearFlags r₀.mFlags (MMA_RW ||| MMA_EXEC) |||
    (flags &&& (MMA_RW ||| MMA_EXEC))) (protOf flags)
  obtain rfl := mmaOriginal_self hset.record hclone horg
  rcases remapWalk_placed hset hfit hring hwalk with ⟨hplaced, hzone⟩
  exact ⟨_, _, hplaced, hzone⟩

theorem copyFlags_placed (hfit : pages.length < ADDR_PAGES)
    (hring : s.zone.areaList.IsRing (.head a) (pages.map AreaNode.page)) {fuel flags : Nat}
    (hclone : hasFlag r.mFlags MMA_CLONE = false) (hop : s.copyFlags fuel a flags = .ok s') :
    ∃ f p, Placed s' a { r with mFlags := f, mProt := p } stack pages ∧ s'.zone = s.zone := by
  rcases bind_eq_ok.mp hop with ⟨r₀, hr₀, hop₁⟩
  obtain rfl : r₀ = r := Option.some.inj ((area_eq_ok.mp hr₀).symm.trans h.record)
  have hset := h.setFlags (r₀.mFlags ||| (flags &&& MMA_STACK)) r₀.mProt
  split at hop₁
  · exact ⟨_, _, Except.ok.inj hop₁ ▸ hset, Except.ok.inj hop₁ ▸ rfl⟩
  · rcases memAreaRemap_placed hset hfit hring (hasFlag_clone_of_copy hclone).2 hop₁ with
      ⟨f, p, hplaced, hzone⟩
    exact ⟨f, p, hplaced, hzone⟩

end

end Remap

/-- What `mem_area_copy` leaves of the area `a` with the pages `pages`: an area `c` with the
pages `xs` of its own, mapped upwards from the same start, with the contents in list order. -/
structure AreaCopied (s : VmState) (r : MemArea) (pages : List Nat) (c : Nat) (rc : MemArea)
    (xs : List Nat) (mem mem' : ByteMem) (s' : VmState) : Prop where
  placed : Placed s' c rc false xs
  ring : s'.zone.areaList.IsRing (.head c) (xs.map AreaNode.page)
  startEq : rc.mStart = r.mStart
  lengthEq : xs.length = if hasFlag r.mFlags MMA_CONT then 2 ^ log2 r.mPages else r.mPages
  enough : pages.length ≤ xs.length
  fit : xs.length < ADDR_PAGES
  contents : ∀ i p q j : Nat, pages[i]? = some p → xs[i]? = some q → j < PAGE_SIZE →
    mem' (pageToAddr s'.zone q + j) = mem (pageToAddr s.zone p + j)

section Copied

variable {s s' : VmState} {a c lo hi : Nat} {r : MemArea} {live : List Block} {pages : List Nat}
variable {fuel list map : Nat} {mem mem' : ByteMem}

theorem memAreaCopy_copied (h : AreaInv s a r lo hi live pages) (hpages : pages ≠ [])
    (hlo : 1 ≤ lo) (hspace : hi * PAGE_SIZE ≤ WORD_RANGE)
    (hclone : hasFlag r.mFlags MMA_CLONE = false) (hac : a ≠ c) (hla : list ≠ a) (hlc : list ≠ c)
    (hop : s.memAreaCopy fuel list map a c mem = .ok (true, s', mem')) :
    ∃ rc xs, AreaCopied s r pages c rc xs mem mem' s' := by
  rcases bind_eq_ok.mp hop with ⟨r₀, hr₀, hop₁⟩
  obtain rfl : r₀ = r := Option.some.inj ((area_eq_ok.mp hr₀).symm.trans h.placed.record)
  rcases bind_eq_ok.mp hop₁ with ⟨⟨got, t⟩, hnew, hop₂⟩
  dsimp only at hop₂
  split at hop₂
  · rename_i hgot
    subst hgot
    rcases bind_eq_ok.mp hop₂ with ⟨mem₁, hloop, hop₃⟩
    rcases bind_eq_ok.mp hop₃ with ⟨t', hflags, hret⟩
    obtain ⟨rfl, rfl⟩ := Prod.mk.inj (Prod.mk.inj (Except.ok.inj hret)).2
    rcases hasFlag_copyFlags r₀.mFlags with ⟨hstack', hcont', hclone'⟩
    have hpos : 1 ≤ r₀.mPages := by
      rw [h.placed.count]
      exact List.length_pos_iff.mpr hpages
    rcases memAreaAllocNew_eq_ok h.held.buddy hlo hspace h.placed.start hpos
      (hclone'.trans hclone) hlc hnew with ⟨rt, live', xs, -, harea⟩
    have hfit := harea.inv.length_lt hlo hspace
    have hplaced := harea.inv.placed
    rw [harea.flagsEq, hstack'] at hplaced
    have hsrc := harea.rings a pages h.ring (Ne.symm hla) hac h.held.mem
    rw [hsrc.next_head, harea.inv.ring.next_head] at hloop
    rcases copyPages_eq hsrc harea.inv.ring (List.nil_append pages).symm (List.nil_append xs).symm
      hloop with ⟨henough, hmem⟩
    rcases copyFlags_placed hplaced hfit harea.inv.ring
      (by rw [harea.flagsEq, hclone', hclone]) hflags with ⟨f, p, hplaced', hzone⟩
    refine ⟨_, xs, hplaced', hzone ▸ harea.inv.ring, harea.startEq hstack', ?_, henough, hfit, ?_⟩
    · rw [harea.lengthEq, hcont']
    · intro i p q j hp hq hj
      have hapart : ∀ p ∈ pages, p ∉ xs := by
        intro p hp hx
        rcases h.held.mem p hp with ⟨b, hb, hin⟩
        exact harea.fresh p hx b hb hin
      have hbase : pageToAddr s.zone p = pageToAddr t.zone p := by
        unfold pageToAddr
        rw [harea.base]
      rw [hzone, hmem, hbase]
      exact foldl_copy_page (nodup_of_ring harea.inv.ring) hapart hp hq hj
  · exact nomatch (Prod.mk.inj (Except.ok.inj hop₂)).1

theorem memAreaCopy_ok (hop : s.memAreaCopy fuel list map a c mem = .ok (true, s', mem'))
    (mem₁ : ByteMem) :
    ∃ s₁ mem₁', s.memAreaCopy fuel list map a c mem₁ = .ok (true, s₁, mem₁') := by
  rcases bind_eq_ok.mp hop with ⟨r, hr, hop₁⟩
  rcases bind_eq_ok.mp hop₁ with ⟨⟨got, t⟩, hnew, hop₂⟩
  dsimp only at hop₂
  split at hop₂
  · rename_i hgot
    rcases bind_eq_ok.mp hop₂ with ⟨mem₂, hloop, hop₃⟩
    rcases bind_eq_ok.mp hop₃ with ⟨t', hflags, hret⟩
    rcases copyPages_ok hloop mem₁ with ⟨mem₁', hloop'⟩
    refine ⟨t', mem₁', ?_⟩
    refine bind_eq_ok.mpr ⟨r, hr, bind_eq_ok.mpr ⟨(got, t), hnew, ?_⟩⟩
    dsimp only
    rw [if_pos hgot]
    exact bind_eq_ok.mpr ⟨mem₁', hloop', bind_eq_ok.mpr ⟨t', hflags, rfl⟩⟩
  · exact nomatch (Prod.mk.inj (Except.ok.inj hop₂)).1

end Copied

end VmState

/-! ## Address spaces -/

/-- The address is in `[m_start, m_end)`.  The end of an area at the top of the address space
is 0. -/
def MemArea.Covers (r : MemArea) (va : Nat) : Prop :=
  va < WORD_RANGE ∧ subWord va r.mStart < subWord r.mEnd r.mStart

namespace VmState

/-- The area `a` has the page `pg` at the address `va`: it is on the list of the area, has its
address there, and the mapping leads to it. -/
def MapsAt (s : VmState) (a va pg : Nat) : Prop :=
  s.zone.areaList.Reaches (.head a) (.page pg) ∧
    s.zone.virt pg / PAGE_SIZE = va / PAGE_SIZE ∧
    ∃ r flags, s.areas a = some r ∧
      s.pgtable r.mMap (va / PAGE_SIZE) = some ⟨pageToAddr s.zone pg, flags⟩

theorem Placed.mapsAt_iff {s : VmState} {a : Nat} {r : MemArea} {stack : Bool} {pages : List Nat}
    (h : Placed s a r stack pages)
    (hring : s.zone.areaList.IsRing (.head a) (pages.map AreaNode.page)) {va pg : Nat} :
    MapsAt s a va pg ↔ ∃ i, pages[i]? = some pg ∧
      pageSlot r.mStart (slotOf stack pages.length i) / PAGE_SIZE = va / PAGE_SIZE := by
  unfold MapsAt
  rw [hring.reaches_iff, page_mem_ring_iff]
  constructor
  · intro hmaps
    rcases hmaps with ⟨hmem, hvirt, -⟩
    rcases List.getElem?_of_mem hmem with ⟨i, hi⟩
    refine ⟨i, hi, ?_⟩
    rw [← (h.entry i pg hi).1, hvirt]
  · intro hslot
    rcases hslot with ⟨i, hi, hva⟩
    rcases h.entry i pg hi with ⟨hvirt, flags, hentry⟩
    refine ⟨List.mem_of_getElem? hi, hvirt ▸ hva, r, flags, h.record, ?_⟩
    rw [← hva]
    exact hentry

/-- The area `c` of `s'` is the same address space as the area `a` of `s`: it has the same
range, and at every page address in it the same contents. -/
structure CopyOf (s s' : VmState) (mem mem' : ByteMem) (a c : Nat) : Prop where
  range : ∃ r rc, s.areas a = some r ∧ s'.areas c = some rc ∧ rc.mStart = r.mStart ∧
    rc.mEnd = r.mEnd
  contents : ∀ r va pg, s.areas a = some r → PAGE_SIZE ∣ va → r.Covers va → MapsAt s a va pg →
    ∃ pg', MapsAt s' c va pg' ∧ ∀ j, j < PAGE_SIZE →
      mem' (pageToAddr s'.zone pg' + j) = mem (pageToAddr s.zone pg + j)

section Spaces

variable {s s' : VmState} {a c : Nat} {r rc : MemArea} {stack : Bool} {pages xs : List Nat}
variable {mem mem' : ByteMem}

theorem Placed.covers_last (h : Placed s a r stack pages) (htwo : 2 ≤ pages.length)
    (hfit : pages.length < ADDR_PAGES) :
    r.Covers (pageSlot r.mStart (pages.length - 1) / PAGE_SIZE * PAGE_SIZE) := by
  have hlast := subWord_pageSlot h.start (Nat.lt_of_le_of_lt (Nat.sub_le _ 1) hfit)
  have hend := subWord_pageSlot h.start hfit
  have hlt := pageSlot_lt r.mStart (pages.length - 1)
  unfold MemArea.Covers
  rw [h.stop, hend]
  unfold subWord at hlast ⊢
  generalize pageSlot r.mStart (pages.length - 1) = x at hlast hlt ⊢
  unfold PAGE_SIZE WORD_RANGE at *
  omega

theorem AreaCopied.length_eq (h : AreaCopied s r pages c rc xs mem mem' s')
    (hsrc : Placed s a r stack pages) (hcopy : CopyOf s s' mem mem' a c) :
    xs.length = pages.length := by
  rcases hcopy.range with ⟨r₁, rc₁, hr₁, hrc₁, -, hend⟩
  obtain rfl : r₁ = r := Option.some.inj (hr₁.symm.trans hsrc.record)
  obtain rfl : rc₁ = rc := Option.some.inj (hrc₁.symm.trans h.placed.record)
  rw [h.placed.stop, hsrc.stop, h.startEq] at hend
  exact pageSlot_inj h.fit (Nat.lt_of_le_of_lt h.enough h.fit) hend

/-- For a stack of two pages or more, the copy can be right only where the first and the last
page of the list have the same contents. -/
theorem AreaCopied.byte_eq_of_stack (h : AreaCopied s r pages c rc xs mem mem' s')
    (hsrc : Placed s a r true pages)
    (hring : s.zone.areaList.IsRing (.head a) (pages.map AreaNode.page))
    (hcopy : CopyOf s s' mem mem' a c) (htwo : 2 ≤ pages.length) {p q : Nat}
    (hp : pages[0]? = some p) (hq : pages[pages.length - 1]? = some q) :
    mem (pageToAddr s.zone q) = mem (pageToAddr s.zone p) := by
  have hfit := Nat.lt_of_le_of_lt h.enough h.fit
  have hmaps : MapsAt s a (pageSlot r.mStart (pages.length - 1) / PAGE_SIZE * PAGE_SIZE) p := by
    rw [hsrc.mapsAt_iff hring]
    refine ⟨0, hp, ?_⟩
    rw [Nat.mul_div_cancel _ (by decide)]
    rfl
  rcases hcopy.contents r _ p hsrc.record (Nat.dvd_mul_left _ _) (hsrc.covers_last htwo hfit)
    hmaps with ⟨p', hmaps', hbytes⟩
  rcases (h.placed.mapsAt_iff h.ring).mp hmaps' with ⟨i, hi, hslot⟩
  rw [Nat.mul_div_cancel _ (by decide), h.startEq] at hslot
  have hlt := (List.getElem?_eq_some_iff.mp hi).1
  have hlast : i = pages.length - 1 :=
    pageSlot_page_inj (Nat.lt_trans hlt h.fit) (Nat.lt_of_le_of_lt (Nat.sub_le _ 1) hfit) hslot
  rw [hlast] at hi
  have hfirst := hbytes 0 (by decide)
  rw [h.contents _ q p' 0 hq hi (by decide)] at hfirst
  exact hfirst

theorem AreaCopied.copyOf (h : AreaCopied s r pages c rc xs mem mem' s')
    (hsrc : Placed s a r stack pages)
    (hring : s.zone.areaList.IsRing (.head a) (pages.map AreaNode.page))
    (hstack : stack = true → pages.length = 1) (hlen : xs.length = pages.length) :
    CopyOf s s' mem mem' a c where
  range := by
    refine ⟨r, rc, hsrc.record, h.placed.record, h.startEq, ?_⟩
    rw [h.placed.stop, hsrc.stop, h.startEq, hlen]
  contents r₁ va pg _ _ _ hmaps := by
    rcases (hsrc.mapsAt_iff hring).mp hmaps with ⟨i, hi, hva⟩
    have hlt := (List.getElem?_eq_some_iff.mp hi).1
    have hplace : slotOf stack pages.length i = i := by
      unfold slotOf
      split
      · rename_i htrue
        have hone := hstack htrue
        omega
      · rfl
    obtain ⟨pg', hpg'⟩ : ∃ pg', xs[i]? = some pg' := by
      rw [← hlen] at hlt
      exact ⟨_, List.getElem?_eq_getElem hlt⟩
    refine ⟨pg', (h.placed.mapsAt_iff h.ring).mpr ⟨i, hpg', ?_⟩, fun j hj => ?_⟩
    · rw [h.startEq, ← hva, hplace]
      rfl
    · exact h.contents i pg pg' j hi hpg' hj

/-- A memory with a mark in one page. -/
def markPage (z : Zone) (pg : Nat) : ByteMem := fun x => if x = pageToAddr z pg then 1 else 0

theorem markPage_ne {z : Zone} {p q : Nat} (hne : q ≠ p) :
    markPage z p (pageToAddr z q) ≠ markPage z p (pageToAddr z p) := by
  unfold markPage
  rw [if_pos rfl, if_neg]
  · decide
  · unfold pageToAddr PAGE_SIZE
    omega

variable {lo hi fuel list map : Nat} {live : List Block}

/-- The copy of an area is the same address space exactly when the area is no stack of two
pages or more, and its number of pages is a power of two if they are to be contiguous. -/
theorem AreaInv.copyOf_iff (h : AreaInv s a r lo hi live pages) (hpages : pages ≠ [])
    (hlo : 1 ≤ lo) (hspace : hi * PAGE_SIZE ≤ WORD_RANGE)
    (hclone : hasFlag r.mFlags MMA_CLONE = false) (hac : a ≠ c) (hla : list ≠ a) (hlc : list ≠ c)
    (hreturns : ∃ mem s' mem', s.memAreaCopy fuel list map a c mem = .ok (true, s', mem')) :
    (∀ mem s' mem', s.memAreaCopy fuel list map a c mem = .ok (true, s', mem') →
      CopyOf s s' mem mem' a c) ↔
      (hasFlag r.mFlags MMA_STACK = true → r.mPages = 1) ∧
        (hasFlag r.mFlags MMA_CONT = true → ∃ k, r.mPages = 2 ^ k) := by
  have hpos : 1 ≤ pages.length := List.length_pos_iff.mpr hpages
  have hfit := h.length_lt hlo hspace
  have hword : pages.length < WORD_RANGE := Nat.lt_trans hfit (by decide)
  rw [h.placed.count]
  rcases hreturns with ⟨mem₀, s₀', mem₀', hop₀⟩
  constructor
  · intro hall
    constructor
    · intro hstack
      by_contra hone
      have htwo : 2 ≤ pages.length := by omega
      obtain ⟨p, hp⟩ : ∃ p, pages[0]? = some p := ⟨_, List.getElem?_eq_getElem hpos⟩
      obtain ⟨q, hq⟩ : ∃ q, pages[pages.length - 1]? = some q :=
        ⟨_, List.getElem?_eq_getElem (Nat.sub_lt hpos Nat.one_pos)⟩
      have hne : q ≠ p := by
        intro heq
        have hinj := (List.getElem?_inj hpos (nodup_of_ring h.ring)).mp (hp.trans (heq ▸ hq.symm))
        omega
      rcases memAreaCopy_ok hop₀ (markPage s.zone p) with ⟨s', mem', hop⟩
      rcases memAreaCopy_copied h hpages hlo hspace hclone hac hla hlc hop with ⟨rc, xs, hcopied⟩
      have hplaced := h.placed
      rw [hstack] at hplaced
      exact markPage_ne hne
        (hcopied.byte_eq_of_stack hplaced h.ring (hall _ _ _ hop) htwo hp hq)
    · intro hcont
      rcases memAreaCopy_copied h hpages hlo hspace hclone hac hla hlc hop₀ with
        ⟨rc, xs, hcopied⟩
      have hlen := hcopied.length_eq h.placed (hall _ _ _ hop₀)
      rw [hcopied.lengthEq, if_pos hcont, h.placed.count] at hlen
      exact (two_pow_log2_eq_iff hpos hword).mp hlen
  · intro hcond mem s' mem' hop
    rcases memAreaCopy_copied h hpages hlo hspace hclone hac hla hlc hop with ⟨rc, xs, hcopied⟩
    refine hcopied.copyOf h.placed h.ring hcond.1 ?_
    rw [hcopied.lengthEq, h.placed.count]
    split
    · rename_i hcont
      exact (two_pow_log2_eq_iff hpos hword).mpr (hcond.2 hcont)
    · rfl

end Spaces

/-! ## Areas that have grown -/

/-- In `s` there is the area `a` that `mem_area_alloc_new` has made in `s₀`, after calls of
`mem_area_grow`. -/
def Built (s₀ : VmState) (fuel list map start npages flags a : Nat) (grows : List Nat)
    (s : VmState) : Prop :=
  ∃ t, s₀.memAreaAllocNew fuel list map start npages flags a = .ok (true, t) ∧
    grows.foldlM (fun s n => s.memAreaGrow a n) t = .ok s

section Grown

variable {s₀ s : VmState} {fuel list map start npages flags a lo hi : Nat} {live : List Block}
variable {r : MemArea} {grows : List Nat}

theorem AreaInv.growAll {pages : List Nat} (hlo : 1 ≤ lo) (hspace : hi * PAGE_SIZE ≤ WORD_RANGE)
    (h : AreaInv s a r lo hi live pages) {s' : VmState}
    (hop : grows.foldlM (fun s n => s.memAreaGrow a n) s = .ok s') :
    ∃ r' live' pages', AreaInv s' a r' lo hi live' pages' ∧ r'.mFlags = r.mFlags ∧
      pages.length ≤ pages'.length := by
  induction grows generalizing s r live pages with
  | nil => exact ⟨r, live, pages, Except.ok.inj hop ▸ h, rfl, Nat.le_refl _⟩
  | cons n grows ih =>
    rcases bind_eq_ok.mp hop with ⟨t, hgrow, hrest⟩
    rcases h.grow hlo hspace hgrow with ⟨r₁, live₁, pages₁, h₁, hflags₁, hlen₁⟩
    rcases ih h₁ hrest with ⟨r', live', pages', h', hflags', hlen'⟩
    exact ⟨r', live', pages', h', hflags'.trans hflags₁, Nat.le_trans hlen₁ hlen'⟩

theorem Built.areaInv (h : Built s₀ fuel list map start npages flags a grows s)
    (hbuddy : BuddyInv s₀.zone lo hi live) (hlo : 1 ≤ lo) (hspace : hi * PAGE_SIZE ≤ WORD_RANGE)
    (hstart : start < WORD_RANGE) (hpos : 1 ≤ npages) (hclone : hasFlag flags MMA_CLONE = false)
    (hla : list ≠ a) :
    ∃ r live' pages, AreaInv s a r lo hi live' pages ∧ r.mFlags = flags ∧ pages ≠ [] := by
  rcases h with ⟨t, hnew, hgrows⟩
  rcases memAreaAllocNew_eq_ok hbuddy hlo hspace hstart hpos hclone hla hnew with
    ⟨r₁, live₁, xs, hxs, harea⟩
  rcases harea.inv.growAll hlo hspace hgrows with ⟨r, live', pages, hinv, hflags, hlen⟩
  refine ⟨r, live', pages, hinv, hflags.trans harea.flagsEq, ?_⟩
  have hne := List.length_pos_iff.mpr hxs
  exact List.length_pos_iff.mp (Nat.lt_of_lt_of_le hne hlen)

/-- `mem_area_copy` of an area that `mem_area_alloc_new` has made, with one page at least,
and that has grown any number of times.  For every contents of the memory the area that it
answers is the same address space exactly when the area is no `MMA_STACK` of two pages or more,
and has a power of two of pages if it is `MMA_CONT`. -/
theorem memAreaCopy_copyOf_iff {c fuel' list' map' : Nat}
    (hbuddy : BuddyInv s₀.zone lo hi live) (hlo : 1 ≤ lo) (hspace : hi * PAGE_SIZE ≤ WORD_RANGE)
    (hstart : start < WORD_RANGE) (hpos : 1 ≤ npages) (hclone : hasFlag flags MMA_CLONE = false)
    (hla : list ≠ a) (hbuilt : Built s₀ fuel list map start npages flags a grows s)
    (hr : s.areas a = some r) (hc : s.areas c = none) (hla' : list' ≠ a) (hlc' : list' ≠ c)
    (hreturns : ∃ mem s' mem', s.memAreaCopy fuel' list' map' a c mem = .ok (true, s', mem')) :
    (∀ mem s' mem', s.memAreaCopy fuel' list' map' a c mem = .ok (true, s', mem') →
      CopyOf s s' mem mem' a c) ↔
      (hasFlag r.mFlags MMA_STACK = true → r.mPages = 1) ∧
        (hasFlag r.mFlags MMA_CONT = true → ∃ k, r.mPages = 2 ^ k) := by
  rcases hbuilt.areaInv hbuddy hlo hspace hstart hpos hclone hla with
    ⟨r₁, live', pages, hinv, hflags, hpages⟩
  obtain rfl : r₁ = r := Option.some.inj (hinv.placed.record.symm.trans hr)
  have hac : a ≠ c := by
    intro heq
    rw [← heq, hr] at hc
    cases hc
  exact hinv.copyOf_iff hpages hlo hspace (hflags ▸ hclone) hac hla' hlc' hreturns

end Grown

/-- An area of one page that has grown to two, and its copy. -/
def growAndCopy (flags : Nat) : Except VmFault (Bool × Bool × Option Nat × Bool) := do
  let (got, t) ← emptyVm.memAreaAllocNew 9 9 7 0x8000000 1 flags 0
  let s ← [1].foldlM (fun s n => s.memAreaGrow 0 n) t
  let (copied, _, _) ← s.memAreaCopy 9 9 8 0 1 (fun _ => 0)
  return (got, copied, (s.areas 0).map MemArea.mPages, (s.areas 1).isNone)

theorem growAndCopy_runs (flags : Nat) (hclone : hasFlag flags MMA_CLONE = false)
    (hrun : growAndCopy flags = .ok (true, true, some 2, true)) :
    ∃ s r, Built emptyVm 9 9 7 0x8000000 1 flags 0 [1] s ∧ s.areas 0 = some r ∧
      r.mFlags = flags ∧ r.mPages = 2 ∧ s.areas 1 = none ∧
      ∃ mem s' mem', s.memAreaCopy 9 9 8 0 1 mem = .ok (true, s', mem') := by
  rcases bind_eq_ok.mp hrun with ⟨⟨got, t⟩, hnew, hrun₁⟩
  rcases bind_eq_ok.mp hrun₁ with ⟨s, hgrow, hrun₂⟩
  rcases bind_eq_ok.mp hrun₂ with ⟨⟨copied, s', mem'⟩, hcopy, hret⟩
  obtain ⟨rfl, hret₁⟩ := Prod.mk.inj (Except.ok.inj hret)
  obtain ⟨rfl, hret₂⟩ := Prod.mk.inj hret₁
  obtain ⟨hpages, hnone⟩ := Prod.mk.inj hret₂
  have hbuilt : Built emptyVm 9 9 7 0x8000000 1 flags 0 [1] s := ⟨t, hnew, hgrow⟩
  rcases hbuilt.areaInv emptyVm_buddy (Nat.le_refl 1) (by decide) (by decide) (Nat.le_refl 1)
    hclone (by decide) with ⟨r, live', pages, hinv, hflags, -⟩
  rw [hinv.placed.record] at hpages
  exact ⟨s, r, hbuilt, hinv.placed.record, hflags, Option.some.inj hpages,
    Option.isNone_iff_eq_none.mp hnone, _, s', mem', hcopy⟩

theorem memAreaCopy_grows_two : ∃ s mem s' mem',
    Built emptyVm 9 9 7 0x8000000 1 (MMA_RW ||| MMA_GROWS) 0 [1] s ∧
      s.memAreaCopy 9 9 8 0 1 mem = .ok (true, s', mem') ∧ CopyOf s s' mem mem' 0 1 := by
  rcases growAndCopy_runs (MMA_RW ||| MMA_GROWS) (by decide) (by decide +kernel) with
    ⟨s, r, hbuilt, hr, hflags, hpages, hc, hreturns⟩
  have hcopy := (memAreaCopy_copyOf_iff emptyVm_buddy (Nat.le_refl 1) (by decide) (by decide)
    (Nat.le_refl 1) (by decide) (by decide) hbuilt hr hc (by decide) (by decide) hreturns).mpr (by
      rw [hflags]
      exact ⟨fun h => absurd h (by decide), fun h => absurd h (by decide)⟩)
  rcases hreturns with ⟨mem, s', mem', hop⟩
  exact ⟨s, mem, s', mem', hbuilt, hop, hcopy mem s' mem' hop⟩

/-- A stack of two pages: there are contents that the copy has in the wrong order. -/
theorem memAreaCopy_stack_wrong : ∃ s mem s' mem',
    Built emptyVm 9 9 7 0x8000000 1 (MMA_RW ||| MMA_STACK) 0 [1] s ∧
      s.memAreaCopy 9 9 8 0 1 mem = .ok (true, s', mem') ∧ ¬ CopyOf s s' mem mem' 0 1 := by
  rcases growAndCopy_runs (MMA_RW ||| MMA_STACK) (by decide) (by decide +kernel) with
    ⟨s, r, hbuilt, hr, hflags, hpages, hc, hreturns⟩
  rcases hbuilt.areaInv emptyVm_buddy (Nat.le_refl 1) (by decide) (by decide) (Nat.le_refl 1)
    (by decide) (by decide) with ⟨r₁, live', pages, hinv, -, hne⟩
  obtain rfl : r₁ = r := Option.some.inj (hinv.placed.record.symm.trans hr)
  by_contra hall
  have hcond := (hinv.copyOf_iff hne (Nat.le_refl 1) (by decide) (by rw [hflags]; decide)
    (by decide) (by decide) (by decide) hreturns).mp (by
      intro mem s' mem' hop
      by_contra hnot
      exact hall ⟨s, mem, s', mem', hbuilt, hop, hnot⟩)
  have hone := hcond.1 (by rw [hflags]; decide)
  omega

end VmState

end Koowaldah
