import Koowaldah.Klib
import Koowaldah.MemArea.Put

/-!
# Areas with pages of their own

A model of `alloc_pagelist_sparse` and `alloc_pagelist_contig` of
`kernel/page_alloc.c` and of `mem_area_alloc_new` and `mem_area_grow` of
`kernel/mem_area.c`.

There are four groups.

* Addresses.  `pageSlot start k` is the `k`-th page address from `start` on, as a machine
  word.  The page numbers of fewer than `2 ^ 20` slots are different
  (`pageSlot_page_inj`).
* The layout of an area.  `Placed` says where the pages of a list are mapped: in list
  order from the start up, or from the end down for `MMA_STACK`.  `Placed.add` is the one
  step that `mma_map_pages` and `mem_area_grow` share.
* Getting pages.  `Got` says what the two `alloc_pagelist` functions leave: a list of
  pages that nobody had, and all other lists as they were.
* The areas that `mem_area_alloc_new` makes (`memAreaAllocNew_eq_ok`) and that
  `mem_area_grow` makes of them (`AreaInv.grow`).
-/

namespace Koowaldah

open Function SysLib SysLib.Dyadic SysLib.Links

variable {start k n i : Nat} {r : MemArea}

/-! ## The functions -/

/-- `&root_map`. -/
def ROOT_MAP : Nat := 0

namespace VmState

/-- `alloc_pagelist_sparse` into the list `list`, with the pages left to get.  The answer
says whether they are all there.  The lowest address is read for `ZONE_VMAP` only. -/
def allocPagelistSparse (fuel list : Nat) : Nat → VmState → Except VmFault (Bool × VmState)
  | 0, s => .ok (true, s)
  | n + 1, s =>
    let (z, pg) := rawAllocPages s.zone 0
    let s := { s with zone := z }
    match pg with
    | none => do
      let s ← s.freePagelist fuel (.head list)
      return (false, s)
    | some pg =>
      allocPagelistSparse fuel list n
        (s.setLinks (klist0Append (.page pg) (.head list) s.zone.areaList))

/-- The loop of `alloc_pagelist_contig`: the pages of the pile go on the list. -/
def appendRun (list pg : Nat) : Nat → VmState → VmState
  | 0, s => s
  | i + 1, s =>
    let s := appendRun list pg i s
    s.setLinks (klist0Append (.page (pg + i)) (.head list) s.zone.areaList)

def allocPagelistContig (list npages : Nat) (s : VmState) : Bool × VmState :=
  let order := log2 npages
  let (z, pg) := rawAllocPages s.zone order
  let s := { s with zone := z }
  match pg with
  | none => (false, s)
  | some pg => (true, s.appendRun list pg (2 ^ order))

/-- The one of the two that `mem_area_alloc_new` takes. -/
def allocPagelist (fuel list npages flags : Nat) (s : VmState) :
    Except VmFault (Bool × VmState) :=
  if hasFlag flags MMA_CONT then .ok (s.allocPagelistContig list npages)
  else s.allocPagelistSparse fuel list npages

/-- `mem_area_alloc` on the slice `a`, with the pages of `list`. -/
def memAreaAllocList (fuel a map start flags list : Nat) (s : VmState) :
    Except VmFault VmState :=
  let s := s.memAreaAlloc a map start flags
  if klist0Empty (.head list) s.zone.areaList then .ok s
  else (s.setLinks (klist0Reparent (.head list) (.head a) s.zone.areaList)).mmaMapPages fuel a

/-- `mem_area_alloc_new` on the slice `a`; `list` is the place of its local list head.  The
answer says whether there is an area.  Pages for the root mapping come from `ZONE_VMAP`, which
is not set up on the i386. -/
def memAreaAllocNew (fuel list map start pages flags a : Nat) (s : VmState) :
    Except VmFault (Bool × VmState) :=
  if map = ROOT_MAP then .error .freed
  else do
    let s := s.setLinks (klist0Init (.head list) s.zone.areaList)
    let (got, s) ← s.allocPagelist fuel list pages flags
    if got then
      let s ← s.memAreaAllocList fuel a map start flags list
      return (true, s)
    else return (false, s)

/-- The loop of `mem_area_grow`. -/
def growLoop (a : Nat) : Nat → VmState → Except VmFault VmState
  | 0, s => .ok s
  | n + 1, s =>
    let (z, pg) := rawAllocPages s.zone 0
    match pg with
    | none => .error .bug
    | some pg => do
      let s ← ({ s with zone := z } : VmState).memAreaAddPage a pg
      let r ← s.area a
      growLoop a n (s.mapPage r.mMap (s.zone.virt pg) (pageToAddr s.zone pg) r.mProt)

def memAreaGrow (a pages : Nat) (s : VmState) : Except VmFault VmState := do
  let r ← s.area a
  if hasFlag r.mFlags (MMA_GROWS ||| MMA_STACK) then s.growLoop a pages else return s

end VmState

/-! ## Addresses -/

def ADDR_PAGES : Nat := 2 ^ 20

/-- The `k`-th page address from `start` on. -/
def pageSlot (start k : Nat) : Nat := (start + k * PAGE_SIZE) % WORD_RANGE

theorem wordRange_eq : WORD_RANGE = PAGE_SIZE * ADDR_PAGES := rfl

theorem pageSlot_lt (start k : Nat) : pageSlot start k < WORD_RANGE := Nat.mod_lt _ (by decide)

theorem pageSlot_zero (hstart : start < WORD_RANGE) : pageSlot start 0 = start := by
  unfold pageSlot
  rw [Nat.zero_mul, Nat.add_zero, Nat.mod_eq_of_lt hstart]

theorem pageSlot_succ (start k : Nat) :
    addWord (pageSlot start k) PAGE_SIZE = pageSlot start (k + 1) := by
  unfold addWord pageSlot
  rw [Nat.mod_add_mod, Nat.add_mul, Nat.one_mul, Nat.add_assoc]

theorem pageSlot_subWord (start k : Nat) :
    pageSlot (subWord start PAGE_SIZE) (k + 1) = pageSlot start k := by
  unfold pageSlot subWord
  rw [Nat.mod_add_mod]
  have hword : PAGE_SIZE ≤ WORD_RANGE := by decide
  have hsum : start + (WORD_RANGE - PAGE_SIZE) + (k + 1) * PAGE_SIZE =
      start + k * PAGE_SIZE + WORD_RANGE := by
    rw [Nat.add_mul]
    omega
  rw [hsum, Nat.add_mod_right]

theorem pageSlot_page (start k : Nat) :
    pageSlot start k / PAGE_SIZE = (start / PAGE_SIZE + k) % ADDR_PAGES := by
  unfold pageSlot
  rw [wordRange_eq, Nat.mod_mul_right_div_self, Nat.add_mul_div_right _ _ (by decide)]

theorem pageSlot_page_inj {m : Nat} (hk : k < ADDR_PAGES) (hm : m < ADDR_PAGES)
    (heq : pageSlot start k / PAGE_SIZE = pageSlot start m / PAGE_SIZE) : k = m := by
  rw [pageSlot_page, pageSlot_page] at heq
  have hmod : k ≡ m [MOD ADDR_PAGES] := Nat.ModEq.add_left_cancel' _ heq
  exact hmod.eq_of_lt_of_lt hk hm

theorem subWord_pageSlot (hstart : start < WORD_RANGE) (hk : k < ADDR_PAGES) :
    subWord (pageSlot start k) start = k * PAGE_SIZE := by
  have hlt : k * PAGE_SIZE < WORD_RANGE := by
    exact Nat.mul_lt_mul_of_pos_right hk (by decide)
  unfold subWord pageSlot
  rw [Nat.mod_add_mod]
  have hsum : start + k * PAGE_SIZE + (WORD_RANGE - start) = k * PAGE_SIZE + WORD_RANGE := by
    omega
  rw [hsum, Nat.add_mod_right, Nat.mod_eq_of_lt hlt]

theorem pageSlot_inj {m : Nat} (hk : k < ADDR_PAGES) (hm : m < ADDR_PAGES)
    (heq : pageSlot start k = pageSlot start m) : k = m :=
  pageSlot_page_inj hk hm (by rw [heq])

/-! ## The layout of an area -/

def slotOf (stack : Bool) (n i : Nat) : Nat := if stack then n - 1 - i else i

theorem slotOf_lt {stack : Bool} (hi : i < n) : slotOf stack n i < n := by
  unfold slotOf
  split <;> omega

theorem slotOf_inj {stack : Bool} {j : Nat} (hi : i < n) (hj : j < n)
    (heq : slotOf stack n i = slotOf stack n j) : i = j := by
  unfold slotOf at heq
  split at heq <;> omega

/-- The address that `__mem_area_add_page` gives to the next page. -/
def MemArea.nextAddr (r : MemArea) : Nat :=
  if hasFlag r.mFlags MMA_STACK then subWord r.mStart PAGE_SIZE else r.mEnd

def MemArea.grown (r : MemArea) : MemArea :=
  if hasFlag r.mFlags MMA_STACK then
    { r with mStart := subWord r.mStart PAGE_SIZE, mPages := addWord r.mPages 1 }
  else { r with mEnd := addWord r.mEnd PAGE_SIZE, mPages := addWord r.mPages 1 }

theorem MemArea.grown_of_stack (hstack : hasFlag r.mFlags MMA_STACK = true) :
    r.grown = { r with mStart := subWord r.mStart PAGE_SIZE, mPages := addWord r.mPages 1 } :=
  if_pos hstack

theorem MemArea.grown_of_up (hstack : hasFlag r.mFlags MMA_STACK = false) :
    r.grown = { r with mEnd := addWord r.mEnd PAGE_SIZE, mPages := addWord r.mPages 1 } :=
  if_neg (Bool.eq_false_iff.mp hstack)

theorem MemArea.grown_mFlags (r : MemArea) : r.grown.mFlags = r.mFlags := by
  unfold grown
  split <;> rfl

theorem MemArea.grown_mProt (r : MemArea) : r.grown.mProt = r.mProt := by
  unfold grown
  split <;> rfl

theorem MemArea.grown_mMap (r : MemArea) : r.grown.mMap = r.mMap := by
  unfold grown
  split <;> rfl

theorem MemArea.grown_start_lt (hstart : r.mStart < WORD_RANGE) : r.grown.mStart < WORD_RANGE := by
  unfold grown
  split
  · exact Nat.mod_lt _ (by decide)
  · exact hstart

theorem MemArea.grown_pageSlot (r : MemArea) (hi : i < n) :
    pageSlot r.grown.mStart (slotOf (hasFlag r.mFlags MMA_STACK) (n + 1) i) =
      pageSlot r.mStart (slotOf (hasFlag r.mFlags MMA_STACK) n i) := by
  unfold grown slotOf
  by_cases hstack : hasFlag r.mFlags MMA_STACK = true
  · rw [if_pos hstack, if_pos hstack, if_pos hstack]
    have hsucc : n + 1 - 1 - i = n - 1 - i + 1 := by omega
    rw [hsucc]
    exact pageSlot_subWord _ _
  · rw [if_neg hstack, if_neg hstack, if_neg hstack]

theorem MemArea.nextAddr_eq (hstop : r.mEnd = pageSlot r.mStart n) :
    r.nextAddr = pageSlot r.grown.mStart (slotOf (hasFlag r.mFlags MMA_STACK) (n + 1) n) := by
  unfold grown nextAddr slotOf
  by_cases hstack : hasFlag r.mFlags MMA_STACK = true
  · rw [if_pos hstack, if_pos hstack, if_pos hstack, Nat.add_sub_cancel, Nat.sub_self,
      pageSlot_zero]
    exact Nat.mod_lt _ (by decide)
  · rw [if_neg hstack, if_neg hstack, if_neg hstack]
    exact hstop

theorem MemArea.grown_mEnd (hstop : r.mEnd = pageSlot r.mStart n) :
    r.grown.mEnd = pageSlot r.grown.mStart (n + 1) := by
  unfold grown
  split
  · rw [pageSlot_subWord]
    exact hstop
  · rw [← pageSlot_succ, ← hstop]

theorem MemArea.grown_mPages (hcount : r.mPages = n) (hfit : n + 1 < ADDR_PAGES) :
    r.grown.mPages = n + 1 := by
  have hword : addWord r.mPages 1 = n + 1 := by
    rw [hcount]
    refine Nat.mod_eq_of_lt (Nat.lt_trans hfit ?_)
    decide
  unfold grown
  split <;> exact hword

namespace VmState

theorem rawMemAreaAddPage_eq (a : Nat) (r : MemArea) (pg : Nat) (s : VmState) :
    s.rawMemAreaAddPage a r pg = (s.setVirt pg r.nextAddr).setArea a r.grown := by
  unfold rawMemAreaAddPage MemArea.nextAddr MemArea.grown
  split <;> rfl

/-- The pages are mapped in list order, upwards from the start or downwards from the
end. -/
structure Placed (s : VmState) (a : Nat) (r : MemArea) (stack : Bool) (pages : List Nat) :
    Prop where
  record : s.areas a = some r
  start : r.mStart < WORD_RANGE
  stop : r.mEnd = pageSlot r.mStart pages.length
  count : r.mPages = pages.length
  entry : ∀ i pg, pages[i]? = some pg →
    s.zone.virt pg = pageSlot r.mStart (slotOf stack pages.length i) ∧
      ∃ flags, s.pgtable r.mMap (pageSlot r.mStart (slotOf stack pages.length i) / PAGE_SIZE) =
        some ⟨pageToAddr s.zone pg, flags⟩

section Layout

variable {s s' : VmState} {a pg : Nat} {r : MemArea} {pages : List Nat}

theorem Placed.add (h : Placed s a r (hasFlag r.mFlags MMA_STACK) pages) (hpg : pg ∉ pages)
    (hfit : pages.length + 1 < ADDR_PAGES) (harea : s'.areas a = some r.grown)
    (hvirt : s'.zone.virt = Function.update s.zone.virt pg r.nextAddr)
    (hbase : s'.zone.base = s.zone.base) (htable : s'.pgtable = Function.update s.pgtable r.mMap
      (Function.update (s.pgtable r.mMap) (r.nextAddr / PAGE_SIZE)
        (some ⟨pageToAddr s.zone pg, r.mProt⟩))) :
    Placed s' a r.grown (hasFlag r.mFlags MMA_STACK) (pages ++ [pg]) := by
  have haddr : ∀ q, pageToAddr s'.zone q = pageToAddr s.zone q := by
    intro q
    unfold pageToAddr
    rw [hbase]
  have hlen : (pages ++ [pg]).length = pages.length + 1 := by
    rw [List.length_append, List.length_singleton]
  have hnew := MemArea.nextAddr_eq h.stop
  refine ⟨harea, MemArea.grown_start_lt h.start, ?_, ?_, ?_⟩
  · rw [hlen]
    exact MemArea.grown_mEnd h.stop
  · rw [hlen]
    exact MemArea.grown_mPages h.count hfit
  · intro i q hq
    rw [hlen, hvirt, htable, MemArea.grown_mMap, update_self, haddr]
    by_cases hi : i < pages.length
    · rw [List.getElem?_append_left hi] at hq
      rcases h.entry i q hq with ⟨hq₁, flags, hq₂⟩
      have hne : q ≠ pg := fun he => hpg (he ▸ List.mem_of_getElem? hq)
      have hpage : pageSlot r.mStart (slotOf (hasFlag r.mFlags MMA_STACK) pages.length i) /
          PAGE_SIZE ≠ r.nextAddr / PAGE_SIZE := by
        rw [← r.grown_pageSlot hi, hnew]
        intro heq
        have hslot := pageSlot_page_inj (Nat.lt_trans (slotOf_lt (by omega)) hfit)
          (Nat.lt_trans (slotOf_lt (Nat.lt_succ_self _)) hfit) heq
        exact absurd (slotOf_inj (by omega) (Nat.lt_succ_self _) hslot) (by omega)
      rw [r.grown_pageSlot hi, update_of_ne hne, update_of_ne hpage]
      exact ⟨hq₁, flags, hq₂⟩
    · rw [List.getElem?_append_right (Nat.le_of_not_lt hi)] at hq
      have hi' : i = pages.length := by
        have hlt := (List.getElem?_eq_some_iff.mp hq).1
        rw [List.length_singleton] at hlt
        omega
      rw [hi', Nat.sub_self] at hq
      have hqpg : pg = q := Option.some.inj hq
      rw [hi', ← hqpg, ← hnew, update_self, update_self]
      exact ⟨rfl, _, rfl⟩

end Layout

end VmState

/-! ## Getting pages -/

/-- The pages are in piles that are handed out. -/
structure Held (z : Zone) (lo hi : Nat) (live : List Block) (pages : List Nat) : Prop where
  buddy : BuddyInv z lo hi live
  mem : ∀ pg ∈ pages, ∃ b ∈ live, pg ∈ b

section Held

variable {z : Zone} {lo hi : Nat} {live : List Block} {pages : List Nat}

theorem length_lt_addrPages (hnodup : pages.Nodup) (hmem : ∀ pg ∈ pages, lo ≤ pg ∧ pg < hi)
    (hlo : 1 ≤ lo) (hspace : hi * PAGE_SIZE ≤ WORD_RANGE) : pages.length < ADDR_PAGES := by
  have hsub : pages.toFinset ⊆ Finset.Ico lo hi :=
    fun pg hpg => Finset.mem_Ico.mpr (hmem pg (List.mem_toFinset.mp hpg))
  have hcard := Finset.card_le_card hsub
  rw [List.toFinset_card_of_nodup hnodup, Nat.card_Ico] at hcard
  have hhi : hi ≤ ADDR_PAGES := by
    rw [Nat.mul_comm] at hspace
    exact Nat.le_of_mul_le_mul_left hspace (by decide)
  have hpos : 0 < ADDR_PAGES := by decide
  omega

theorem Held.bounds (h : Held z lo hi live pages) : ∀ pg ∈ pages, lo ≤ pg ∧ pg < hi := by
  intro pg hpg
  obtain ⟨b, hb, hin⟩ := h.mem pg hpg
  have hpos : 0 < cover live pg := cover_pos_iff.mpr ⟨b, hb, hin⟩
  have hcovers := h.buddy.piles.covers pg
  by_contra hout
  rw [if_neg hout] at hcovers
  omega

theorem Held.length_lt (h : Held z lo hi live pages) (hnodup : pages.Nodup) (hlo : 1 ≤ lo)
    (hspace : hi * PAGE_SIZE ≤ WORD_RANGE) : pages.length < ADDR_PAGES :=
  length_lt_addrPages hnodup h.bounds hlo hspace

theorem BuddyInv.alloc_fresh {k p : Nat} (h : BuddyInv z lo hi live)
    (hp : (rawAllocPages z k).2 = some p) : ∀ x ∈ Block.mk k p, ∀ b ∈ live, x ∉ b := by
  intro x hx
  have hfree := (h.freePageSet_alloc hp).1.2 x hx.1 hx.2
  exact (h.mem_freePageSet_iff.mp hfree).2

theorem Held.concat (h : Held z lo hi live pages) {pg : Nat}
    (hp : (rawAllocPages z 0).2 = some pg) :
    pg ∉ pages ∧ Held (rawAllocPages z 0).1 lo hi (⟨0, pg⟩ :: live) (pages ++ [pg]) := by
  have hfresh := h.buddy.alloc_fresh hp pg (Block.start_mem ⟨0, pg⟩)
  refine ⟨?_, rawAllocPages_buddy h.buddy hp, ?_⟩
  · intro hmem
    rcases h.mem pg hmem with ⟨b, hb, hin⟩
    exact hfresh b hb hin
  · intro q hq
    rcases List.mem_append.mp hq with hold | hnew
    · rcases h.mem q hold with ⟨b, hb, hin⟩
      exact ⟨b, List.mem_cons_of_mem _ hb, hin⟩
    · rw [List.mem_singleton.mp hnew]
      exact ⟨_, List.mem_cons_self, Block.start_mem ⟨0, pg⟩⟩

end Held

namespace VmState

/-- What getting pages leaves: on `list` there are pages that nobody had before, and the
lists of pages that somebody has are as they were. -/
structure Got (list lo hi : Nat) (live : List Block) (s : VmState) (xs : List Nat)
    (live' : List Block) (s' : VmState) : Prop where
  ring : s'.zone.areaList.IsRing (.head list) (xs.map AreaNode.page)
  held : Held s'.zone lo hi live' xs
  grows : ∀ b ∈ live, b ∈ live'
  fresh : ∀ pg ∈ xs, ∀ b ∈ live, pg ∉ b
  areas : s'.areas = s.areas
  base : s'.zone.base = s.zone.base
  rings : ∀ (d : Nat) (ys : List Nat), s.zone.areaList.IsRing (.head d) (ys.map AreaNode.page) →
    d ≠ list → (∀ pg ∈ ys, ∃ b ∈ live, pg ∈ b) →
    s'.zone.areaList.IsRing (.head d) (ys.map AreaNode.page)

section Got

variable {list lo hi : Nat} {live live' : List Block} {s s' : VmState} {xs : List Nat}

theorem page_mem_ring_iff {pg d : Nat} {ys : List Nat} :
    AreaNode.page pg ∈ AreaNode.head d :: ys.map AreaNode.page ↔ pg ∈ ys := by
  rw [List.mem_cons, or_iff_right nofun]
  constructor
  · intro h
    rcases List.mem_map.mp h with ⟨q, hq, heq⟩
    exact AreaNode.page.inj heq ▸ hq
  · intro h
    exact List.mem_map_of_mem h

theorem head_mem_ring_iff {c d : Nat} {ys : List Nat} :
    AreaNode.head c ∈ AreaNode.head d :: ys.map AreaNode.page ↔ c = d := by
  rw [List.mem_cons]
  constructor
  · intro h
    rcases h with heq | hmem
    · exact AreaNode.head.inj heq
    · rcases List.mem_map.mp hmem with ⟨q, -, heq⟩
      cases heq
  · intro h
    exact Or.inl (congrArg AreaNode.head h)

theorem Got.init (list : Nat) (h : BuddyInv s.zone lo hi live) :
    Got list lo hi live s [] live (s.setLinks (klist0Init (.head list) s.zone.areaList)) where
  ring := klist0Init_isRing _ _
  held := ⟨h.congr ⟨rfl, rfl, rfl, rfl⟩, fun _ hpg => nomatch hpg⟩
  grows _ hb := hb
  fresh _ hpg := nomatch hpg
  areas := rfl
  base := rfl
  rings d ys hring hne _ := by
    have hout : ∀ x ∈ AreaNode.head d :: ys.map AreaNode.page, x ≠ .head list := by
      intro x hx heq
      exact hne (head_mem_ring_iff.mp (heq ▸ hx)).symm
    refine hring.frame ?_ ?_
    · intro x hx
      show (klist0Init _ _).next x = _
      unfold klist0Init
      rw [setNext_next, if_neg (hout x hx)]
      rfl
    · intro x hx
      show (klist0Init _ _).prev x = _
      unfold klist0Init
      rw [setNext_prev, setPrev_prev, if_neg (hout x hx)]

theorem Got.alloc (h : Got list lo hi live s xs live' s') {k p : Nat}
    (hp : (rawAllocPages s'.zone k).2 = some p) :
    Got list lo hi live s xs (⟨k, p⟩ :: live') { s' with zone := (rawAllocPages s'.zone k).1 } where
  ring := (rawAllocPages_sameRest s'.zone k).areaList ▸ h.ring
  held := by
    refine ⟨rawAllocPages_buddy h.held.buddy hp, ?_⟩
    intro pg hpg
    rcases h.held.mem pg hpg with ⟨b, hb, hin⟩
    exact ⟨b, List.mem_cons_of_mem _ hb, hin⟩
  grows b hb := List.mem_cons_of_mem _ (h.grows b hb)
  fresh := h.fresh
  areas := h.areas
  base := (rawAllocPages_sameRest s'.zone k).base.trans h.base
  rings d ys hring hne hys := by
    rw [(rawAllocPages_sameRest s'.zone k).areaList]
    exact h.rings d ys hring hne hys

theorem Got.append (h : Got list lo hi live s xs live' s') {pg : Nat}
    (hmem : ∃ b ∈ live', pg ∈ b) (hfresh : ∀ b ∈ live, pg ∉ b) (hnot : pg ∉ xs) :
    Got list lo hi live s (pg :: xs) live'
      (s'.setLinks (klist0Append (.page pg) (.head list) s'.zone.areaList)) where
  ring := klist0Append_isRing h.ring (fun hm => hnot (page_mem_ring_iff.mp hm))
  held := by
    refine ⟨h.held.buddy.congr ⟨rfl, rfl, rfl, rfl⟩, ?_⟩
    intro q hq
    rcases List.mem_cons.mp hq with rfl | hold
    · exact hmem
    · exact h.held.mem q hold
  grows := h.grows
  fresh := by
    intro q hq
    rcases List.mem_cons.mp hq with rfl | hold
    · exact hfresh
    · exact h.fresh q hold
  areas := h.areas
  base := h.base
  rings d ys hring hne hys := by
    -- the pages of the other list are in piles that were out before
    have hapart : ∀ q, (∀ b ∈ live, q ∉ b) → q ∉ ys := by
      intro q hq hmem
      rcases hys q hmem with ⟨b, hb, hin⟩
      exact hq b hb hin
    refine klist0Append_frame h.ring (h.rings d ys hring hne hys)
      (fun hm => hapart pg hfresh (page_mem_ring_iff.mp hm)) ?_
    intro x hx hx'
    rcases List.mem_cons.mp hx with rfl | hpage
    · exact hne (head_mem_ring_iff.mp hx').symm
    · rcases List.mem_map.mp hpage with ⟨q, hq, rfl⟩
      exact hapart q (h.fresh q hq) (page_mem_ring_iff.mp hx')

theorem Got.sparse {fuel : Nat} : ∀ (n : Nat) {xs : List Nat} {live' : List Block}
    {s' s'' : VmState}, Got list lo hi live s xs live' s' →
    s'.allocPagelistSparse fuel list n = .ok (true, s'') →
    ∃ xs' live'', Got list lo hi live s xs' live'' s'' ∧ xs'.length = xs.length + n := by
  intro n
  induction n with
  | zero =>
    intro xs live' s' s'' h hop
    have heq := (Prod.mk.inj (Except.ok.inj hop)).2
    exact ⟨xs, live', heq ▸ h, rfl⟩
  | succ n ih =>
    intro xs live' s' s'' h hop
    rw [allocPagelistSparse] at hop
    cases hp : (rawAllocPages s'.zone 0).2 with
    | none =>
      simp only [hp] at hop
      rcases bind_eq_ok.mp hop with ⟨t, -, hret⟩
      exact nomatch (Prod.mk.inj (Except.ok.inj hret)).1
    | some pg =>
      simp only [hp] at hop
      have hfresh := h.held.buddy.alloc_fresh hp pg (Block.start_mem ⟨0, pg⟩)
      have hnot : pg ∉ xs := by
        intro hmem
        rcases h.held.mem pg hmem with ⟨b, hb, hin⟩
        exact hfresh b hb hin
      have hstep := (h.alloc hp).append ⟨_, List.mem_cons_self, Block.start_mem ⟨0, pg⟩⟩
        (fun b hb => hfresh b (h.grows b hb)) hnot
      rcases ih hstep hop with ⟨xs', live'', hgot, hlen⟩
      refine ⟨xs', live'', hgot, ?_⟩
      rw [hlen, List.length_cons]
      omega

theorem Got.appendRun {k p : Nat} (h : Got list lo hi live s [] live' s')
    (hrun : Block.mk k p ∈ live') (hfresh : ∀ x ∈ Block.mk k p, ∀ b ∈ live, x ∉ b) :
    ∀ i, i ≤ 2 ^ k → ∃ xs, Got list lo hi live s xs live' (s'.appendRun list p i) ∧
      xs.length = i ∧ ∀ q ∈ xs, q < p + i := by
  intro i
  induction i with
  | zero =>
    intro _
    exact ⟨[], h, rfl, fun _ hq => nomatch hq⟩
  | succ i ih =>
    intro hi
    rcases ih (Nat.le_of_succ_le hi) with ⟨xs, hgot, hlen, hbelow⟩
    have hin : p + i ∈ Block.mk k p := ⟨Nat.le_add_right _ _, Nat.add_lt_add_left hi p⟩
    have hnot : p + i ∉ xs := fun hmem => Nat.lt_irrefl _ (hbelow _ hmem)
    refine ⟨(p + i) :: xs, hgot.append ⟨_, hrun, hin⟩ (hfresh _ hin) hnot, ?_, ?_⟩
    · rw [List.length_cons, hlen]
    · intro q hq
      rcases List.mem_cons.mp hq with rfl | hold
      · omega
      · have hlt := hbelow q hold
        omega

theorem Got.contig {n : Nat} (h : Got list lo hi live s [] live' s')
    (hop : (s'.allocPagelistContig list n).1 = true) :
    ∃ xs live'', Got list lo hi live s xs live'' (s'.allocPagelistContig list n).2 ∧
      xs.length = 2 ^ log2 n := by
  unfold allocPagelistContig at hop ⊢
  cases hp : (rawAllocPages s'.zone (log2 n)).2 with
  | none =>
    simp only [hp] at hop
    cases hop
  | some pg =>
    simp only [hp]
    have hfresh := h.held.buddy.alloc_fresh hp
    rcases (h.alloc hp).appendRun List.mem_cons_self
      (fun x hx b hb => hfresh x hx b (h.grows b hb)) _ (Nat.le_refl _) with ⟨xs, hgot, hlen, -⟩
    exact ⟨xs, _, hgot, hlen⟩

end Got

/-! ## Areas -/

/-- An area that is no clone: its pages are on its list, in piles that are handed out, and
mapped in order. -/
structure AreaInv (s : VmState) (a : Nat) (r : MemArea) (lo hi : Nat) (live : List Block)
    (pages : List Nat) : Prop where
  placed : Placed s a r (hasFlag r.mFlags MMA_STACK) pages
  ring : s.zone.areaList.IsRing (.head a) (pages.map AreaNode.page)
  held : Held s.zone lo hi live pages

section Area

variable {s s' : VmState} {a lo hi : Nat} {r : MemArea} {live : List Block} {pages : List Nat}

variable {pg : Nat}

theorem nodup_of_ring (hring : s.zone.areaList.IsRing (.head a) (pages.map AreaNode.page)) :
    pages.Nodup :=
  List.Nodup.of_map AreaNode.page (List.nodup_cons.mp hring.1).2

theorem AreaInv.length_lt (h : AreaInv s a r lo hi live pages) (hlo : 1 ≤ lo)
    (hspace : hi * PAGE_SIZE ≤ WORD_RANGE) : pages.length < ADDR_PAGES :=
  h.held.length_lt (nodup_of_ring h.ring) hlo hspace

theorem mmaOriginal_self {fuel : Nat} (hr : s.areas a = some r)
    (hclone : hasFlag r.mFlags MMA_CLONE = false) {org : Nat}
    (hop : s.mmaOriginal fuel a = .ok org) : org = a := by
  cases fuel with
  | zero => exact nomatch hop
  | succ fuel =>
    rw [mmaOriginal, hr] at hop
    dsimp only at hop
    rw [hclone] at hop
    exact (Except.ok.inj hop).symm

/-- What `mma_map_pages` has done when the pages of `l` are left. -/
structure Mapping (s : VmState) (a : Nat) (r : MemArea) (pages l : List Nat) (t : VmState) :
    Prop where
  into : MapsInto a s t
  done : ∃ pre rt, pages = pre ++ l ∧ Placed t a rt (hasFlag r.mFlags MMA_STACK) pre ∧
    rt.mFlags = r.mFlags ∧ rt.mMap = r.mMap ∧
    (hasFlag r.mFlags MMA_STACK = false → rt.mStart = r.mStart)

theorem Mapping.step (hnodup : pages.Nodup) (hfit : pages.length < ADDR_PAGES) {l : List Nat}
    {t : VmState} (h : Mapping s a r pages (pg :: l) t) :
    ∃ t', mapPageOf a (.page pg) t = .ok t' ∧ Mapping s a r pages l t' := by
  rcases h.done with ⟨pre, rt, hpages, hplaced, hflags, hmap, hstart⟩
  have hok : mapPageOf a (.page pg) t = .ok ((t.mapPage rt.mMap rt.nextAddr
      (pageToAddr t.zone pg) rt.mProt).rawMemAreaAddPage a rt pg) := by
    unfold mapPageOf
    rw [area_eq_ok.mpr hplaced.record]
    rfl
  refine ⟨_, hok, h.into.trans (mapPageOf_eq_ok hok), pre ++ [pg], rt.grown, ?_, ?_, ?_, ?_, ?_⟩
  · rw [hpages, List.append_assoc]
    rfl
  · have hnot : pg ∉ pre := by
      rw [hpages, List.nodup_append] at hnodup
      exact fun hmem => hnodup.2.2 pg hmem pg List.mem_cons_self rfl
    have hlen : pre.length + 1 < ADDR_PAGES := by
      rw [hpages, List.length_append, List.length_cons] at hfit
      omega
    rw [rawMemAreaAddPage_eq]
    rw [← hflags] at hplaced ⊢
    exact hplaced.add hnot hlen (update_self ..) rfl rfl rfl
  · rw [MemArea.grown_mFlags, hflags]
  · rw [MemArea.grown_mMap, hmap]
  · intro hstack
    rw [← hstart hstack]
    unfold MemArea.grown
    rw [hflags, hstack, if_neg Bool.false_ne_true]

theorem mmaMapPages_mapping (hplaced : Placed s a r (hasFlag r.mFlags MMA_STACK) [])
    (hclone : hasFlag r.mFlags MMA_CLONE = false)
    (hring : s.zone.areaList.IsRing (.head a) (pages.map AreaNode.page))
    (hfit : pages.length < ADDR_PAGES) {fuel : Nat} (hop : s.mmaMapPages fuel a = .ok s') :
    Mapping s a r pages [] s' := by
  rcases bind_eq_ok.mp hop with ⟨org, horg, hwalk⟩
  obtain rfl := mmaOriginal_self hplaced.record hclone horg
  refine walk_ring_inv (mapPageOf org) hring (Mapping s org r pages) (fun l t ht => ht.into.links)
    (fun pg l t ht => ht.step (nodup_of_ring hring) hfit) ?_ hwalk
  exact ⟨MapsInto.refl org s, [], r, rfl, hplaced, rfl, rfl, fun _ => rfl⟩

/-- What `mem_area_alloc_new` leaves when it answers with an area. -/
structure NewArea (list lo hi : Nat) (live : List Block) (s : VmState)
    (map start npages flags a : Nat) (r : MemArea) (live' : List Block) (xs : List Nat)
    (s' : VmState) : Prop where
  inv : AreaInv s' a r lo hi live' xs
  flagsEq : r.mFlags = flags
  mapEq : r.mMap = map
  startEq : hasFlag flags MMA_STACK = false → r.mStart = start
  lengthEq : xs.length = if hasFlag flags MMA_CONT then 2 ^ log2 npages else npages
  fresh : ∀ pg ∈ xs, ∀ b ∈ live, pg ∉ b
  areas : ∀ b, b ≠ a → s'.areas b = s.areas b
  base : s'.zone.base = s.zone.base
  rings : ∀ (d : Nat) (ys : List Nat), s.zone.areaList.IsRing (.head d) (ys.map AreaNode.page) →
    d ≠ list → d ≠ a → (∀ pg ∈ ys, ∃ b ∈ live, pg ∈ b) →
    s'.zone.areaList.IsRing (.head d) (ys.map AreaNode.page)

section New

variable {fuel list map start npages flags : Nat}

theorem memAreaAllocList_eq {t : VmState} {xs : List Nat} (map start flags : Nat)
    (hring : t.zone.areaList.IsRing (.head list) (xs.map AreaNode.page)) (hxs : xs ≠ [])
    (hla : list ≠ a) : (∀ fuel, t.memAreaAllocList fuel a map start flags list =
      ((t.memAreaAlloc a map start flags).setLinks
        (klist0Reparent (.head list) (.head a) t.zone.areaList)).mmaMapPages fuel a) ∧
      (klist0Reparent (.head list) (.head a) t.zone.areaList).IsRing (.head a)
        (xs.map AreaNode.page) := by
  have hmapne : xs.map AreaNode.page ≠ [] := fun hnil => hxs (List.map_eq_nil_iff.mp hnil)
  have hhead : AreaNode.head a ∉ AreaNode.head list :: xs.map AreaNode.page :=
    fun hmem => hla (head_mem_ring_iff.mp hmem).symm
  have hempty : klist0Empty (.head list) (t.memAreaAlloc a map start flags).zone.areaList ≠ true :=
    fun he => hmapne ((klist0Empty_iff hring).mp he)
  exact ⟨fun fuel => if_neg hempty, klist0Reparent_isRing hring hmapne hhead⟩

theorem Got.allocList {live' : List Block} {xs : List Nat} {t : VmState}
    (h : Got list lo hi live s xs live' t) (hxs : xs ≠ [])
    (hlen : xs.length = if hasFlag flags MMA_CONT then 2 ^ log2 npages else npages)
    (hlo : 1 ≤ lo) (hspace : hi * PAGE_SIZE ≤ WORD_RANGE) (hstart : start < WORD_RANGE)
    (hclone : hasFlag flags MMA_CLONE = false) (hla : list ≠ a)
    (hop : t.memAreaAllocList fuel a map start flags list = .ok s') :
    ∃ r, NewArea list lo hi live s map start npages flags a r live' xs s' := by
  have hfit := h.held.length_lt (nodup_of_ring h.ring) hlo hspace
  have hhead : AreaNode.head a ∉ AreaNode.head list :: xs.map AreaNode.page :=
    fun hmem => hla (head_mem_ring_iff.mp hmem).symm
  obtain ⟨hlist, hring⟩ := memAreaAllocList_eq map start flags h.ring hxs hla
  rw [hlist] at hop
  have hmapping := mmaMapPages_mapping
    (r := ⟨start, start, 0, 1, protOf flags, flags, 0, map⟩)
    ⟨update_self .., hstart, (pageSlot_zero hstart).symm, rfl, fun i pg hpg => nomatch hpg⟩
    hclone hring hfit hop
  rcases hmapping.done with ⟨pre, r, hpages, hplaced, hflags, hmap, hstart'⟩
  rw [List.append_nil] at hpages
  rw [← hpages] at hplaced
  refine ⟨r, ⟨?_, ?_, ?_⟩, hflags, hmap, hstart', hlen, h.fresh, ?_, ?_, ?_⟩
  · rw [← hflags] at hplaced
    exact hplaced
  · rw [hmapping.into.links]
    exact hring
  · have hbuddy : BuddyInv ((t.memAreaAlloc a map start flags).setLinks
        (klist0Reparent (.head list) (.head a) t.zone.areaList)).zone lo hi live' :=
      h.held.buddy.congr ⟨rfl, rfl, rfl, rfl⟩
    exact ⟨hbuddy.congr hmapping.into.zone, h.held.mem⟩
  · intro b hb
    rw [hmapping.into.other b hb]
    show Function.update t.areas a _ b = _
    rw [update_of_ne hb, h.areas]
  · rw [hmapping.into.zone.base]
    exact h.base
  · intro d ys hd hdl hda hys
    rw [hmapping.into.links]
    refine klist0Reparent_frame h.ring (h.rings d ys hd hdl hys) hhead
      (fun hmem => hda (head_mem_ring_iff.mp hmem).symm) ?_
    intro x hx hx'
    rcases List.mem_cons.mp hx with rfl | hpage
    · exact hdl (head_mem_ring_iff.mp hx').symm
    · rcases List.mem_map.mp hpage with ⟨q, hq, rfl⟩
      rcases hys q (page_mem_ring_iff.mp hx') with ⟨b, hb, hin⟩
      exact h.fresh q hq b hb hin

theorem memAreaAllocNew_eq_ok (hbuddy : BuddyInv s.zone lo hi live) (hlo : 1 ≤ lo)
    (hspace : hi * PAGE_SIZE ≤ WORD_RANGE) (hstart : start < WORD_RANGE) (hpos : 1 ≤ npages)
    (hclone : hasFlag flags MMA_CLONE = false) (hla : list ≠ a)
    (hop : s.memAreaAllocNew fuel list map start npages flags a = .ok (true, s')) :
    ∃ r live' xs, xs ≠ [] ∧ NewArea list lo hi live s map start npages flags a r live' xs s' := by
  unfold memAreaAllocNew at hop
  split at hop
  · cases hop
  · rcases bind_eq_ok.mp hop with ⟨⟨got, t⟩, hgot, hrest⟩
    have hinit := Got.init list hbuddy
    have hpages : got = true → ∃ xs live', Got list lo hi live s xs live' t ∧
        xs.length = if hasFlag flags MMA_CONT then 2 ^ log2 npages else npages := by
      intro htrue
      subst htrue
      unfold allocPagelist at hgot
      split at hgot
      · rename_i hcont
        have heq := Except.ok.inj hgot
        rcases hinit.contig (n := npages) (by rw [heq]) with ⟨xs, live', hg, hlen⟩
        rw [heq] at hg
        rw [if_pos hcont]
        exact ⟨xs, live', hg, hlen⟩
      · rename_i hcont
        rcases hinit.sparse npages hgot with ⟨xs, live', hg, hlen⟩
        rw [if_neg hcont]
        exact ⟨xs, live', hg, by rw [hlen, List.length_nil, Nat.zero_add]⟩
    dsimp only at hrest
    split at hrest
    · rename_i htrue
      rcases hpages htrue with ⟨xs, live', hg, hlen⟩
      rcases bind_eq_ok.mp hrest with ⟨t', hlist, hret⟩
      obtain rfl := (Prod.mk.inj (Except.ok.inj hret)).2
      have hxs : xs ≠ [] := by
        intro hnil
        rw [hnil, List.length_nil] at hlen
        split at hlen
        · exact absurd hlen (Nat.ne_of_lt (Nat.two_pow_pos _))
        · omega
      rcases hg.allocList hxs hlen hlo hspace hstart hclone hla hlist with ⟨r, hnew⟩
      exact ⟨r, live', xs, hxs, hnew⟩
    · exact nomatch (Prod.mk.inj (Except.ok.inj hrest)).1

theorem freePagelist_base {node : AreaNode} (hop : s.freePagelist fuel node = .ok s') :
    s'.zone.base = s.zone.base := by
  refine walk_invariant (fun t => t.zone.base = s.zone.base) ?_ rfl hop
  intro node t t' ht hbody
  obtain ⟨pg, -, hret⟩ := bind_eq_ok.mp hbody
  cases hret
  exact (freePages_samePages _ pg).1.trans ht

theorem allocPagelistSparse_base {got : Bool} : ∀ (n : Nat) {s s' : VmState},
    s.allocPagelistSparse fuel list n = .ok (got, s') → s'.zone.base = s.zone.base := by
  intro n
  induction n with
  | zero =>
    intro s s' hop
    rw [← (Prod.mk.inj (Except.ok.inj hop)).2]
  | succ n ih =>
    intro s s' hop
    rw [allocPagelistSparse] at hop
    have hbase := (rawAllocPages_sameRest s.zone 0).base
    cases hp : (rawAllocPages s.zone 0).2 with
    | none =>
      simp only [hp] at hop
      rcases bind_eq_ok.mp hop with ⟨t, hfree, hret⟩
      cases hret
      exact (freePagelist_base hfree).trans hbase
    | some pg =>
      simp only [hp] at hop
      exact (ih hop).trans hbase

theorem memAreaAllocList_base (hop : s.memAreaAllocList fuel a map start flags list = .ok s') :
    s'.zone.base = s.zone.base := by
  unfold memAreaAllocList at hop
  dsimp only at hop
  split at hop
  · cases hop
    rfl
  · obtain ⟨org, -, hwalk⟩ := bind_eq_ok.mp hop
    have hmaps := walk_invariant (MapsInto a _)
      (fun node t t' ht hop => ht.trans (mapPageOf_eq_ok hop)) (MapsInto.refl a _) hwalk
    exact hmaps.zone.base

theorem memAreaAllocNew_base {got : Bool} (hcont : hasFlag flags MMA_CONT = false)
    (hop : s.memAreaAllocNew fuel list map start npages flags a = .ok (got, s')) :
    s'.zone.base = s.zone.base := by
  unfold memAreaAllocNew at hop
  split at hop
  · cases hop
  · rcases bind_eq_ok.mp hop with ⟨⟨got', t⟩, hgot, hrest⟩
    unfold allocPagelist at hgot
    rw [if_neg (Bool.eq_false_iff.mp hcont)] at hgot
    have hgets := allocPagelistSparse_base npages hgot
    dsimp only at hrest
    split at hrest
    · rcases bind_eq_ok.mp hrest with ⟨t', hlist, hret⟩
      cases hret
      exact (memAreaAllocList_base hlist).trans hgets
    · cases hrest
      exact hgets

end New

/-! ## Growing -/

theorem memAreaAddPage_eq (hop : s.memAreaAddPage a pg = .ok s') : ∃ r, s.areas a = some r ∧
      s' = (s.setLinks (klist0Prepend (.page pg) (.head a) s.zone.areaList)).rawMemAreaAddPage
        a r pg := by
  unfold memAreaAddPage at hop
  split at hop
  · cases hop
  · rcases bind_eq_ok.mp hop with ⟨r, hr, hret⟩
    exact ⟨r, area_eq_ok.mp hr, (Except.ok.inj hret).symm⟩

theorem AreaInv.addPage (h : AreaInv s a r lo hi live pages) (hlo : 1 ≤ lo)
    (hspace : hi * PAGE_SIZE ≤ WORD_RANGE) {t : VmState} (hp : (rawAllocPages s.zone 0).2 = some pg)
    (hadd : memAreaAddPage a pg { s with zone := (rawAllocPages s.zone 0).1 } = .ok t) :
    t.areas a = some r.grown ∧
      AreaInv (t.mapPage r.grown.mMap (t.zone.virt pg) (pageToAddr t.zone pg) r.grown.mProt) a
        r.grown lo hi (⟨0, pg⟩ :: live) (pages ++ [pg]) := by
  rcases memAreaAddPage_eq hadd with ⟨r₀, hr₀, ht⟩
  obtain rfl : r₀ = r := Option.some.inj (hr₀.symm.trans h.placed.record)
  have hrest := rawAllocPages_sameRest s.zone 0
  rcases h.held.concat hp with ⟨hnot, hheld⟩
  have hring : (rawAllocPages s.zone 0).1.areaList.IsRing (.head a)
      (pages.map AreaNode.page) := by
    rw [hrest.areaList]
    exact h.ring
  have hring' := klist0Prepend_isRing hring (fun hm => hnot (page_mem_ring_iff.mp hm))
  have hmapeq : pages.map AreaNode.page ++ [AreaNode.page pg] =
      (pages ++ [pg]).map AreaNode.page := by
    rw [List.map_append, List.map_singleton]
  rw [hmapeq] at hring'
  have hfit : pages.length + 1 < ADDR_PAGES := by
    have hlen := hheld.length_lt
      (List.Nodup.of_map AreaNode.page (List.nodup_cons.mp hring'.1).2) hlo hspace
    rw [List.length_append] at hlen
    exact hlen
  rw [rawMemAreaAddPage_eq] at ht
  have harea : t.areas a = some r₀.grown := by
    rw [ht]
    exact update_self ..
  have hvirt : t.zone.virt = Function.update s.zone.virt pg r₀.nextAddr := by
    rw [ht]
    show Function.update (rawAllocPages s.zone 0).1.virt pg _ = _
    rw [hrest.virt]
  have hbase : t.zone.base = s.zone.base := by
    rw [ht]
    exact hrest.base
  refine ⟨harea, ?_, ?_, ?_⟩
  · rw [MemArea.grown_mFlags]
    refine h.placed.add hnot hfit harea hvirt hbase ?_
    have haddr : pageToAddr t.zone pg = pageToAddr s.zone pg := by
      unfold pageToAddr
      rw [hbase]
    have hnew : t.zone.virt pg = r₀.nextAddr := by
      rw [hvirt, update_self]
    have htable : t.pgtable = s.pgtable := by
      rw [ht]
      rfl
    unfold mapPage
    rw [MemArea.grown_mMap, MemArea.grown_mProt, haddr, hnew, htable]
  · rw [ht]
    exact hring'
  · refine ⟨?_, hheld.mem⟩
    rw [ht]
    exact hheld.buddy.congr ⟨rfl, rfl, rfl, rfl⟩

theorem growLoop_succ_eq_ok {n : Nat} (hop : s.growLoop a (n + 1) = .ok s') :
    ∃ pg t r, (rawAllocPages s.zone 0).2 = some pg ∧
      memAreaAddPage a pg { s with zone := (rawAllocPages s.zone 0).1 } = .ok t ∧
      t.areas a = some r ∧
      (t.mapPage r.mMap (t.zone.virt pg) (pageToAddr t.zone pg) r.mProt).growLoop a n =
        .ok s' := by
  rw [VmState.growLoop] at hop
  cases hp : (rawAllocPages s.zone 0).2 with
  | none =>
    simp only [hp] at hop
    cases hop
  | some pg =>
    simp only [hp] at hop
    obtain ⟨t, hadd, hrest⟩ := bind_eq_ok.mp hop
    obtain ⟨r, hr, hloop⟩ := bind_eq_ok.mp hrest
    exact ⟨pg, t, r, rfl, hadd, area_eq_ok.mp hr, hloop⟩

theorem AreaInv.growLoop (hlo : 1 ≤ lo) (hspace : hi * PAGE_SIZE ≤ WORD_RANGE) : ∀ (n : Nat)
    {s s' : VmState} {r : MemArea} {live : List Block} {pages : List Nat},
    AreaInv s a r lo hi live pages → s.growLoop a n = .ok s' →
    ∃ r' live' pages', AreaInv s' a r' lo hi live' pages' ∧ r'.mFlags = r.mFlags ∧
      pages.length ≤ pages'.length := by
  intro n
  induction n with
  | zero =>
    intro s s' r live pages h hop
    exact ⟨r, live, pages, Except.ok.inj hop ▸ h, rfl, Nat.le_refl _⟩
  | succ n ih =>
    intro s s' r live pages h hop
    obtain ⟨pg, t, rt, hp, hadd, hrt, hloop⟩ := growLoop_succ_eq_ok hop
    rcases h.addPage hlo hspace hp hadd with ⟨harea, hnext⟩
    obtain rfl : rt = r.grown := Option.some.inj (hrt.symm.trans harea)
    rcases ih hnext hloop with ⟨r', live', pages', hinv, hflags, hlen⟩
    refine ⟨r', live', pages', hinv, hflags.trans r.grown_mFlags, ?_⟩
    rw [List.length_append] at hlen
    omega

theorem AreaInv.grow (h : AreaInv s a r lo hi live pages) (hlo : 1 ≤ lo)
    (hspace : hi * PAGE_SIZE ≤ WORD_RANGE) {n : Nat} (hop : s.memAreaGrow a n = .ok s') :
    ∃ r' live' pages', AreaInv s' a r' lo hi live' pages' ∧ r'.mFlags = r.mFlags ∧
      pages.length ≤ pages'.length := by
  rcases bind_eq_ok.mp hop with ⟨r₀, hr₀, hrest⟩
  split at hrest
  · exact h.growLoop hlo hspace n hrest
  · exact ⟨r, live, pages, Except.ok.inj hrest ▸ h, rfl, Nat.le_refl _⟩

end Area

def emptyVm : VmState := ⟨memZoneInit (rawZone 12), fun _ => none, fun _ _ => none⟩

theorem emptyVm_buddy : BuddyInv emptyVm.zone 1 12 [] := memZoneInit_inv (rawZone 12)

end VmState

end Koowaldah
