import Koowaldah.PageAlloc.Runs

/-!
# Memory areas

A model of `include/mem_area.h` and `kernel/mem_area.c`, with `map_page` and
`unmap_page` of `arch/i386/paging.c` and `free_pagelist` of
`kernel/page_alloc.c`.

A `struct mem_area` is named by the slice of `mma_pool` that holds it;
`areas a = none` says that no area is there, so that it was never handed out
or has been returned with `slice_free`.  The `m_plist` of an area is the node
`.head a` of the `area_list` links of the zone.  It shares its place with
`m_original`, which is read only when `MMA_CLONE` is set.

The page table of a mapping is a function on virtual page numbers, so a
directory entry and the table behind it are one step.

A walk along a list has a bound on its rounds.  A run that needs more of them
than there are ends with `VmFault.endless`; every result below says for which
bounds it holds, or that it holds for each of them.
-/

namespace Koowaldah

open Function SysLib SysLib.Dyadic

/-! ## Flags -/

def MMA_RW : Nat := 0x01

def MMA_GROWS : Nat := 0x02

def MMA_STACK : Nat := 0x04

def MMA_EXEC : Nat := 0x08

def MMA_CONT : Nat := 0x10

def MMA_CLONE : Nat := 0x20

def VmState.PTF_RW : Nat := 0x02

def VmState.PTF_EXEC : Nat := 0

/-- One of the bits of `mask` is set. -/
def hasFlag (flags mask : Nat) : Bool := flags &&& mask ≠ 0

/-! ## State -/

/-- `struct mem_area`, without `m_plist` and without `m_sizelim`, which no
function below reads. -/
structure MemArea where
  mStart : Nat
  mEnd : Nat
  mPages : Nat
  mUsers : Nat
  mProt : Nat
  mFlags : Nat
  mOriginal : Nat
  mMap : Nat
deriving DecidableEq, Repr

structure Pte where
  phys : Nat
  flags : Nat
deriving DecidableEq, Repr

/-- The user zone, the areas and the page tables. -/
structure VmState where
  zone : Zone
  areas : Nat → Option MemArea
  pgtable : Nat → Nat → Option Pte

/-- Why an operation does not come back. -/
inductive VmFault where
  /-- `bug ()` or a `bug_on` that fires. -/
  | bug
  /-- A structure is read that is not there. -/
  | freed
  /-- The walk is not over after the rounds it was given. -/
  | endless
deriving DecidableEq, Repr

namespace VmState

def setArea (a : Nat) (r : MemArea) (s : VmState) : VmState :=
  { s with areas := Function.update s.areas a (some r) }

def area (a : Nat) (s : VmState) : Except VmFault MemArea :=
  match s.areas a with
  | none => .error .freed
  | some r => .ok r

/-- `slice_free` of an area. -/
def sliceFree (a : Nat) (s : VmState) : VmState :=
  { s with areas := Function.update s.areas a none }

/-! ## Page tables -/

/-- `map_page`.  The directory entry is made present as well. -/
def mapPage (map virt phys flags : Nat) (s : VmState) : VmState :=
  { s with
    pgtable := Function.update s.pgtable map
      (Function.update (s.pgtable map) (virt / PAGE_SIZE) (some ⟨phys, flags⟩)) }

def unmapPage (map virt : Nat) (s : VmState) : VmState :=
  { s with
    pgtable := Function.update s.pgtable map
      (Function.update (s.pgtable map) (virt / PAGE_SIZE) none) }

/-! ## Pages of an area -/

def setVirt (pg virt : Nat) (s : VmState) : VmState :=
  { s with zone := { s.zone with virt := Function.update s.zone.virt pg virt } }

def setLinks (h : Links AreaNode) (s : VmState) : VmState :=
  { s with zone := { s.zone with areaList := h } }

/-- `__mem_area_add_page`. -/
def rawMemAreaAddPage (a : Nat) (r : MemArea) (pg : Nat) (s : VmState) : VmState :=
  if hasFlag r.mFlags MMA_STACK then
    let start := subWord r.mStart PAGE_SIZE
    (s.setVirt pg start).setArea a { r with mStart := start, mPages := addWord r.mPages 1 }
  else
    (s.setVirt pg r.mEnd).setArea a
      { r with mEnd := addWord r.mEnd PAGE_SIZE, mPages := addWord r.mPages 1 }

/-- `__mem_area_remove_page`. -/
def rawMemAreaRemovePage (a : Nat) (r : MemArea) (pg : Nat) (s : VmState) : VmState :=
  (s.setVirt pg NOPAGE_ADDR).setArea a
    { r with mPages := subWord r.mPages 1, mEnd := subWord r.mEnd PAGE_SIZE }

def memAreaAddPage (a pg : Nat) (s : VmState) : Except VmFault VmState :=
  if klist0Empty (.page pg) s.zone.areaList = false then .error .bug
  else do
    let s := s.setLinks (klist0Prepend (.page pg) (.head a) s.zone.areaList)
    let r ← s.area a
    return s.rawMemAreaAddPage a r pg

def memAreaRemovePage (a pg : Nat) (s : VmState) : Except VmFault VmState :=
  if klist0Empty (.page pg) s.zone.areaList then .error .bug
  else do
    let s := s.setLinks (klist0Unlink (.page pg) s.zone.areaList)
    let r ← s.area a
    return s.rawMemAreaRemovePage a r pg

/-! ## Areas -/

/-- `m_prot` for the flags of an area. -/
def protOf (flags : Nat) : Nat :=
  let prot := if hasFlag flags MMA_RW then PTF_RW else 0
  if hasFlag flags MMA_EXEC then prot ||| PTF_EXEC else prot

/-- `mem_area_alloc` on the slice `a`, with no pages.  It returns before
`m_plist` is written, so the list head stays what the slice held. -/
def memAreaAlloc (a map start flags : Nat) (s : VmState) : VmState :=
  s.setArea a
    { mStart := start, mEnd := start, mPages := 0, mUsers := 1, mProt := protOf flags,
      mFlags := flags, mOriginal := 0, mMap := map }

/-- `mma_original`: follow `m_original` while `MMA_CLONE` is set. -/
def mmaOriginal (s : VmState) : Nat → Nat → Except VmFault Nat
  | 0, _ => .error .endless
  | n + 1, a =>
    match s.areas a with
    | none => .error .freed
    | some r => if hasFlag r.mFlags MMA_CLONE then s.mmaOriginal n r.mOriginal else .ok a

/-- A walk along the page lists from a node up to `stop`.  `body` is told the
node, and the next one is read after it. -/
def walk (stop : AreaNode) (body : AreaNode → VmState → Except VmFault VmState) :
    Nat → AreaNode → VmState → Except VmFault VmState
  | 0, _, _ => .error .endless
  | n + 1, node, s =>
    if node = stop then .ok s
    else do
      let s ← body node s
      walk stop body n (s.zone.areaList.next node) s

/-- The page of a node; a list head is none. -/
def pageOf : AreaNode → Except VmFault Nat
  | .page pg => .ok pg
  | .head _ => .error .freed

/-- The loop body of `mma_map_pages`, with `add` set. -/
def mapPageOf (a : Nat) (node : AreaNode) (s : VmState) : Except VmFault VmState := do
  let pg ← pageOf node
  let r ← s.area a
  let virt := if hasFlag r.mFlags MMA_STACK then subWord r.mStart PAGE_SIZE else r.mEnd
  return (s.mapPage r.mMap virt (pageToAddr s.zone pg) r.mProt).rawMemAreaAddPage a r pg

/-- `mma_map_pages`, with `add` set. -/
def mmaMapPages (fuel a : Nat) (s : VmState) : Except VmFault VmState := do
  let org ← s.mmaOriginal fuel a
  walk (.head org) (mapPageOf a) fuel (s.zone.areaList.next (.head org)) s

/-- `mem_area_clone` into the slice `c`.  The area that is cloned gets a user
more, whether or not it is itself a clone. -/
def memAreaClone (fuel map a c : Nat) (s : VmState) : Except VmFault VmState := do
  let r ← s.area a
  if hasFlag r.mFlags (MMA_STACK ||| MMA_GROWS) then .error .bug
  else
    let s := s.memAreaAlloc c map r.mStart r.mFlags
    let s := s.setArea a { r with mUsers := addWord r.mUsers 1 }
    let s := s.setArea c
      { mStart := r.mStart, mEnd := r.mStart, mPages := r.mPages, mUsers := 1, mProt := r.mProt,
        mFlags := r.mFlags ||| MMA_CLONE, mOriginal := a, mMap := map }
    s.mmaMapPages fuel c

/-- The `virt` that `klist0_entry` finds at a node.  Twelve bytes before the
`m_plist` of an area lies its `m_users`. -/
def virtAt (node : AreaNode) (s : VmState) : Except VmFault Nat :=
  match node with
  | .page pg => .ok (s.zone.virt pg)
  | .head a => (s.area a).map MemArea.mUsers

/-- The loop body of `mem_area_unmap`. -/
def unmapPageOf (map : Nat) (node : AreaNode) (s : VmState) : Except VmFault VmState := do
  let virt ← s.virtAt node
  return s.unmapPage map virt

/-- `mem_area_unmap`.  The walk is along the list of the original, and it ends
at the list head of the area itself. -/
def memAreaUnmap (fuel a : Nat) (s : VmState) : Except VmFault VmState := do
  let org ← s.mmaOriginal fuel a
  let r ← s.area a
  let s ← walk (.head a) (unmapPageOf r.mMap) fuel (s.zone.areaList.next (.head org)) s
  return s.sliceFree a

/-- The loop body of `free_pagelist`.  `free_pages` may unlink the node that the
walk stands on. -/
def freePageOf (node : AreaNode) (s : VmState) : Except VmFault VmState := do
  let pg ← pageOf node
  return { s with zone := freePages s.zone pg }

def freePagelist (fuel : Nat) (list : AreaNode) (s : VmState) : Except VmFault VmState :=
  walk list freePageOf fuel (s.zone.areaList.next list) s

/-- The loop body of `mem_area_kill`. -/
def killPageOf (map : Nat) (node : AreaNode) (s : VmState) : Except VmFault VmState := do
  let pg ← pageOf node
  return (s.unmapPage map (s.zone.virt pg)).setVirt pg NOPAGE_ADDR

/-- The loop of `mem_area_kill`. -/
def killLoop (fuel a map : Nat) (s : VmState) : Except VmFault VmState :=
  walk (.head a) (killPageOf map) fuel (s.zone.areaList.next (.head a)) s

def memAreaKill (fuel a : Nat) (s : VmState) : Except VmFault VmState := do
  let r ← s.area a
  if hasFlag r.mFlags MMA_CLONE then .error .bug
  else if klist0Empty (.head a) s.zone.areaList then return s.sliceFree a
  else
    let s ← s.killLoop fuel a r.mMap
    if hasFlag r.mFlags MMA_CONT then
      let pg ← pageOf (s.zone.areaList.next (.head a))
      return ({ s with zone := freePages s.zone pg } : VmState).sliceFree a
    else
      let s ← s.freePagelist fuel (.head a)
      return s.sliceFree a

def memAreaPut (fuel a : Nat) (s : VmState) : Except VmFault VmState := do
  let org ← s.mmaOriginal fuel a
  let r ← s.area org
  let users := subWord r.mUsers 1
  let s := s.setArea org { r with mUsers := users }
  if users = 0 then s.memAreaKill fuel a else s.memAreaUnmap fuel a

/-! ## Adding and removing a page -/

variable {s s' : VmState} {a pg : Nat}

theorem area_eq_ok {r : MemArea} : s.area a = .ok r ↔ s.areas a = some r := by
  unfold area
  cases s.areas a with
  | none => exact iff_of_false nofun nofun
  | some r' => rw [Except.ok.injEq, Option.some.injEq]

theorem memAreaAddPage_eq_ok (hop : s.memAreaAddPage a pg = .ok s') :
    ∃ r, s.areas a = some r ∧ s.zone.SameLevels s'.zone ∧ s'.pgtable = s.pgtable ∧
      (∀ b, b ≠ a → s'.areas b = s.areas b) ∧
      (hasFlag r.mFlags MMA_STACK = false → s'.zone.virt pg = r.mEnd ∧
        s'.areas a = some
          { r with mEnd := addWord r.mEnd PAGE_SIZE, mPages := addWord r.mPages 1 }) := by
  unfold memAreaAddPage at hop
  split at hop
  · cases hop
  · dsimp only [bind, Except.bind] at hop
    split at hop
    · cases hop
    · rename_i r hr
      refine ⟨r, area_eq_ok.mp hr, ?_⟩
      cases hop
      unfold rawMemAreaAddPage
      split
      · rename_i hstack
        exact ⟨⟨rfl, rfl, rfl, rfl⟩, rfl, fun b hb => update_of_ne hb _ _,
          fun h => Bool.noConfusion (hstack.symm.trans h)⟩
      · exact ⟨⟨rfl, rfl, rfl, rfl⟩, rfl, fun b hb => update_of_ne hb _ _,
          fun _ => ⟨update_self .., update_self ..⟩⟩

theorem memAreaRemovePage_eq_ok (hop : s.memAreaRemovePage a pg = .ok s') :
    ∃ r, s.areas a = some r ∧ s.zone.SameLevels s'.zone ∧ s'.pgtable = s.pgtable ∧
      s'.areas = Function.update s.areas a (some
        { r with mPages := subWord r.mPages 1, mEnd := subWord r.mEnd PAGE_SIZE }) := by
  unfold memAreaRemovePage at hop
  split at hop
  · cases hop
  · dsimp only [bind, Except.bind] at hop
    split at hop
    · cases hop
    · rename_i r hr
      refine ⟨r, area_eq_ok.mp hr, ?_⟩
      cases hop
      exact ⟨⟨rfl, rfl, rfl, rfl⟩, rfl, rfl⟩

end VmState

end Koowaldah
