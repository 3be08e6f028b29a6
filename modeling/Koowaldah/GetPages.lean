import Koowaldah.Galloc

/-!
# Pages by their address

`get_pages` is `page_to_addr (alloc_pages (flags, order))`.  `alloc_pages` answers `NULL` when
there is no pile, and `page_to_addr` does not look: it reads `page->zone`, `zone->base` and
`page->index` through whatever it is given.

* `pagesIn` counts the pages on the levels of a zone.  An allocation takes its pages off
  the count (`rawAllocPages_pagesIn`), and one of a single page fails only at zero
  (`rawAllocPages_eq_none_iff`).
* `nullAddr` is what `page_to_addr (NULL)` makes of the words at address 0 and up.  Nothing in
  the kernel sets these words; the page they are in is mapped like any other.
* `getPages`, `getPage` and `getPagesToFit` are the three functions that return an address, and
  `GotPages.branch` is what the callers do with it.  `pageRequest_exhausted` says what they
  return when there is no pile: whatever `nullAddr` is.
-/

namespace Koowaldah

open SysLib

/-! ## The pages that are left -/

def pagesIn (z : Zone) : Nat := ∑ k ∈ Finset.range MAX_ORDER, (z.allocLevels k).length * 2 ^ k

theorem pagesIn_setOrder (z : Zone) (pg k : Nat) : pagesIn (z.setOrder pg k) = pagesIn z := rfl

theorem pagesIn_setLevel (z : Zone) {k : Nat} (hk : k < MAX_ORDER) (l : List Nat) :
    pagesIn (z.setLevel k l) + (z.allocLevels k).length * 2 ^ k = pagesIn z + l.length * 2 ^ k := by
  have hmem : k ∈ Finset.range MAX_ORDER := Finset.mem_range.mpr hk
  unfold pagesIn
  rw [← Finset.add_sum_erase _ _ hmem,
    ← Finset.add_sum_erase _ (fun j => (z.allocLevels j).length * 2 ^ j) hmem]
  have hrest : ∑ j ∈ (Finset.range MAX_ORDER).erase k,
      ((z.setLevel k l).allocLevels j).length * 2 ^ j =
      ∑ j ∈ (Finset.range MAX_ORDER).erase k, (z.allocLevels j).length * 2 ^ j := by
    refine Finset.sum_congr rfl (fun j hj => ?_)
    rw [Zone.setLevel_allocLevels, if_neg (Finset.ne_of_mem_erase hj)]
  rw [Zone.setLevel_allocLevels, if_pos rfl]
  omega

theorem splitPile_pagesIn (order : Nat) : ∀ (i pile : Nat) (z : Zone), order ≤ i →
    i < MAX_ORDER → pagesIn (splitPile order i pile z).1 + 2 ^ order = pagesIn z + 2 ^ i
  | 0, pile, z, hle, _ => by
    obtain rfl : order = 0 := by omega
    rfl
  | i + 1, pile, z, hle, hlt => by
    rw [splitPile]
    split
    · have hput := pagesIn_setLevel (z.setOrder pile i) (show i < MAX_ORDER by omega)
        (pile :: z.allocLevels i)
      rw [pagesIn_setOrder, Zone.setOrder_allocLevels, List.length_cons, Nat.add_mul] at hput
      have hrest := splitPile_pagesIn order i (pile + 2 ^ i)
        ((z.setOrder pile i).setLevel i (pile :: z.allocLevels i)) (by omega) (by omega)
      show pagesIn (splitPile order i (pile + 2 ^ i)
        ((z.setOrder pile i).setLevel i (pile :: z.allocLevels i))).1 + 2 ^ order = _
      rw [hrest, Nat.pow_succ]
      omega
    · obtain rfl : order = i + 1 := by omega
      rfl

theorem rawAllocPages_pagesIn {z : Zone} {order pg : Nat}
    (hpg : (rawAllocPages z order).2 = some pg) :
    pagesIn (rawAllocPages z order).1 + 2 ^ order = pagesIn z := by
  rw [rawAllocPages] at hpg ⊢
  cases hfind : findLevel z (MAX_ORDER - order) order with
  | none => simp [hfind] at hpg
  | some i =>
    obtain ⟨hle, hlt, hne, -⟩ := findLevel_some hfind
    obtain ⟨pile, rest, hlevel⟩ := List.exists_cons_of_ne_nil hne
    simp only [hlevel]
    have htake := pagesIn_setLevel z (show i < MAX_ORDER by omega) rest
    rw [hlevel, List.length_cons, Nat.add_mul] at htake
    have hsplit := splitPile_pagesIn order i pile (z.setLevel i rest) hle (by omega)
    rw [pagesIn_setOrder]
    omega

theorem rawAllocPages_eq_none_iff {z : Zone} : (rawAllocPages z 0).2 = none ↔ pagesIn z = 0 := by
  constructor
  · intro hnone
    refine Finset.sum_eq_zero (fun k hk => ?_)
    rw [(rawAllocPages_none hnone).2 k (Nat.zero_le k) (Finset.mem_range.mp hk), List.length_nil,
      Nat.zero_mul]
  · intro hzero
    by_contra hne
    obtain ⟨pg, hpg⟩ := Option.ne_none_iff_exists'.mp hne
    have hcount := rawAllocPages_pagesIn hpg
    omega

/-! ## `page_to_addr` and `get_pages` -/

/-- What `page_to_addr (NULL)` comes to.  `read` is the word at an address, or `none` where a
read is a page fault; `zone` is at offset 28 of a `struct page` and `base` and `index` at
offset 0. -/
def nullAddr (read : Nat → Option Nat) : Option Nat := do
  let zone ← read 28
  let base ← read zone
  let index ← read 0
  return addWord base (index * PAGE_SIZE)

/-- `page_to_addr` on a page of the zone or on `NULL`. -/
def pageToAddrOf (read : Nat → Option Nat) (z : Zone) : Option Nat → Option Nat
  | some pg => some (pageToAddr z pg)
  | none => nullAddr read

/-- A call of `get_pages`: the page that it hands to `page_to_addr`, the address that it
returns, if it returns, and the zone. -/
structure GotPages where
  page : Option Nat
  addr : Option Nat
  zone : Zone

/-- `get_pages`.  `z` is the zone that the flags select. -/
def getPages (read : Nat → Option Nat) (z : Zone) (order : Nat) : GotPages :=
  let (z, page) := rawAllocPages z order
  ⟨page, pageToAddrOf read z page, z⟩

def getPage (read : Nat → Option Nat) (z : Zone) : GotPages := getPages read z 0

def getPagesToFit (read : Nat → Option Nat) (z : Zone) (size : Nat) : GotPages :=
  getPages read z (log2 (inpages size))

/-- What a caller that tests the address does: `slice_pool_create`, `thread_create`,
`kqueue_push`, `galloc_from_pages` and `msg_send` return an error for `NULL` and take anything
else for a page. -/
inductive Branch where
  | error
  | goesOn (addr : Nat)
  | fault
deriving DecidableEq, Repr

def GotPages.branch (got : GotPages) : Branch :=
  match got.addr with
  | none => .fault
  | some addr => if addr = 0 then .error else .goesOn addr

theorem GotPages.branch_eq_error {got : GotPages} : got.branch = .error ↔ got.addr = some 0 := by
  unfold GotPages.branch
  split
  · rename_i hnone
    simp [hnone]
  · rename_i addr hsome
    by_cases hzero : addr = 0
    · simp [hsome]
    · simp [hsome]

inductive PageRequest where
  | getPages (order : Nat)
  | getPage
  | getPagesToFit (size : Nat)
deriving DecidableEq, Repr

namespace PageRequest

/-- The order that `__alloc_pages` is asked for. -/
def order : PageRequest → Nat
  | getPages order => order
  | getPage => 0
  | getPagesToFit size => log2 (inpages size)

def call (read : Nat → Option Nat) (z : Zone) : PageRequest → GotPages
  | getPages order => Koowaldah.getPages read z order
  | getPage => Koowaldah.getPage read z
  | getPagesToFit size => Koowaldah.getPagesToFit read z size

theorem call_eq (read : Nat → Option Nat) (z : Zone) (req : PageRequest) :
    req.call read z = Koowaldah.getPages read z req.order := by
  cases req <;> rfl

end PageRequest

/-- Running out of memory surfaces as `NULL`: `page_to_addr` is not called for `NULL`, the call
returns `NULL` and leaves the zone alone, and the caller returns an error. -/
structure GotPages.SurfacesAsNull (z : Zone) (got : GotPages) : Prop where
  page : got.page ≠ none
  addr : got.addr = some 0
  zone : got.zone = z
  branch : got.branch = .error

/-- Running out of memory never surfaces as it should.  When there is no pile, every one of the
three functions calls `page_to_addr` for `NULL`; the zone is left alone, and what is returned,
and so the branch that the caller takes, is what the words at the bottom of memory make of
it. -/
theorem pageRequest_exhausted (read : Nat → Option Nat) {z : Zone} {req : PageRequest}
    (hnone : (rawAllocPages z req.order).2 = none) : ¬(req.call read z).SurfacesAsNull z ∧
      req.call read z = ⟨none, nullAddr read, z⟩ ∧
      ((req.call read z).branch = .error ↔ nullAddr read = some 0) := by
  have hcall : req.call read z = ⟨none, nullAddr read, z⟩ := by
    rw [req.call_eq]
    unfold getPages
    rw [show rawAllocPages z req.order = (z, none) from
      Prod.ext (rawAllocPages_none hnone).1 hnone]
    rfl
  rw [hcall]
  exact ⟨fun h => h.page rfl, rfl, GotPages.branch_eq_error⟩

theorem getPage_exhausted_one : (rawAllocPages (memZoneInit (rawZone 1)) 0).2 = none ∧
      ¬(PageRequest.getPage.call (fun _ => none) (memZoneInit (rawZone 1))).SurfacesAsNull
        (memZoneInit (rawZone 1)) := by
  have hnone : (rawAllocPages (memZoneInit (rawZone 1)) PageRequest.getPage.order).2 = none := by
    decide
  exact ⟨hnone, (pageRequest_exhausted (fun _ => none) hnone).1⟩

/-- A zone without a page, the words 1 at address 0 and 256 at 28, and 0x8000 at 256:
`get_page` returns 0x9000, and the caller takes it for a page. -/
theorem getPage_stray :
    let read : Nat → Option Nat :=
      fun a => if a = 0 then some 1 else if a = 28 then some 256 else
        if a = 256 then some 0x8000 else none
    (getPage read (memZoneInit (rawZone 1))).page = none ∧
      (getPage read (memZoneInit (rawZone 1))).addr = some 0x9000 ∧
      (getPage read (memZoneInit (rawZone 1))).branch = .goesOn 0x9000 := by
  decide

end Koowaldah
