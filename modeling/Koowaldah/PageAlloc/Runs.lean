import Koowaldah.Lib.Run
import Koowaldah.PageAlloc.Spec

/-!
# Runs of the page allocator

`AllocState` is a zone with the piles it has handed out and not got back.
A run is a list of calls of `__alloc_pages` and `free_pages` in which every
page freed opens a pile that is still out.  `allocRun_buddy` carries
`BuddyInv` over every run, and the three results of this module read it:

* `allocRun_partition`: the piles on the levels and the piles handed out are
  a partition of the managed pages;
* `allocRun_canonical`: the levels are a function of the set of free pages,
  because they are the coalesced tiling of it (`Dyadic.Tiling.unique`);
* `allocRun_complete`: an allocation fails only when no aligned run of free
  pages is long enough, because such a run lies in one pile
  (`Dyadic.Tiling.exists_tile`).
-/

namespace Koowaldah

open SysLib SysLib.Dyadic

variable {lo hi : Nat} {s : AllocState} {z : Zone} {live : List Block}

structure AllocState where
  zone : Zone
  live : List Block

inductive AllocCall where
  | alloc (order : Nat)
  | free (pg : Nat)
deriving DecidableEq, Repr

/-- One call.  `free_pages` may be called with the opening page of a pile that
is out. -/
def AllocState.call (s : AllocState) : AllocCall → Option AllocState
  | .alloc order =>
    let (z, pile) := rawAllocPages s.zone order
    match pile with
    | none => some ⟨z, s.live⟩
    | some pg => some ⟨z, ⟨order, pg⟩ :: s.live⟩
  | .free pg =>
    match s.live.find? (fun b => b.start = pg) with
    | none => none
    | some b => some ⟨freePages s.zone pg, s.live.erase b⟩

theorem AllocState.call_buddy {s' : AllocState} {c : AllocCall} (h : BuddyInv s.zone lo hi s.live)
    (hc : s.call c = some s') : BuddyInv s'.zone lo hi s'.live := by
  cases c with
  | alloc order =>
    cases hres : (rawAllocPages s.zone order).2 with
    | none =>
      obtain rfl : (⟨(rawAllocPages s.zone order).1, s.live⟩ : AllocState) = s' := by
        simpa [AllocState.call, hres] using hc
      rw [(rawAllocPages_none hres).1]
      exact h
    | some pg =>
      obtain rfl : (⟨(rawAllocPages s.zone order).1, ⟨order, pg⟩ :: s.live⟩ : AllocState) = s' := by
        simpa [AllocState.call, hres] using hc
      exact rawAllocPages_buddy h hres
  | free pg =>
    rw [AllocState.call] at hc
    cases hfind : s.live.find? (fun b => b.start = pg) with
    | none => simp [hfind] at hc
    | some b =>
      obtain rfl : (⟨freePages s.zone pg, s.live.erase b⟩ : AllocState) = s' := by
        simpa [hfind] using hc
      have hmem : b ∈ s.live := List.mem_of_find?_eq_some hfind
      obtain rfl : b.start = pg := by simpa using List.find?_some hfind
      exact h.free hmem

theorem AllocState.run_buddy {s' : AllocState} {calls : List AllocCall}
    (h : BuddyInv s.zone lo hi s.live) (hrun : run AllocState.call s calls = some s') :
    BuddyInv s'.zone lo hi s'.live :=
  run_invariant (fun s => BuddyInv s.zone lo hi s.live)
    (fun _ _ _ hs hc => AllocState.call_buddy hs hc) h hrun

theorem allocRun_buddy (hz : consumedPages z.totalPages < z.totalPages) {calls : List AllocCall}
    (hrun : run AllocState.call ⟨memZoneInit z, []⟩ calls = some s) :
    BuddyInv s.zone (consumedPages z.totalPages) z.totalPages s.live :=
  AllocState.run_buddy (s := ⟨memZoneInit z, []⟩) (memZoneInit_buddy z hz) hrun

/-! ## The partition -/

/-- A zone of `n` pages before `mem_zone_init`, for runs on a fixed input. -/
def rawZone (n : Nat) : Zone where
  base := 0
  totalPages := n
  freePages := 0
  allocLevels := fun _ => []
  order := fun _ => 0
  virt := fun _ => 0
  areaList := ⟨id, id⟩

/-- In every state that calls reach from `mem_zone_init`, the piles on the
levels and the piles handed out cut the managed pages into blocks: none
overlaps another and none is missing.  Every pile is aligned to its length
and its opening page stores its order.  A pile handed out holds no page of
the `struct page` array, and the next one handed out meets none that is
out. -/
theorem allocRun_partition (z : Zone) (hz : consumedPages z.totalPages < z.totalPages)
    (calls : List AllocCall) (s : AllocState)
    (hrun : run AllocState.call ⟨memZoneInit z, []⟩ calls = some s) :
    (freePiles s.zone ++ s.live).Pairwise Block.Disjoint ∧
      (∀ x, (∃ b ∈ freePiles s.zone ++ s.live, x ∈ b) ↔
        consumedPages z.totalPages ≤ x ∧ x < z.totalPages) ∧
      (∀ k p, p ∈ s.zone.allocLevels k →
        k < MAX_ORDER ∧ 2 ^ k ∣ p ∧ s.zone.order p = k) ∧
      (∀ b ∈ s.live, b.order < MAX_ORDER ∧ b.Aligned ∧ s.zone.order b.start = b.order) ∧
      (∀ b ∈ s.live, ∀ x ∈ b, SIZEOF_PAGE * z.totalPages ≤ x * PAGE_SIZE) ∧
      (∀ order pg, (rawAllocPages s.zone order).2 = some pg →
        ∀ b ∈ s.live, Block.Disjoint ⟨order, pg⟩ b) := by
  have h := allocRun_buddy hz hrun
  have hcovers : ∀ x, (∃ b ∈ freePiles s.zone ++ s.live, x ∈ b) ↔
      consumedPages z.totalPages ≤ x ∧ x < z.totalPages := by
    intro x
    rw [← cover_pos_iff, cover_append, h.piles.covers]
    split_ifs with hin <;> simp [hin]
  refine ⟨pairwise_of_cover_le_one h.piles.cover_le_one, hcovers, h.piles.level, ?_, ?_, ?_⟩
  · intro b hb
    obtain ⟨hlt, hal⟩ := h.piles.held b hb
    exact ⟨hlt, hal, h.stored b hb⟩
  · intro b hb x hx
    have hge := ((hcovers x).mp ⟨b, by simp [hb], hx⟩).1
    exact Nat.le_trans (pageArray_le_consumedPages z.totalPages)
      (Nat.mul_le_mul_right PAGE_SIZE hge)
  · intro order pg hsome b hb
    have hnext := (rawAllocPages_buddy h hsome).piles
    have hpw := pairwise_of_cover_le_one hnext.cover_le_one
    exact (List.pairwise_cons.mp (List.pairwise_append.mp hpw).2.1).1 b hb

theorem allocRun_partition_six :
    let s := (run AllocState.call ⟨memZoneInit (rawZone 6), []⟩
      [.alloc 0, .alloc 1, .free 1]).get (by decide)
    (freePiles s.zone ++ s.live).Pairwise Block.Disjoint ∧ s.live = [⟨1, 2⟩] :=
  ⟨(allocRun_partition (rawZone 6) (by decide) _ _ (Option.some_get _).symm).1, by decide⟩

/-! ## The canonical layout -/

def freePageSet (z : Zone) : Set Nat := {x | ∃ b ∈ freePiles z, x ∈ b}

theorem BuddyInv.mem_freePageSet_iff (h : BuddyInv z lo hi live) {p : Nat} :
    p ∈ freePageSet z ↔ (lo ≤ p ∧ p < hi) ∧ ∀ b ∈ live, p ∉ b := by
  have hfree : p ∈ freePageSet z ↔ 0 < cover (freePiles z) p := cover_pos_iff.symm
  have hlive : (∀ b ∈ live, p ∉ b) ↔ ¬ 0 < cover live p := by
    rw [cover_pos_iff]
    simp only [not_exists, not_and]
  have hcover := h.piles.covers p
  rw [hfree, hlive]
  split_ifs at hcover with hin
  · omega
  · omega

def FreeByte (z : Zone) (x : Nat) : Prop :=
  ∃ p ∈ freePageSet z, pageToAddr z p ≤ x ∧ x < pageToAddr z p + PAGE_SIZE

theorem BuddyInv.tiling (h : BuddyInv z lo hi live) :
    Tiling MAX_ORDER {b | b ∈ freePiles z} (freePageSet z) where
  order_lt b hb := (mem_freePiles.mp hb).1
  aligned b hb := (h.piles.level _ _ (mem_freePiles.mp hb).2).2.1
  eq_of_mem := by
    intro a ha b hb x hxa hxb
    have hpw := (List.pairwise_append.mp
      (pairwise_of_cover_le_one h.piles.cover_le_one)).1
    by_contra hne
    exact hpw.forall ha hb hne x hxa hxb
  covers x := Iff.rfl

theorem BuddyInv.coalesced (h : BuddyInv z lo hi live) :
    Coalesced MAX_ORDER {b | b ∈ freePiles z} := by
  intro k i hk hdvd hi hi'
  exact h.merged k i hk hdvd (mem_freePiles.mp hi).2 (mem_freePiles.mp hi').2

theorem BuddyInv.levels_perm {z' : Zone} {lo' hi' : Nat} {live' : List Block}
    (h : BuddyInv z lo hi live) (h' : BuddyInv z' lo' hi' live')
    (hfree : freePageSet z = freePageSet z') (k : Nat) :
    (z.allocLevels k).Perm (z'.allocLevels k) := by
  have hpiles := h.tiling.unique (hfree ▸ h'.tiling) h.coalesced h'.coalesced
  refine (List.perm_ext_iff_of_nodup (h.piles.nodup_level k) (h'.piles.nodup_level k)).mpr ?_
  intro p
  have hmem : Block.mk k p ∈ freePiles z ↔ Block.mk k p ∈ freePiles z' :=
    Set.ext_iff.mp hpiles ⟨k, p⟩
  rw [mem_freePiles, mem_freePiles] at hmem
  constructor
  · intro hp
    exact (hmem.mp ⟨(h.piles.level k p hp).1, hp⟩).2
  · intro hp
    exact (hmem.mpr ⟨(h'.piles.level k p hp).1, hp⟩).2

theorem BuddyInv.freePageSet_eq (h : BuddyInv z lo hi []) :
    freePageSet z = {x | lo ≤ x ∧ x < hi} := by
  ext x
  have hx := h.piles.covers x
  rw [cover_nil, Nat.add_zero] at hx
  show (∃ b ∈ freePiles z, x ∈ b) ↔ lo ≤ x ∧ x < hi
  rw [← cover_pos_iff, hx]
  split_ifs with hin <;> simp [hin]

/-- Coalescing is complete: no state that calls reach has a pair of buddies on
a level below the top.  So the levels are a function of the free pages.  Two
runs that end with the same free pages, of whatever zones and in whatever
order they call, end with the same piles on every level, and a run that has
freed all it took ends with the piles that `mem_zone_init` made. -/
theorem allocRun_canonical (z z' : Zone) (hz : consumedPages z.totalPages < z.totalPages)
    (hz' : consumedPages z'.totalPages < z'.totalPages) (calls calls' : List AllocCall)
    (s s' : AllocState) (hrun : run AllocState.call ⟨memZoneInit z, []⟩ calls = some s)
    (hrun' : run AllocState.call ⟨memZoneInit z', []⟩ calls' = some s') : NoBuddies s.zone ∧
      (freePageSet s.zone = freePageSet s'.zone →
        ∀ k, (s.zone.allocLevels k).Perm (s'.zone.allocLevels k)) ∧
      (s.live = [] → ∀ k, (s.zone.allocLevels k).Perm ((memZoneInit z).allocLevels k)) := by
  have h := allocRun_buddy hz hrun
  have h' := allocRun_buddy hz' hrun'
  refine ⟨h.merged, fun hfree k => h.levels_perm h' hfree k, ?_⟩
  intro hlive k
  have hinit := memZoneInit_buddy z hz
  rw [hlive] at h
  exact h.levels_perm hinit (h.freePageSet_eq.trans hinit.freePageSet_eq.symm) k

theorem allocRun_canonical_six :
    let s := (run AllocState.call ⟨memZoneInit (rawZone 6), []⟩
      [.alloc 0, .alloc 0, .free 1, .free 3]).get (by decide)
    let s' := (run AllocState.call ⟨memZoneInit (rawZone 6), []⟩
      [.alloc 0, .alloc 0, .free 3, .free 1]).get (by decide)
    NoBuddies s.zone ∧ (freePageSet s.zone = freePageSet s'.zone →
      ∀ k, (s.zone.allocLevels k).Perm (s'.zone.allocLevels k)) ∧
      ∀ k, (s.zone.allocLevels k).Perm ((memZoneInit (rawZone 6)).allocLevels k) := by
  intro s s'
  obtain ⟨hmerged, hperm, hinit⟩ := allocRun_canonical (rawZone 6) (rawZone 6) (by decide)
    (by decide) _ _ s s' (Option.some_get _).symm (Option.some_get _).symm
  exact ⟨hmerged, hperm, hinit (by decide)⟩

/-! ## Completeness of the search -/

/-- An aligned run of `2 ^ order` free pages that opens at `p`. -/
def FreeRun (z : Zone) (order p : Nat) : Prop :=
  2 ^ order ∣ p ∧ ∀ x, p ≤ x → x < p + 2 ^ order → x ∈ freePageSet z

/-- An aligned run of free pages lies in one pile, so a level from its order up
is not empty. -/
theorem BuddyInv.level_ne_nil {order p : Nat} (h : BuddyInv z lo hi live)
    (horder : order < MAX_ORDER) (hfree : FreeRun z order p) :
    ∃ m, order ≤ m ∧ m < MAX_ORDER ∧ z.allocLevels m ≠ [] := by
  rcases h.tiling.exists_tile h.coalesced order p horder hfree.1
    (fun x hx => hfree.2 x hx.1 hx.2) with ⟨c, hc, hle, -⟩
  rcases mem_freePiles.mp hc with ⟨hlt, hmem⟩
  exact ⟨c.order, hle, hlt, List.ne_nil_of_mem hmem⟩

theorem BuddyInv.freePageSet_alloc {order pg : Nat} (h : BuddyInv z lo hi live)
    (hsome : (rawAllocPages z order).2 = some pg) :
    FreeRun z order pg ∧ ∀ x, x ∈ freePageSet (rawAllocPages z order).1 ↔
      x ∈ freePageSet z ∧ ¬ (pg ≤ x ∧ x < pg + 2 ^ order) := by
  have hnext := rawAllocPages_buddy h hsome
  have hal : (Block.mk order pg).Aligned := (hnext.piles.held _ List.mem_cons_self).2
  refine ⟨⟨hal, fun x hge hlt => ?_⟩, fun x => ?_⟩
  · -- The page was not handed out before, or the pile would overlap another one.
    have hcover := hnext.piles.covers x
    rw [cover_cons, if_pos (Block.mem_def.mpr ⟨hge, hlt⟩)] at hcover
    have hcover' := h.piles.covers x
    refine cover_pos_iff.mp ?_
    split_ifs at hcover hcover'
    omega
  · rw [hnext.mem_freePageSet_iff, h.mem_freePageSet_iff, List.forall_mem_cons]
    constructor
    · intro hx
      exact ⟨⟨hx.1, hx.2.2⟩, hx.2.1⟩
    · intro hx
      exact ⟨hx.1.1, hx.2, hx.1.2⟩

/-- In every state that calls reach from `mem_zone_init`, `__alloc_pages` answers
`NULL` exactly when no aligned run of `2 ^ order` pages is free, a page being free
when it is managed and in no pile handed out.  Then every level stays as it is, and
otherwise the pages of the run it answers, which were free, are all that leave the free
pages. -/
theorem allocRun_complete (z : Zone) (calls : List AllocCall) (s : AllocState)
    (hrun : run AllocState.call ⟨memZoneInit z, []⟩ calls = some s) (order : Nat)
    (horder : order < MAX_ORDER) : (∀ x, x ∈ freePageSet s.zone ↔
      (consumedPages z.totalPages ≤ x ∧ x < z.totalPages) ∧ ∀ b ∈ s.live, x ∉ b) ∧
      ((rawAllocPages s.zone order).2 = none ↔ ¬ ∃ p, FreeRun s.zone order p) ∧
      ((rawAllocPages s.zone order).2 = none →
        (rawAllocPages s.zone order).1.allocLevels = s.zone.allocLevels) ∧
      (∀ pg, (rawAllocPages s.zone order).2 = some pg → FreeRun s.zone order pg ∧
        ∀ x, x ∈ freePageSet (rawAllocPages s.zone order).1 ↔
          x ∈ freePageSet s.zone ∧ ¬ (pg ≤ x ∧ x < pg + 2 ^ order)) := by
  have h := AllocState.run_buddy (s := ⟨memZoneInit z, []⟩) (memZoneInit_inv z) hrun
  refine ⟨fun x => h.mem_freePageSet_iff, ⟨?_, ?_⟩, ?_, fun pg hsome => h.freePageSet_alloc hsome⟩
  · intro hnone hfree
    rcases hfree with ⟨p, hp⟩
    rcases h.level_ne_nil horder hp with ⟨m, hle, hlt, hne⟩
    exact hne ((rawAllocPages_none hnone).2 m hle hlt)
  · intro hnofree
    cases hres : (rawAllocPages s.zone order).2 with
    | none => rfl
    | some pg => exact absurd ⟨pg, (h.freePageSet_alloc hres).1⟩ hnofree
  · intro hnone
    rw [(rawAllocPages_none hnone).1]

theorem allocRun_complete_six :
    let s := (run AllocState.call ⟨memZoneInit (rawZone 6), []⟩ [.alloc 0]).get (by decide)
    (¬ ∃ p, FreeRun s.zone 2 p) ∧ ∃ p, FreeRun s.zone 1 p := by
  intro s
  have hrun : run AllocState.call ⟨memZoneInit (rawZone 6), []⟩ [.alloc 0] = some s :=
    (Option.some_get _).symm
  have htwo := allocRun_complete (rawZone 6) _ s hrun 2 (by decide)
  have hone := allocRun_complete (rawZone 6) _ s hrun 1 (by decide)
  exact ⟨htwo.2.1.mp (by decide), _, (hone.2.2.2 2 (by decide)).1⟩

end Koowaldah
