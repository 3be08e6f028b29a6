import Koowaldah.Lib.Run
import Koowaldah.Paging.Tables

/-!
# The frame of a page mapping

`map_page` makes one page present, and must not change how another one is
translated.  It sets `PTF_PRESENT` in the directory entry, and with that makes a
whole table visible.  `frame_iff_clean` says when a call has a frame, and
`mapRun_frame_iff` follows a mapping from the moment it is made.

`clone_map` copies the tables that are present, and leaves the others as memory
was.  `clone_tables_absent` and `clone_map_not_frame` say what follows from that,
and `mapPage_stale` is such a mapping.
-/

namespace Koowaldah

open SysLib

/-! ## Runs -/

/-- A call of `map_page` or `unmap_page`. -/
inductive MapCall where
  | map (virt phys : PageAddr) (flags : BitVec 16)
  | unmap (virt : PageAddr)

structure MapState where
  mem : Words
  pgdir : BitVec 32

/-- How a mapping is made: by `init_rootmap`, or by `clone_map` from the mapping
whose directory is at `map`.  `mem` is the memory before. -/
inductive MapBuild where
  | root (mem : Words) (physPgs : Nat) (pgdir pgtable : PageAddr)
  | clone (mem : Words) (map : BitVec 32) (pgdir pgtable : PageAddr)

namespace MapBuild

def state : MapBuild → MapState
  | .root mem physPgs pgdir pgtable => ⟨initRootmap physPgs pgdir pgtable mem, pgdir⟩
  | .clone mem map pgdir pgtable => ⟨cloneMap pgdir pgtable map mem, pgdir⟩

/-- The directory is not one of the pages that its entries name as tables. -/
def Apart : MapBuild → Prop
  | .root _ physPgs pgdir pgtable => pgdir.1 ≠ 0 ∧
      ∀ k < tablesz physPgs, pgtable.1 + BitVec.ofNat 32 (k * PAGE_SIZE) ≠ pgdir
  | .clone _ _ pgdir pgtable =>
      ∀ k < PGD_ENTRIES, pgtable.1 + BitVec.ofNat 32 (k * PAGE_SIZE) ≠ pgdir

end MapBuild

namespace MapState

def call (s : MapState) : MapCall → Option MapState
  | .map virt phys flags => some { s with mem := mapPage s.pgdir virt phys flags s.mem }
  | .unmap virt => some { s with mem := unmapPage s.pgdir virt s.mem }

/-- The page that a virtual page is translated to. -/
def walk (s : MapState) (virt : PageAddr) : Option (BitVec 32) := pageWalk s.mem s.pgdir virt

def tables (s : MapState) :
    TwoLevel (Fin PGD_ENTRIES) (Fin PGT_ENTRIES) (BitVec 32) (BitVec 32) :=
  tablesOf s.mem s.pgdir

/-- What a call is for: the page is translated to the one that was given, or is not
present any more, and no other page is translated differently. -/
def Frame (s : MapState) (c : MapCall) : Prop :=
  ∀ s', s.call c = some s' →
    match c with
    | .map virt phys _ => s'.walk virt = some phys.1 ∧ ∀ w, w ≠ virt → s'.walk w = s.walk w
    | .unmap virt => s'.walk virt = none ∧ ∀ w, w ≠ virt → s'.walk w = s.walk w

/-- A call that has a frame.  The flags are not part of an address; a directory
entry that is not present names a table without present entries; and no other
directory entry that is present names the same table, unless its entry is already
what the call stores. -/
def Clean (s : MapState) : MapCall → Prop
  | .map virt phys flags =>
    PE_ADDR (phys.1 ||| flags.setWidth 32) = phys.1 ∧
      (s.tables.valid (dirIdx virt) = true ∨
        ∀ i, i ≠ tabIdx virt → s.tables.entry (dirIdx virt) i = none) ∧
      ∀ d, s.tables.Shared (dirIdx virt) d → s.tables.lookup d (tabIdx virt) = some phys.1
  | .unmap virt =>
    ∀ d, s.tables.Shared (dirIdx virt) d → s.tables.lookup d (tabIdx virt) = none

end MapState

section Frame

variable {s s' : MapState}

theorem walk_eq_lookup (s : MapState) (virt : PageAddr) :
    s.walk virt = s.tables.lookup (dirIdx virt) (tabIdx virt) :=
  pageWalk_eq s.mem s.pgdir virt

theorem sameBut_iff {virt : PageAddr} : s.tables.SameBut (dirIdx virt) (tabIdx virt) s'.tables ↔
      ∀ w, w ≠ virt → s'.walk w = s.walk w := by
  constructor
  · intro h w hw
    rw [walk_eq_lookup, walk_eq_lookup]
    exact h (dirIdx w) (tabIdx w) (fun heq => hw (idx_inj.mpr heq))
  · intro h d i hne
    rcases exists_idx d i with ⟨w, rfl, rfl⟩
    rw [← walk_eq_lookup, ← walk_eq_lookup]
    exact h w (fun heq => hne (idx_inj.mp heq))

theorem call_tables (h : Placed s.mem s.pgdir) {c : MapCall} (hcall : s.call c = some s') :
    s'.pgdir = s.pgdir ∧ s'.tables.table = s.tables.table := by
  cases c with
  | map virt phys flags =>
    cases hcall
    refine ⟨rfl, ?_⟩
    show (tablesOf (mapPage s.pgdir virt phys flags s.mem) s.pgdir).table = s.tables.table
    rw [tablesOf_mapPage h virt phys flags]
    rfl
  | unmap virt =>
    cases hcall
    refine ⟨rfl, ?_⟩
    show (tablesOf (unmapPage s.pgdir virt s.mem) s.pgdir).table = s.tables.table
    rw [tablesOf_unmapPage h virt]
    rfl

theorem Placed.call (h : Placed s.mem s.pgdir) {c : MapCall} (hcall : s.call c = some s') :
    Placed s'.mem s'.pgdir := by
  rcases call_tables h hcall with ⟨hdir, htable⟩
  constructor
  · rw [hdir]
    exact h.aligned
  · intro d
    show s'.tables.table d ≠ s'.pgdir
    rw [hdir, htable]
    exact h.table_ne d

theorem frame_iff_clean (h : Placed s.mem s.pgdir) (c : MapCall) : s.Frame c ↔ s.Clean c := by
  cases c with
  | map virt phys flags =>
    have htables := tablesOf_mapPage h virt phys.1 flags
    generalize hs' : ({ s with mem := mapPage s.pgdir virt phys flags s.mem } : MapState) = s'
    have hmap : s'.tables = s.tables.map (dirIdx virt) (tabIdx virt)
        (PE_ADDR (phys.1 ||| flags.setWidth 32)) := by
      rw [← hs']
      exact htables
    have hself : s'.walk virt = some (PE_ADDR (phys.1 ||| flags.setWidth 32)) := by
      rw [walk_eq_lookup, hmap, TwoLevel.lookup_map_self]
    have hframe : s.Frame (.map virt phys flags) ↔
        s'.walk virt = some phys.1 ∧ ∀ w, w ≠ virt → s'.walk w = s.walk w := by
      rw [← hs']
      exact ⟨fun h => h _ rfl, fun h t ht => Option.some.inj ht ▸ h⟩
    rw [hframe, ← sameBut_iff, hself, Option.some.injEq]
    show _ ↔ PE_ADDR (phys.1 ||| flags.setWidth 32) = phys.1 ∧ _
    refine and_congr_right (fun heq => ?_)
    rw [hmap, heq, TwoLevel.map_frame_iff]
  | unmap virt =>
    have htables := tablesOf_unmapPage h virt
    generalize hs' : ({ s with mem := unmapPage s.pgdir virt s.mem } : MapState) = s'
    have hunmap : s'.tables = s.tables.unmap (dirIdx virt) (tabIdx virt) := by
      rw [← hs']
      exact htables
    have hself : s'.walk virt = none := by
      rw [walk_eq_lookup, hunmap, TwoLevel.lookup_unmap_self]
    have hframe : s.Frame (.unmap virt) ↔
        s'.walk virt = none ∧ ∀ w, w ≠ virt → s'.walk w = s.walk w := by
      rw [← hs']
      exact ⟨fun h => h _ rfl, fun h t ht => Option.some.inj ht ▸ h⟩
    rw [hframe, ← sameBut_iff, hself, hunmap, TwoLevel.unmap_frame_iff]
    exact and_iff_right rfl

end Frame

theorem MapBuild.Apart.placed {build : MapBuild} (h : build.Apart) :
    Placed build.state.mem build.state.pgdir := by
  cases build with
  | root mem physPgs pgdir pgtable =>
    exact placed_initRootmap pgdir.2 pgtable.2 h.1 h.2
  | clone mem map pgdir pgtable =>
    unfold MapBuild.state
    dsimp only
    exact placed_cloneMap pgdir.2 pgtable.2 h

/-- When page mappings have a frame.  Of a mapping that was made by `init_rootmap`
or `clone_map`, whatever memory held before, and whose directory is not one of the
pages that it names as tables: in every sequence of calls, each call of `map_page`
and `unmap_page` does what it is for and leaves the translation of every other page
as it was, if and only if every call is clean in the state it finds. -/
theorem mapRun_frame_iff {build : MapBuild} (hapart : build.Apart) (calls : List MapCall) :
    Meets MapState.call MapState.Frame build.state calls ↔
      Meets MapState.call MapState.Clean build.state calls := by
  refine meets_congr (fun s => Placed s.mem s.pgdir) (fun s c h => frame_iff_clean h c) ?_
    hapart.placed
  intro s c s' h _ hcall
  exact h.call hcall

/-! ## Stale tables -/

section Stale

variable {mem : Words} {map : BitVec 32} {pgdir pgtable : PageAddr}

/-- Where the old mapping has no table, the directory entry of the clone is not
present, and its table is what memory held before. -/
theorem clone_tables_absent (hapart : (MapBuild.clone mem map pgdir pgtable).Apart)
    (hsrc : SourceApart pgdir map pgtable PGD_ENTRIES) {d : Fin PGD_ENTRIES}
    (habsent : present (mem (slot map d)) = false) (i : Fin PGT_ENTRIES) :
    (MapBuild.clone mem map pgdir pgtable).state.tables.valid d = false ∧
      (MapBuild.clone mem map pgdir pgtable).state.tables.entry d i =
        pteValue (mem (slot (pgtable.1 + BitVec.ofNat 32 (d * PAGE_SIZE)) i)) := by
  rcases (cloneLoop_pgdir map pgdir.2 PGD_ENTRIES 0 mem pgtable.2 (by omega) hapart d.2).2
    (Nat.zero_le _) (by omega) with ⟨old, hword, hold⟩
  rw [hold hsrc] at hword
  have haligned := pageAligned_add pgtable.2 d
  have htable := cloneMap_table map mem pgdir.2 pgtable.2 hapart d
  unfold MapBuild.state MapState.tables
  constructor
  · unfold tablesOf cloneMap
    dsimp only
    rw [hword, present_or, present_mask, habsent, Nat.sub_zero, present_of_aligned haligned]
    rfl
  · have hentry : (tablesOf (cloneMap pgdir pgtable map mem) pgdir).entry d i =
        pteValue (cloneLoop pgdir map pgtable 0 PGD_ENTRIES mem
          (slot ((tablesOf (cloneMap pgdir pgtable map mem) pgdir).table d) i)) := by
      rfl
    rw [hentry, htable, cloneLoop_frame pgdir.2 PGD_ENTRIES 0 mem pgtable.2 (by omega) hsrc]
    · intro e he heq
      exact hapart d d.2 ((slot_eq_iff haligned pgdir.2 i.2 he).mp heq).1
    · intro k hk hpresent t ht heq
      have hsame := (slot_eq_iff haligned (pageAligned_add pgtable.2 k) i.2 ht).mp heq
      rw [Nat.zero_add, ← add_pages_inj _ d.2 hk hsame.1, habsent] at hpresent
      cases hpresent

/-- The tables of a clone are never shared, so a call on a clone is clean when the
flags are, and a directory entry that is not present names an empty table. -/
theorem cloneRun_not_shared (hapart : (MapBuild.clone mem map pgdir pgtable).Apart)
    {calls : List MapCall} {s : MapState}
    (hrun : run MapState.call (MapBuild.clone mem map pgdir pgtable).state calls = some s)
    {d d' : Fin PGD_ENTRIES} (hne : d ≠ d') : s.tables.table d ≠ s.tables.table d' := by
  have hstart : ∀ d : Fin PGD_ENTRIES, (MapBuild.clone mem map pgdir pgtable).state.tables.table d =
      pgtable.1 + BitVec.ofNat 32 (d * PAGE_SIZE) := by
    intro d
    unfold MapBuild.state MapState.tables
    dsimp only
    exact cloneMap_table map mem pgdir.2 pgtable.2 hapart d
  have hinv : Placed s.mem s.pgdir ∧
      ∀ d : Fin PGD_ENTRIES, s.tables.table d =
        pgtable.1 + BitVec.ofNat 32 (d * PAGE_SIZE) := by
    refine run_invariant (fun s => Placed s.mem s.pgdir ∧
      ∀ d : Fin PGD_ENTRIES, s.tables.table d = pgtable.1 + BitVec.ofNat 32 (d * PAGE_SIZE)) ?_
      ⟨hapart.placed, hstart⟩ hrun
    intro s c s' h hcall
    refine ⟨h.1.call hcall, fun d => ?_⟩
    rw [(call_tables h.1 hcall).2]
    exact h.2 d
  intro heq
  rw [hinv.2, hinv.2] at heq
  exact hne (Fin.ext (add_pages_inj _ d.2 d'.2 heq))

/-- A page that is mapped in a clone makes the stale entries of its table visible. -/
theorem clone_map_not_frame (hapart : (MapBuild.clone mem map pgdir pgtable).Apart)
    (hsrc : SourceApart pgdir map pgtable PGD_ENTRIES) {virt : PageAddr} {i : Fin PGT_ENTRIES}
    (hi : i ≠ tabIdx virt) (habsent : present (mem (slot map (dirIdx virt))) = false)
    (hstale : present (mem (slot (pgtable.1 + BitVec.ofNat 32 (dirIdx virt * PAGE_SIZE)) i)) = true)
    (phys : PageAddr) (flags : BitVec 16) :
    ¬(MapBuild.clone mem map pgdir pgtable).state.Frame (.map virt phys flags) := by
  intro hframe
  rcases clone_tables_absent hapart hsrc habsent i with ⟨hvalid, hentry⟩
  rcases ((frame_iff_clean hapart.placed _).mp hframe).2.1 with hset | hempty
  · rw [hvalid] at hset
    cases hset
  · rw [hempty i hi] at hentry
    unfold pteValue at hentry
    rw [if_pos hstale] at hentry
    cases hentry

end Stale

theorem root_valid (mem : Words) (physPgs : Nat) (pgdir pgtable : PageAddr) (d : Fin PGD_ENTRIES) :
    (MapBuild.root mem physPgs pgdir pgtable).state.tables.valid d =
      decide (d.val < tablesz physPgs) := by
  have hset : present PTF_PRESENT = true ∧ present (PTF_USER ||| PTF_RW) = false := by decide
  unfold MapBuild.state MapState.tables tablesOf
  dsimp only
  rw [initRootmap_pgdir physPgs d d.2]
  split
  · rename_i hlt
    rw [present_or, present_or, present_or, hset.1, Bool.or_true, Bool.true_or, Bool.true_or,
      decide_eq_true hlt]
  · rename_i hge
    rw [hset.2, decide_eq_false hge]

theorem add_pages_ne {x y : BitVec 32} (hlt : y.toNat < x.toNat)
    (hx : x.toNat + PGD_ENTRIES * PAGE_SIZE ≤ 2 ^ 32) {k : Nat} (hk : k < PGD_ENTRIES) :
    x + BitVec.ofNat 32 (k * PAGE_SIZE) ≠ y := by
  intro heq
  have hnat := congrArg BitVec.toNat heq
  rw [BitVec.toNat_add, BitVec.toNat_ofNat] at hnat
  unfold PGD_ENTRIES PAGE_SIZE at *
  omega

/-- Memory that was in use before: a directory without tables at `0x10000`, and
what looks like a present entry everywhere else. -/
def staleMem : Words := fun x => if x / 1024 = 16 then 0#32 else 0x5007#32

/-- A clone of the directory without tables, whose tables were in use before. -/
theorem mapPage_stale :
    (MapBuild.clone staleMem 0x10000#32 ⟨0x20000#32, by decide⟩ ⟨0x40000#32, by decide⟩).Apart ∧
      ¬Meets MapState.call MapState.Frame
        (MapBuild.clone staleMem 0x10000#32 ⟨0x20000#32, by decide⟩ ⟨0x40000#32, by decide⟩).state
        [.map ⟨0x40000000#32, by decide⟩ ⟨0x7000#32, by decide⟩ 2#16] := by
  have hapart : (MapBuild.clone staleMem 0x10000#32 ⟨0x20000#32, by decide⟩
      ⟨0x40000#32, by decide⟩).Apart := fun k hk => add_pages_ne (by decide) (by decide) hk
  have hsrc : SourceApart 0x20000#32 0x10000#32 0x40000#32 PGD_ENTRIES :=
    ⟨by decide, by decide, fun k hk => add_pages_ne (by decide) (by decide) hk⟩
  refine ⟨hapart, fun hmeets => ?_⟩
  exact clone_map_not_frame hapart hsrc (i := ⟨1, by decide⟩) (by decide) (by decide) (by decide)
    _ _ hmeets.1

theorem call_map_valid {s s' : MapState} (h : Placed s.mem s.pgdir) {virt phys : PageAddr}
    {flags : BitVec 16} (hcall : s.call (.map virt phys flags) = some s') :
    s'.tables.valid (dirIdx virt) = true ∧
      ∀ d, d ≠ dirIdx virt → s'.tables.valid d = s.tables.valid d := by
  cases hcall
  have htables := tablesOf_mapPage h virt phys.1 flags
  unfold MapState.tables
  dsimp only
  rw [htables]
  exact ⟨TwoLevel.map_valid_self _, fun d hd => TwoLevel.map_valid_other _ hd⟩

/-- Two pages are mapped in the clone, one is taken out again, and the directory entries of
both are present. -/
theorem cloneRun_not_shared_two : ∃ s,
    run MapState.call (MapBuild.clone staleMem 0x10000#32 ⟨0x20000#32, by decide⟩
      ⟨0x40000#32, by decide⟩).state [.unmap ⟨0x3000#32, by decide⟩,
        .map ⟨0x3000#32, by decide⟩ ⟨0x7000#32, by decide⟩ 2#16,
        .map ⟨0x400000#32, by decide⟩ ⟨0x8000#32, by decide⟩ 2#16] = some s ∧
      s.tables.valid ⟨0, by decide⟩ = true ∧ s.tables.valid ⟨1, by decide⟩ = true ∧
      s.tables.table ⟨0, by decide⟩ ≠ s.tables.table ⟨1, by decide⟩ := by
  have hapart : (MapBuild.clone staleMem 0x10000#32 ⟨0x20000#32, by decide⟩
      ⟨0x40000#32, by decide⟩).Apart := fun k hk => add_pages_ne (by decide) (by decide) hk
  generalize hstart : (MapBuild.clone staleMem 0x10000#32 ⟨0x20000#32, by decide⟩
      ⟨0x40000#32, by decide⟩).state = s₀
  have hplaced : Placed s₀.mem s₀.pgdir := hstart ▸ hapart.placed
  obtain ⟨s₁, h₁⟩ : ∃ s₁, s₀.call (.unmap ⟨0x3000#32, by decide⟩) = some s₁ := ⟨_, rfl⟩
  have hplaced₁ := hplaced.call h₁
  obtain ⟨s₂, h₂⟩ : ∃ s₂, s₁.call
      (.map ⟨0x3000#32, by decide⟩ ⟨0x7000#32, by decide⟩ 2#16) = some s₂ := ⟨_, rfl⟩
  obtain ⟨s₃, h₃⟩ : ∃ s₃, s₂.call
      (.map ⟨0x400000#32, by decide⟩ ⟨0x8000#32, by decide⟩ 2#16) = some s₃ := ⟨_, rfl⟩
  have hvalid := (call_map_valid hplaced₁ h₂).1
  obtain ⟨hvalid', hsame⟩ := call_map_valid (hplaced₁.call h₂) h₃
  have hrun : run MapState.call s₀ [.unmap ⟨0x3000#32, by decide⟩,
      .map ⟨0x3000#32, by decide⟩ ⟨0x7000#32, by decide⟩ 2#16,
      .map ⟨0x400000#32, by decide⟩ ⟨0x8000#32, by decide⟩ 2#16] = some s₃ := by
    rw [run_cons, h₁, Option.bind_some, run_cons, h₂, Option.bind_some, run_cons, h₃]
    rfl
  refine ⟨s₃, hrun, (hsame _ (by decide)).trans hvalid, hvalid', ?_⟩
  exact cloneRun_not_shared hapart (hstart ▸ hrun) (by decide)

theorem mapRun_frame_root :
    (MapBuild.root staleMem 1 ⟨0x20000#32, by decide⟩ ⟨0x40000#32, by decide⟩).Apart ∧
      Meets MapState.call MapState.Frame
        (MapBuild.root staleMem 1 ⟨0x20000#32, by decide⟩ ⟨0x40000#32, by decide⟩).state
        [.map ⟨0x3000#32, by decide⟩ ⟨0x7000#32, by decide⟩ 2#16] := by
  have hapart : (MapBuild.root staleMem 1 ⟨0x20000#32, by decide⟩ ⟨0x40000#32, by decide⟩).Apart :=
    ⟨by decide, fun k hk => add_pages_ne (by decide) (by decide) (hk.trans (by decide))⟩
  refine ⟨hapart, (mapRun_frame_iff hapart _).mpr ⟨⟨by decide, ?_, ?_⟩, fun _ _ => trivial⟩⟩
  · left
    rw [root_valid]
    decide
  · intro d hshared
    have hvalid := hshared.2.1
    rw [root_valid] at hvalid
    have hzero : d.val < 1 := of_decide_eq_true hvalid
    exact absurd (Fin.ext (Nat.lt_one_iff.mp hzero)) hshared.1

end Koowaldah
