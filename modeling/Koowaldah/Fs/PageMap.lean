import Koowaldah.Fs.Cpio
import Koowaldah.Fs.Read
import Koowaldah.GetPages
import Koowaldah.Lib.Run

/-!
# The page map of a file

`fs_stuff_inode` of `kernel/fs/fs.c` stores one page after the other in `i_pages`, which
has room for `INODE_PAGES`.  The number of rounds comes from the length of the body, and
the loop has no check of its own.  When no page is left it stores `NULL` and copies to
what `page_to_addr (NULL)` gives, if reading there is not a page fault.

The model of `fs_stuff_inode` in `Fs/Basic` has no value where the loop leaves the array
or gets no page.  Here the loop goes on as the code does (`stuffNull`), and the indices
that it stores to are listed apart (`stuffIndices`).

* The two models: `insertVia_of_fsInsertEntry` says that they agree where the one of
  `Fs/Basic` has a value.
* `insert_mapBounded_iff` says of every sequence of insertions from the tree of `fs_init`
  that all stores are inside `i_pages`, and the size of every inode is within its pages
  afterwards, exactly when every body has less than `INODE_PAGES * PAGE_SIZE` bytes, or
  the pages run out before the end of the array and that is a page fault.
-/

namespace Koowaldah

open SysLib

variable {z : Zone} {n src left : Nat} {mem : ByteMem} {pages : List Nat}

/-! ## The loop of `fs_stuff_inode` -/

/-- The indices of `i_pages` that the loop of `fs_stuff_inode` stores to, with the rounds
left to do.  `null` is the address that `page_to_addr (NULL)` gives, or `none` where it
is a page fault. -/
def stuffIndices (null : Option Nat) : Nat → Zone → Nat → List Nat
  | 0, _, _ => []
  | n + 1, z, npages =>
    let (z, pg) := rawAllocPages z 0
    npages ::
      match pg, null with
      | none, none => []
      | _, _ => stuffIndices null n z (npages + 1)

/-- The loop of `fs_stuff_inode`.  The pages are those that are not `NULL`. -/
def stuffNull (null : Option Nat) : Nat → Zone → ByteMem → List Nat → Nat → Nat →
    Option (Zone × ByteMem × List Nat)
  | 0, z, mem, pages, _, _ => some (z, mem, pages)
  | n + 1, z, mem, pages, src, left =>
    let (z, pg) := rawAllocPages z 0
    match pg, null with
    | some pg, _ =>
      let mem := memoryCopy mem (pageToAddr z pg) src (min PAGE_SIZE left)
      stuffNull null n z mem (pages ++ [pg]) (src + PAGE_SIZE) (left - PAGE_SIZE)
    | none, some addr =>
      let mem := memoryCopy mem addr src (min PAGE_SIZE left)
      stuffNull null n z mem pages (src + PAGE_SIZE) (left - PAGE_SIZE)
    | none, none => none

theorem rawAllocPages_pagesIn_one {pg : Nat} (h : (rawAllocPages z 0).2 = some pg) :
    pagesIn (rawAllocPages z 0).1 + 1 = pagesIn z :=
  rawAllocPages_pagesIn h

theorem mem_stuffIndices {null : Option Nat} {npages i : Nat} : i ∈ stuffIndices null n z npages ↔
      npages ≤ i ∧ i < npages + n ∧ (null.isSome ∨ i ≤ npages + pagesIn z) := by
  induction n generalizing z npages with
  | zero =>
    simp only [stuffIndices, List.not_mem_nil, false_iff]
    omega
  | succ n ih =>
    rw [stuffIndices]
    rw [List.mem_cons]
    cases hpg : (rawAllocPages z 0).2 with
    | some pg =>
      have hone := rawAllocPages_pagesIn_one hpg
      grind
    | none =>
      have hzero := rawAllocPages_eq_none_iff.mp hpg
      cases null with
      | none =>
        simp only [List.not_mem_nil, Option.isSome_none, Bool.false_eq_true, false_or, or_false]
        omega
      | some addr =>
        simp only [ih, Option.isSome_some, true_or, and_true]
        omega

theorem stuffNull_isSome_iff {null : Option Nat} :
    (stuffNull null n z mem pages src left).isSome ↔ null.isSome ∨ n ≤ pagesIn z := by
  induction n generalizing z mem pages src left with
  | zero => simp [stuffNull]
  | succ n ih =>
    rw [stuffNull]
    dsimp only
    cases hpg : (rawAllocPages z 0).2 with
    | some pg =>
      have hone := rawAllocPages_pagesIn_one hpg
      rw [ih]
      refine or_congr_right ?_
      omega
    | none =>
      have hzero := rawAllocPages_eq_none_iff.mp hpg
      cases null with
      | none => simp [hzero]
      | some addr => simp [ih]

theorem stuffNull_of_stuffLoop (null : Option Nat) {r : Zone × ByteMem × List Nat}
    (h : stuffLoop n z mem pages src left = some r) :
    stuffNull null n z mem pages src left = some r := by
  induction n generalizing z mem pages src left with
  | zero => exact h
  | succ n ih =>
    obtain ⟨-, pg, hpg, hrest⟩ := stuffLoop_succ_eq_some h
    rw [stuffNull]
    dsimp only
    rw [hpg]
    exact ih hrest

namespace FsState

/-! ## The call -/

variable (s : FsState) (null : Option Nat)

/-- `fs_stuff_inode`, on an inode. -/
def stuffVia (inode src len : Nat) : Option FsState :=
  (stuffNull null (len / PAGE_SIZE + 1) s.zone s.mem [] src len).map (fun (z, mem, pages) =>
    { s with zone := z, mem := mem }.setInode inode (fun i =>
      { i with iSize := len, iPages := pages, iFilled := len / PAGE_SIZE + 1 }))

/-- `fs_insert_entry`. -/
def insertVia (call : InsertCall) : Option FsState :=
  match s.insertTarget call.name with
  | none => none
  | some none => some s
  | some (some (parent, name)) =>
    let (s, inode) := s.fsAddEntry parent name call.mode call.dev
    match call.buf with
    | none => some s
    | some src =>
      if S_ISREG call.mode ∧ call.len ≠ 0 then s.stuffVia null inode src call.len else some s

def Stuffing (call : InsertCall) : Prop :=
  (s.insertTarget call.name).join.isSome ∧ Stuffs call.mode call.buf call.len

instance decidableStuffing (call : InsertCall) : Decidable (s.Stuffing call) :=
  inferInstanceAs (Decidable (_ ∧ _ ∧ _ ∧ _))

/-- The indices of `i_pages` that the call stores to. -/
def pageStores (call : InsertCall) : List Nat :=
  if s.Stuffing call then stuffIndices null (call.len / PAGE_SIZE + 1) s.zone 0 else []

variable {s null} {call : InsertCall} {s' : FsState}

theorem insertVia_of_not_stuffing (hcall : ¬s.Stuffing call) (h : s.insertVia null call = some s') :
    s' = s ∨ ∃ parent name, s' = (s.fsAddEntry parent name call.mode call.dev).1 := by
  unfold insertVia at h
  unfold Stuffing Stuffs at hcall
  match htarget : s.insertTarget call.name with
  | none => simp [htarget] at h
  | some none =>
    rw [htarget] at h
    exact .inl (Option.some.inj h).symm
  | some (some (parent, name)) =>
    rw [htarget] at h hcall
    refine .inr ⟨parent, name, ?_⟩
    cases hbuf : call.buf with
    | none =>
      rw [hbuf] at h
      exact (Option.some.inj h).symm
    | some src =>
      rw [hbuf] at h hcall
      dsimp only at h
      rw [if_neg (fun hreg => hcall ⟨rfl, rfl, hreg⟩)] at h
      exact (Option.some.inj h).symm

theorem insertVia_of_stuffing (null : Option Nat) (hcall : s.Stuffing call) :
    ∃ parent name src, s.insertVia null call =
      (s.fsAddEntry parent name call.mode call.dev).1.stuffVia null s.ninodes src call.len := by
  obtain ⟨htarget, hbuf, hreg⟩ := hcall
  obtain ⟨at', hat⟩ := Option.isSome_iff_exists.mp htarget
  obtain ⟨src, hsrc⟩ := Option.isSome_iff_exists.mp hbuf
  refine ⟨at'.1, at'.2, src, ?_⟩
  unfold insertVia
  rw [Option.join_eq_some_iff.mp hat, hsrc]
  dsimp only
  rw [if_pos hreg]
  rfl

/-- The two models of `fs_insert_entry` agree where the one that stops at the end of
`i_pages` has a value. -/
theorem insertVia_of_fsInsertEntry (null : Option Nat)
    (h : s.fsInsertEntry call.name call.mode call.dev call.buf call.len = some s') :
    s.insertVia null call = some s' := by
  unfold fsInsertEntry at h
  unfold insertVia
  match htarget : s.insertTarget call.name with
  | none => simp [htarget] at h
  | some none =>
    rw [htarget] at h
    exact h
  | some (some (parent, name)) =>
    rw [htarget] at h
    dsimp only [insertAt] at h ⊢
    cases hbuf : call.buf with
    | none =>
      rw [hbuf] at h
      exact h
    | some src =>
      rw [hbuf] at h
      dsimp only at h ⊢
      split at h
      case isFalse hreg => rw [if_neg hreg, h]
      case isTrue hreg =>
        rw [if_pos hreg]
        obtain ⟨⟨z, mem, file⟩, hfile, rfl⟩ := Option.map_eq_some_iff.mp h
        obtain ⟨⟨z', mem', pages⟩, hloop, heq⟩ := Option.map_eq_some_iff.mp hfile
        obtain ⟨rfl, rfl, rfl⟩ := heq
        have hlength := (stuffLoop_extends _ hloop).2.1
        rw [List.length_nil, Nat.zero_add] at hlength
        unfold stuffVia
        rw [stuffNull_of_stuffLoop null hloop]
        dsimp only [Option.map_some]
        rw [hlength]

/-- A file of 5000 bytes is inserted.  It gets the pages 1 and 3, and its bytes are in them. -/
theorem insertVia_of_fsInsertEntry_file :
    let s := fsInit (memZoneInit (rawZone 4)) (fun x => UInt8.ofNat x)
    ∃ s', s.fsInsertEntry [0x61] S_IFREG NODEV (some 20000) 5000 = some s' ∧
      s.insertVia none ⟨[0x61], S_IFREG, NODEV, some 20000, 5000⟩ = some s' ∧
      (s'.inodes 8).iSize = 5000 ∧ (s'.inodes 8).iPages = [1, 3] ∧
      s'.mem 4096 = UInt8.ofNat 20000 ∧ s'.mem (3 * 4096 + 903) = UInt8.ofNat 24999 := by
  intro s
  have hres : (s.fsInsertEntry [0x61] S_IFREG NODEV (some 20000) 5000).map
      (fun s' => ((s'.inodes 8).iSize, (s'.inodes 8).iPages, s'.mem 4096,
        s'.mem (3 * 4096 + 903))) =
        some (5000, [1, 3], UInt8.ofNat 20000, UInt8.ofNat 24999) := by
    decide +kernel
  obtain ⟨s', hs', heq⟩ := Option.map_eq_some_iff.mp hres
  simp only [Prod.mk.injEq] at heq
  exact ⟨s', hs', insertVia_of_fsInsertEntry none hs', heq⟩

/-! ## Bounds -/

/-- Every inode has room for the pages it counts, and no more bytes than are in them. -/
def Mapped (s : FsState) : Prop :=
  ∀ i, (s.inodes i).iFilled ≤ INODE_PAGES ∧ (s.inodes i).iSize ≤ (s.inodes i).iFilled * PAGE_SIZE

/-- All stores of the call are inside `i_pages`, and the sizes are bounded afterwards. -/
def MapBounded (null : Option Nat) (s : FsState) (call : InsertCall) : Prop :=
  (∀ i ∈ s.pageStores null call, i < INODE_PAGES) ∧
    ∀ s', s.insertVia null call = some s' → s'.Mapped

/-- What keeps the stores inside: the body is shorter than the map, or the pages run out
in the map and that is a page fault. -/
def MapFits (null : Option Nat) (s : FsState) (call : InsertCall) : Prop :=
  s.Stuffing call →
    call.len < INODE_PAGES * PAGE_SIZE ∨ null = none ∧ pagesIn s.zone < INODE_PAGES

theorem Mapped.setInode (hs : s.Mapped) (inode : Nat) (f : FsInode → FsInode)
    (hf : (f (s.inodes inode)).iFilled ≤ INODE_PAGES ∧
      (f (s.inodes inode)).iSize ≤ (f (s.inodes inode)).iFilled * PAGE_SIZE) :
    (s.setInode inode f).Mapped := by
  intro i
  show ((Function.update s.inodes inode (f (s.inodes inode))) i).iFilled ≤ _ ∧ _
  by_cases hi : i = inode
  · subst hi
    simpa [FsState.setInode] using hf
  · simpa [FsState.setInode, Function.update_of_ne hi] using hs i

theorem fsAddEntry_size (s : FsState) (parent : Nat) (name : List UInt8) (mode dev i : Nat) :
    (((s.fsAddEntry parent name mode dev).1.inodes i).iFilled,
        ((s.fsAddEntry parent name mode dev).1.inodes i).iSize) =
      if i = s.ninodes then (0, 0) else ((s.inodes i).iFilled, (s.inodes i).iSize) := by
  unfold fsAddEntry FsState.setInode newDirentry setDent newInode
  simp only [Function.update_apply]
  split_ifs <;> simp_all

theorem Mapped.fsAddEntry (hs : s.Mapped) (parent : Nat) (name : List UInt8) (mode dev : Nat) :
    (s.fsAddEntry parent name mode dev).1.Mapped := by
  intro i
  have hsize := fsAddEntry_size s parent name mode dev i
  split at hsize
  · rw [(Prod.mk.inj hsize).1, (Prod.mk.inj hsize).2]
    simp
  · rw [(Prod.mk.inj hsize).1, (Prod.mk.inj hsize).2]
    exact hs i

theorem Mapped.stuffVia (hs : s.Mapped) {inode src len : Nat} (hlen : len < INODE_PAGES * PAGE_SIZE)
    (h : s.stuffVia null inode src len = some s') : s'.Mapped := by
  obtain ⟨⟨z, mem, pages⟩, -, rfl⟩ := Option.map_eq_some_iff.mp h
  refine Mapped.setInode (s := { s with zone := z, mem := mem }) hs inode _ ?_
  dsimp only
  unfold INODE_PAGES PAGE_SIZE at *
  omega

theorem stuffVia_eq_none {inode src len : Nat} (hnull : null = none)
    (hpages : pagesIn s.zone ≤ len / PAGE_SIZE) : s.stuffVia null inode src len = none := by
  have hnone : (stuffNull null (len / PAGE_SIZE + 1) s.zone s.mem [] src len).isSome ↔ _ :=
    stuffNull_isSome_iff
  rw [hnull, Option.isSome_none, Bool.false_eq_true, false_or] at hnone
  unfold FsState.stuffVia
  rw [Option.map_eq_none_iff, ← Option.not_isSome_iff_eq_none, hnull, hnone]
  omega

theorem pageStores_lt_iff :
    (∀ i ∈ s.pageStores null call, i < INODE_PAGES) ↔ MapFits null s call := by
  unfold pageStores MapFits
  split
  case isFalse hcall => simp [hcall]
  case isTrue hcall =>
    simp only [hcall, forall_const, mem_stuffIndices]
    constructor
    · -- the first store that may be outside is the one behind the end
      intro h
      by_contra hnot
      rw [not_or, not_and_or] at hnot
      have hlast := h INODE_PAGES
      cases null with
      | none =>
        simp only [false_or, not_true_eq_false]
          at hlast hnot
        unfold INODE_PAGES PAGE_SIZE at *
        omega
      | some addr =>
        simp only [Option.isSome_some, true_or, and_true] at hlast
        unfold INODE_PAGES PAGE_SIZE at *
        omega
    · rintro (hlen | ⟨hnull, hpages⟩) i ⟨-, hi, hreach⟩
      · unfold INODE_PAGES PAGE_SIZE at *
        omega
      · rw [hnull, Option.isSome_none, Bool.false_eq_true, false_or] at hreach
        omega

theorem Mapped.insertVia (hs : s.Mapped) (hfits : MapFits null s call)
    (h : s.insertVia null call = some s') : s'.Mapped := by
  by_cases hcall : s.Stuffing call
  · obtain ⟨parent, name, src, heq⟩ := insertVia_of_stuffing null hcall
    rw [heq] at h
    rcases hfits hcall with hlen | ⟨hnull, hpages⟩
    · exact (hs.fsAddEntry parent name call.mode call.dev).stuffVia hlen h
    · by_cases hlen : call.len < INODE_PAGES * PAGE_SIZE
      · exact (hs.fsAddEntry parent name call.mode call.dev).stuffVia hlen h
      · rw [stuffVia_eq_none hnull] at h
        · cases h
        · show pagesIn s.zone ≤ _
          unfold INODE_PAGES PAGE_SIZE at *
          omega
  · rcases insertVia_of_not_stuffing hcall h with rfl | ⟨parent, name, rfl⟩
    · exact hs
    · exact hs.fsAddEntry parent name call.mode call.dev

theorem mapped_fsInit (zone : Zone) (mem : ByteMem) : (fsInit zone mem).Mapped := by
  have hroot : (fsRoot zone mem).Mapped := fun i => by simp [fsRoot]
  iterate 7 apply Mapped.fsAddEntry
  exact hroot

/-- Along every sequence of insertions the page maps are bounded exactly when every body
fits. -/
theorem insert_mapBounded_iff (null : Option Nat) (zone : Zone) (mem : ByteMem)
    (calls : List InsertCall) :
    Meets (fun s call => s.insertVia null call) (MapBounded null) (fsInit zone mem) calls ↔
      Meets (fun s call => s.insertVia null call) (MapFits null) (fsInit zone mem) calls := by
  refine meets_congr Mapped (fun s call hs => ?_) (fun s call s' hs hfits h => ?_)
    (mapped_fsInit zone mem)
  · unfold MapBounded
    rw [pageStores_lt_iff]
    exact and_iff_left_of_imp (fun hfits s' h => hs.insertVia hfits h)
  · exact hs.insertVia hfits h

def wideZone : Zone where
  base := 0
  totalPages := 128
  freePages := 128
  allocLevels := fun k => if k = 7 then [0] else []
  order := fun _ => 7
  virt := fun _ => 0
  areaList := ⟨id, id⟩

/-- The insertion of a regular file with the name `a`. -/
def fileCall (len : Nat) : InsertCall := ⟨[0x61], S_IFREG, NODEV, some 0, len⟩

/-- A body of exactly `INODE_PAGES` pages takes one page more, and its last store is
behind the end of `i_pages`; with a byte less all stores are inside. -/
theorem fileCall_stores_outside : INODE_PAGES ∈ (fsInit wideZone (fun _ => 0)).pageStores none
        (fileCall (INODE_PAGES * PAGE_SIZE)) ∧
      ¬MapBounded none (fsInit wideZone (fun _ => 0)) (fileCall (INODE_PAGES * PAGE_SIZE)) ∧
      ∀ i ∈ (fsInit wideZone (fun _ => 0)).pageStores none
        (fileCall (INODE_PAGES * PAGE_SIZE - 1)), i < INODE_PAGES := by
  have hstuff : ∀ len, len ≠ 0 → (fsInit wideZone (fun _ => 0)).Stuffing (fileCall len) :=
    fun len hlen => ⟨show ((fsInit wideZone (fun _ => 0)).insertTarget [0x61]).join.isSome by
      decide +kernel, rfl, show S_ISREG S_IFREG = true by decide, hlen⟩
  have hmem : INODE_PAGES ∈ (fsInit wideZone (fun _ => 0)).pageStores none
      (fileCall (INODE_PAGES * PAGE_SIZE)) := by
    rw [pageStores, if_pos (hstuff _ (by decide)), mem_stuffIndices]
    exact ⟨by decide, by decide, .inr (show INODE_PAGES ≤ 0 + pagesIn wideZone by decide)⟩
  refine ⟨hmem, fun h => Nat.lt_irrefl _ (h.1 _ hmem), ?_⟩
  exact pageStores_lt_iff.mpr (fun _ => .inl (show INODE_PAGES * PAGE_SIZE - 1 < _ by decide))

end FsState

end Koowaldah
