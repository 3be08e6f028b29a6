import Koowaldah.Fs.Cpio
import Koowaldah.Fs.LongName
import Koowaldah.Fs.Read

/-!
# Unpacking an archive

`cpio_read` makes one call of `fs_insert_entry` for an entry of the archive.  This module
says when the tree has all the entries in the end.

The result is `unpackOk_iff`.  For an entry that does not fit, `Progress.fits_of_found`
uses that its path stays unreachable.

An entry does not fit when its name or its directory is too long for a buffer, when it has
the name that ends an archive, or when its body fills all the pages of an inode, since
`fs_stuff_inode` takes one page more.
-/

namespace Koowaldah

open SysLib SysLib.Dyadic

/-! ## Pages for the bodies -/

section Stuff

variable {z z' : Zone} {mem mem' : ByteMem} {pages pages' : List Nat} {src left : Nat}
  {lo hi : Nat} {live : List Block}

theorem stuffLoop_buddy (n : Nat) (h : stuffLoop n z mem pages src left = some (z', mem', pages'))
    (hbuddy : BuddyInv z lo hi (pages.map (Block.mk 0) ++ live)) :
    BuddyInv z' lo hi (pages'.map (Block.mk 0) ++ live) := by
  induction n generalizing z mem pages src left with
  | zero =>
    cases h
    exact hbuddy
  | succ n ih =>
    obtain ⟨-, pg, hpg, hrest⟩ := stuffLoop_succ_eq_some h
    exact ih hrest (hbuddy.addPage hpg)

theorem stuffLoop_canAlloc (n : Nat) {m : Nat}
    (h : stuffLoop n z mem pages src left = some (z', mem', pages'))
    (hcan : z.CanAlloc (n + m)) : z'.CanAlloc m := by
  induction n generalizing z mem pages src left with
  | zero =>
    cases h
    rwa [Nat.zero_add] at hcan
  | succ n ih =>
    obtain ⟨-, pg, -, hrest⟩ := stuffLoop_succ_eq_some h
    rw [Nat.add_right_comm] at hcan
    exact ih hrest hcan.2

theorem Zone.CanAlloc.mono {n m : Nat} (h : z.CanAlloc (n + m)) : z.CanAlloc n := by
  induction n generalizing z with
  | zero => exact trivial
  | succ n ih =>
    rw [Nat.add_right_comm] at h
    exact ⟨h.1, ih h.2⟩

/-- What `fs_stuff_inode` does to the zone and the memory: it takes the pages and stores to
them only. -/
structure Stuffed (z z' : Zone) (mem mem' : ByteMem) (lo hi : Nat) (live : List Block)
    (pages : List Nat) : Prop where
  buddy : BuddyInv z' lo hi (pages.map (Block.mk 0) ++ live)
  same : z.SamePages z'
  frame : ∀ x, (∀ pg ∈ pages, ApartFrom z ⟨0, pg⟩ x 1) → mem' x = mem x

theorem fsStuffInode_stuffed {isChr : Bool} {len : Nat} {file : Inode}
    (h : fsStuffInode z mem isChr src len = some (z', mem', file))
    (hbuddy : BuddyInv z lo hi live) : Stuffed z z' mem mem' lo hi live file.iPages := by
  rcases Option.map_eq_some_iff.mp h with ⟨⟨z₁, mem₁, pages⟩, hloop, heq⟩
  cases heq
  exact ⟨stuffLoop_buddy _ hloop hbuddy, (stuffLoop_extends _ hloop).2.2.1,
    fun x hx => stuffLoop_frame _ hloop hx⟩

theorem fsStuffInode_canAlloc {isChr : Bool} {len m : Nat} {file : Inode}
    (h : fsStuffInode z mem isChr src len = some (z', mem', file))
    (hcan : z.CanAlloc (len / PAGE_SIZE + 1 + m)) : z'.CanAlloc m := by
  rcases Option.map_eq_some_iff.mp h with ⟨⟨z₁, mem₁, pages⟩, hloop, heq⟩
  cases heq
  exact stuffLoop_canAlloc _ hloop hcan

theorem apartFrom_of_outside {pg x n : Nat} (hlo : lo ≤ pg) (hhi : pg < hi)
    (hx : x + n ≤ pageToAddr z lo ∨ pageToAddr z hi ≤ x) : ApartFrom z ⟨0, pg⟩ x n := by
  have hfirst : lo * PAGE_SIZE ≤ pg * PAGE_SIZE := Nat.mul_le_mul_right _ hlo
  have hlast : (pg + 1) * PAGE_SIZE ≤ hi * PAGE_SIZE := Nat.mul_le_mul_right _ hhi
  rw [Nat.add_mul] at hlast
  rw [apartFrom_page]
  unfold pageToAddr at *
  omega

theorem BuddyInv.page_ne {A B : List Block} (h : BuddyInv z lo hi (A ++ B)) {p q : Nat}
    (hp : ⟨0, p⟩ ∈ A) (hq : ⟨0, q⟩ ∈ B) : p ≠ q := by
  intro heq
  have hA : 0 < cover A p := cover_pos_iff.mpr ⟨_, hp, Block.start_mem ⟨0, p⟩⟩
  have hB : 0 < cover B p := cover_pos_iff.mpr ⟨_, hq, heq ▸ Block.start_mem ⟨0, q⟩⟩
  have hle := h.piles.cover_le_one p
  rw [cover_append, cover_append] at hle
  omega

end Stuff

namespace FsState

/-! ## What a call does to the memory -/

/-- The archive is in memory, and the pages that are handed out are apart from it.  `mem`
is the memory at the start. -/
structure ArchiveAt (mem : ByteMem) (zone : Zone) (lo hi start stop : Nat) (s : FsState) :
    Prop where
  buddy : ∃ live, BuddyInv s.zone lo hi live
  same : zone.SamePages s.zone
  mem : ∀ x, start ≤ x → x < stop → s.mem x = mem x

variable {s s' : FsState} {parent : Nat} {name : List UInt8} {mode dev : Nat} {buf : Option Nat}
  {len : Nat}

theorem fsAddEntry_file (s : FsState) (parent : Nat) (name : List UInt8) (mode dev : Nat) :
    ((s.fsAddEntry parent name mode dev).1.inodes s.ninodes).iSize = 0 ∧
      ((s.fsAddEntry parent name mode dev).1.inodes s.ninodes).iPages = [] := by
  by_cases hp : parent = s.ninodes
  · subst hp
    simp [fsAddEntry, setInode, setDent, newDirentry, newInode]
  · simp [fsAddEntry, setInode, setDent, newDirentry, newInode, Function.update_of_ne (Ne.symm hp)]

/-- The memory and the new inode after an entry was added: nothing was stored, or
`fs_stuff_inode` stored the contents. -/
theorem insertAt_memory (h : s.insertAt parent name mode dev buf len = some s') :
    (¬Stuffs mode buf len ∧ s'.zone = s.zone ∧ s'.mem = s.mem ∧
        (s'.inodes s.ninodes).iSize = 0 ∧ (s'.inodes s.ninodes).iPages = []) ∨
      ∃ src isChr file, buf = some src ∧ Stuffs mode buf len ∧
        fsStuffInode s.zone s.mem isChr src len = some (s'.zone, s'.mem, file) ∧
        (s'.inodes s.ninodes).iSize = file.iSize ∧
        (s'.inodes s.ninodes).iPages = file.iPages := by
  have hempty := fsAddEntry_file s parent name mode dev
  unfold insertAt at h
  cases buf with
  | none =>
    cases h
    exact .inl ⟨fun h => absurd h.1 (by decide), rfl, rfl, hempty⟩
  | some src =>
    dsimp only at h
    split at h
    · rename_i hstuffs
      rcases stuffInode_eq_some h with ⟨file, hfile, hself, -⟩
      refine .inr ⟨src, _, file, rfl, ⟨rfl, hstuffs⟩, hfile, ?_, ?_⟩
      · exact congrArg FsInode.iSize hself
      · exact congrArg FsInode.iPages hself
    · rename_i hstuffs
      cases h
      exact .inl ⟨fun h => hstuffs h.2, rfl, rfl, hempty⟩

theorem fsInsertEntry_cases {pathname : List UInt8}
    (h : s.fsInsertEntry pathname mode dev buf len = some s') :
    s' = s ∨ ∃ parent name, s.insertAt parent name mode dev buf len = some s' := by
  unfold fsInsertEntry at h
  split at h
  · cases h
  · exact .inl (Option.some.inj h).symm
  · exact .inr ⟨_, _, h⟩

theorem ArchiveAt.fsInsertEntry {mem : ByteMem} {zone : Zone} {lo hi start stop : Nat}
    (hs : ArchiveAt mem zone lo hi start stop s)
    (hout : stop ≤ pageToAddr zone lo ∨ pageToAddr zone hi ≤ start) {pathname : List UInt8}
    (h : s.fsInsertEntry pathname mode dev buf len = some s') :
    ArchiveAt mem zone lo hi start stop s' := by
  rcases fsInsertEntry_cases h with rfl | ⟨parent, name, hinsert⟩
  · exact hs
  rcases insertAt_memory hinsert with ⟨-, hzone, hmem, -⟩ | ⟨src, isChr, file, -, -, hfile, -⟩
  · refine ⟨hzone ▸ hs.buddy, hzone ▸ hs.same, ?_⟩
    intro x hlo hhi
    rw [hmem]
    exact hs.mem x hlo hhi
  · rcases hs.buddy with ⟨live, hbuddy⟩
    have hst := fsStuffInode_stuffed hfile hbuddy
    refine ⟨⟨_, hst.buddy⟩, ⟨hst.same.1.trans hs.same.1, hst.same.2.trans hs.same.2⟩, ?_⟩
    intro x hlo hhi
    rw [hst.frame x, hs.mem x hlo hhi]
    intro pg hpg
    have hbounds := hst.buddy.start_bounds (b := ⟨0, pg⟩)
      (List.mem_append_left _ (List.mem_map.mpr ⟨pg, hpg, rfl⟩))
    apply apartFrom_of_outside hbounds.1 hbounds.2
    rw [pageToAddr_congr hs.same, pageToAddr_congr hs.same]
    omega

end FsState

/-! ## Entries with paths -/

/-- An entry of an archive that is a file, a directory or a character device, and has a
normalized relative path. -/
structure UnpackItem extends CpioEntry where
  path : PathName
  path_rel : path.abs = false
  path_spell : path.spell = name
  kind : S_ISREG mode ∨ S_ISDIR mode ∨ S_ISCHR mode

namespace UnpackItem

/-- The number of pages that `fs_stuff_inode` takes for an entry. -/
def npages (e : UnpackItem) : Nat :=
  if S_ISREG e.mode ∧ e.body.length ≠ 0 then e.body.length / PAGE_SIZE + 1 else 0

/-- When an entry is unpacked: it is not taken for the trailer, its directory and its name
fit in the buffers, and its body takes no more pages than an inode has. -/
structure Fits (e : UnpackItem) : Prop where
  ne_trailer : e.name ≠ TRAILER
  dir_lt : e.path.parent.spell.length < FILENAME_MAX
  last_lt : e.path.last.length < FILENAME_MAX
  body_lt : S_ISREG e.mode → e.body.length < INODE_PAGES * PAGE_SIZE

theorem path_ne (e : UnpackItem) : e.path.comps ≠ [] := by
  intro hnil
  apply e.name_ne
  rw [← e.path_spell]
  unfold PathName.spell
  rw [hnil, e.path_rel]
  rfl

theorem not_reg_of_chr_or_dir {mode : Nat} (h : S_ISCHR mode ∨ S_ISDIR mode) :
    S_ISREG mode = false := by
  unfold S_ISCHR S_ISDIR at h
  simp only [beq_iff_eq] at h
  unfold S_ISREG
  rcases h with h | h <;> rw [h] <;> decide

theorem stuffs_iff (e : UnpackItem) (t : Nat) :
    FsState.Stuffs e.mode (e.call false t).buf (e.call false t).len ↔
      S_ISREG e.mode ∧ e.body.length ≠ 0 := by
  unfold FsState.Stuffs CpioEntry.call
  by_cases hkind : (!S_ISCHR e.mode && !S_ISDIR e.mode) = true
  · rw [if_pos hkind]
    simp
  · have hor : S_ISCHR e.mode = true ∨ S_ISDIR e.mode = true := by
      by_contra hor
      rw [not_or] at hor
      simp [hor] at hkind
    simp [not_reg_of_chr_or_dir hor]

end UnpackItem

namespace FsState

/-- The entry `d` is the one that is encoded: the mode, the device, the size, and pages that
hold the body. -/
structure Holding (s : FsState) (e : CpioEntry) (d : Nat) : Prop where
  mode : (s.inodeOf d).iMode = e.mode
  dev : S_ISCHR e.mode → (s.inodeOf d).iDev = e.device
  size : (s.inodeOf d).iSize = e.body.length
  room : e.body.length ≤ (s.inodeOf d).iPages.length * PAGE_SIZE
  body : Holds s.zone s.mem (s.inodeOf d).iPages (fun k => e.body.getD k 0) e.body.length

def HasDir (s : FsState) (p : PathName) : Prop :=
  ∃ d, s.lookupPath p.spell = some (some d) ∧ S_ISDIR (s.inodeOf d).iMode

/-- What the state is when the entries of `done` are unpacked.  `live` are the piles in
use, the pages of the new files among them. -/
structure Progress (s s₁ : FsState) (lo hi : Nat) (live : List Block)
    (done : List UnpackItem) : Prop where
  tree : s₁.RootTree
  nDent : s₁.nDent = s.nDent
  ndents : s₁.ndents = s.ndents + done.length
  old : ∀ q d, follow s.child s.nDent q = some d → follow s₁.child s.nDent q = some d ∧
    (s₁.inodeOf d).iMode = (s.inodeOf d).iMode
  new : ∀ q d, follow s₁.child s.nDent q = some d →
    q ∈ done.map (·.path.comps) ∨ follow s.child s.nDent q = some d
  found : ∀ e ∈ done, ∃ d, follow s₁.child s.nDent e.path.comps = some d ∧
    s₁.Holding e.toCpioEntry d ∧ ∀ pg ∈ (s₁.inodeOf d).iPages, ⟨0, pg⟩ ∈ live
  buddy : BuddyInv s₁.zone lo hi live

variable {s s₁ s₂ : FsState} {p : PathName} {mode dev : Nat} {buf : Option Nat} {len : Nat}

theorem RootTree.lookupPath_eq_some_iff (hs : s.RootTree) (p : PathName) (d : Nat) :
    s.lookupPath p.spell = some (some d) ↔ follow s.child s.nDent p.comps = some d := by
  rw [hs.lookupPath_spell]
  constructor
  · exact follow_of_lookupResult
  · intro h
    apply lookupResult_of_some _ h
    intro c hc
    exact hs.length_lt_of_follow h c (List.mem_of_mem_dropLast hc)

theorem RootTree.lookupPath_eq_none (hs : s.RootTree) {e : Nat}
    (hparent : follow s.child s.nDent p.parent.comps = some e)
    (h : follow s.child s.nDent p.comps = none) : s.lookupPath p.spell = some none := by
  have hshort : p.comps.dropLast.all (·.length < FILENAME_MAX) = true := by
    rw [List.all_eq_true]
    intro c hc
    exact decide_eq_true (hs.length_lt_of_follow hparent c hc)
  rw [hs.lookupPath_spell]
  unfold lookupResult
  rw [if_pos hshort, h]

theorem RootTree.fsInsertEntry_of_relative (hs : s.RootTree) (hrel : p.abs = false)
    (hne : p.comps ≠ []) {e : Nat}
    (hparent : s.lookupPath p.parent.spell = some (some e))
    (hnew : s.lookupPath p.spell = some none) (mode dev : Nat) (buf : Option Nat) (len : Nat) :
    s.fsInsertEntry p.spell mode dev buf len =
      if p.parent.spell.length < FILENAME_MAX then
        s.insertAt (s.dents e).dInode p.last mode dev buf len
      else none := by
  by_cases htop : p.parent.comps = []
  · have hroot : s.nDent = e := by
      rw [lookupPath_spell_eq, if_pos htop] at hparent
      exact Option.some.inj (Option.some.inj hparent)
    have hspell : p.spell = p.last := by
      rw [PathName.spell_of_top hne htop, hrel]
      rfl
    have hlen : p.parent.spell.length < FILENAME_MAX := by
      unfold PathName.spell
      rw [htop]
      split <;> decide
    rw [fsInsertEntry_of_top hne htop hnew, ← hroot, hs.root, hspell, if_pos hlen]
  · exact fsInsertEntry_of_nested hne htop hnew hparent mode dev buf len

/-! ## One entry -/

theorem SameEntry.fields {d : Nat} (h : s.SameEntry s₁ d) :
    (s₁.inodeOf d).iMode = (s.inodeOf d).iMode ∧ (s₁.inodeOf d).iDev = (s.inodeOf d).iDev ∧
      (s₁.inodeOf d).iSize = (s.inodeOf d).iSize ∧
      (s₁.inodeOf d).iPages = (s.inodeOf d).iPages := by
  have hfields := h.2
  simp only [FsInode.mk.injEq] at hfields
  rcases hfields with ⟨-, -, hmode, hdev, hsize, hpages, -⟩
  exact ⟨hmode, hdev, hsize, hpages⟩

theorem Holding.congr {e : CpioEntry} {d : Nat} (h : s.Holding e d) (hsame : s.SameEntry s₁ d)
    (hzone : s.zone.SamePages s₁.zone)
    (hmem : ∀ pg ∈ (s.inodeOf d).iPages, ∀ x, pageToAddr s.zone pg ≤ x →
      x < pageToAddr s.zone pg + PAGE_SIZE → s₁.mem x = s.mem x) : s₁.Holding e d := by
  rcases hsame.fields with ⟨hmode, hdev, hsize, hpages⟩
  constructor
  case mode => rw [hmode, h.mode]
  case dev =>
    intro hchr
    rw [hdev, h.dev hchr]
  case size => rw [hsize, h.size]
  case room =>
    rw [hpages]
    exact h.room
  case body =>
    rw [hpages]
    exact h.body.congr hzone hmem

theorem bytesAt_getD {mem : ByteMem} {a : Nat} {l : List UInt8} (h : BytesAt mem a l) {k : Nat}
    (hk : k < l.length) : mem (a + k) = l.getD k 0 := by
  have hget := readBytes_getElem? mem a l.length k
  rw [h, if_pos hk] at hget
  rw [List.getD_eq_getElem?_getD, hget]
  rfl

/-- What the call for an entry does to the memory: it takes its pages from the zone, leaves
those in use alone, and stores the body. -/
structure ItemStored (s s₁ : FsState) (lo hi : Nat) (live live' : List Block)
    (e : UnpackItem) : Prop where
  buddy : BuddyInv s₁.zone lo hi live'
  subset : ∀ b ∈ live, b ∈ live'
  same : s.zone.SamePages s₁.zone
  frame : ∀ pg, ⟨0, pg⟩ ∈ live → ∀ x, pageToAddr s.zone pg ≤ x →
    x < pageToAddr s.zone pg + PAGE_SIZE → s₁.mem x = s.mem x
  size : (s₁.inodes s.ninodes).iSize = e.body.length
  room : e.body.length ≤ (s₁.inodes s.ninodes).iPages.length * PAGE_SIZE
  body : Holds s₁.zone s₁.mem (s₁.inodes s.ninodes).iPages (fun k => e.body.getD k 0)
    e.body.length
  live : ∀ pg ∈ (s₁.inodes s.ninodes).iPages, ⟨0, pg⟩ ∈ live'

variable {parent lo hi t m : Nat} {name : List UInt8} {live : List Block} {e : UnpackItem}

section

variable (hbuddy : BuddyInv s.zone lo hi live)

include hbuddy

theorem itemStored_of_empty
    (hstuffs : ¬(S_ISREG e.mode ∧ e.body.length ≠ 0)) (hzone : s₁.zone = s.zone)
    (hmem : s₁.mem = s.mem) (hsize : (s₁.inodes s.ninodes).iSize = 0)
    (hpages : (s₁.inodes s.ninodes).iPages = []) : ItemStored s s₁ lo hi live live e := by
  have hlen : e.body.length = 0 := by
    by_contra hlen
    have hreg : ¬S_ISREG e.mode = true := fun hreg => hstuffs ⟨hreg, hlen⟩
    rcases e.kind with hk | hk | hk
    · exact hreg hk
    · exact hlen (by rw [e.body_nil (.inr hk)]; rfl)
    · exact hlen (by rw [e.body_nil (.inl hk)]; rfl)
  constructor
  case buddy => exact hzone ▸ hbuddy
  case subset => exact fun _ hb => hb
  case same => exact ⟨congrArg Zone.base hzone, congrArg Zone.totalPages hzone⟩
  case frame =>
    intro _ _ _ _ _
    rw [hmem]
  case size => rw [hsize, hlen]
  case room =>
    rw [hlen]
    exact Nat.zero_le _
  case body =>
    rw [hpages]
    intro i pg hpg
    simp at hpg
  case live =>
    rw [hpages]
    nofun

theorem itemStored_of_stuffed {src : Nat} {isChr : Bool} {file : Inode}
    (hfile : fsStuffInode s.zone s.mem isChr src e.body.length = some (s₁.zone, s₁.mem, file))
    (hat : BytesAt s.mem src e.body)
    (hout : src + e.body.length ≤ pageToAddr s.zone lo ∨ pageToAddr s.zone hi ≤ src)
    (hsize : (s₁.inodes s.ninodes).iSize = file.iSize)
    (hpages : (s₁.inodes s.ninodes).iPages = file.iPages) :
    ItemStored s s₁ lo hi live (file.iPages.map (Block.mk 0) ++ live) e := by
  have hst := fsStuffInode_stuffed hfile hbuddy
  have hlive : ∀ pg ∈ file.iPages, ⟨0, pg⟩ ∈ file.iPages.map (Block.mk 0) ++ live := by
    intro pg hpg
    exact List.mem_append_left _ (List.mem_map.mpr ⟨pg, hpg, rfl⟩)
  have hapart : ∀ pg ∈ file.iPages, ApartFrom s.zone ⟨0, pg⟩ src e.body.length := by
    intro pg hpg
    have hbounds := hst.buddy.start_bounds (hlive pg hpg)
    exact apartFrom_of_outside hbounds.1 hbounds.2 hout
  have hspec := (fsStuffInode_spec hbuddy hfile hapart).1
  constructor
  case buddy => exact hst.buddy
  case subset => exact fun b hb => List.mem_append_right _ hb
  case same => exact hst.same
  case frame =>
    intro pg hpg x hlo hhi
    apply hst.frame
    intro q hq
    have hne := hst.buddy.page_ne (List.mem_map.mpr ⟨q, hq, rfl⟩) hpg
    rw [apartFrom_page]
    unfold pageToAddr PAGE_SIZE at *
    omega
  case size =>
    rw [hsize]
    exact hspec.size
  case room =>
    have hlen : file.iPages.length = e.body.length / PAGE_SIZE + 1 := hspec.pages
    rw [hpages, hlen]
    unfold PAGE_SIZE
    omega
  case body =>
    rw [hpages]
    intro i pg hpg j hj hlt
    have hbyte := hspec.holds i pg hpg j hj hlt
    dsimp only at hbyte
    rw [hbyte]
    exact bytesAt_getD hat hlt
  case live =>
    rw [hpages]
    exact hlive

theorem insertAt_itemStored (hat : BytesAt s.mem t (e.encode false))
    (hout : t + (e.encode false).length ≤ pageToAddr s.zone lo ∨ pageToAddr s.zone hi ≤ t)
    (hcall : s.insertAt parent name e.mode dev (e.call false t).buf (e.call false t).len =
      some s₁) (hcan : s.zone.CanAlloc (e.npages + m)) :
    (∃ live', ItemStored s s₁ lo hi live live' e) ∧ s₁.zone.CanAlloc m := by
  rcases insertAt_memory hcall with
    ⟨hstuffs, hzone, hmem, hsize, hpages⟩ | ⟨src, isChr, file, hbuf, hstuffs, hfile, hsize, hpages⟩
  · rw [e.stuffs_iff] at hstuffs
    unfold UnpackItem.npages at hcan
    rw [if_neg hstuffs, Nat.zero_add] at hcan
    exact ⟨⟨live, itemStored_of_empty hbuddy hstuffs hzone hmem hsize hpages⟩, hzone ▸ hcan⟩
  · rw [e.stuffs_iff] at hstuffs
    unfold UnpackItem.npages at hcan
    rw [if_pos hstuffs] at hcan
    have hkind : (!S_ISCHR e.mode && !S_ISDIR e.mode) = true := by
      by_contra hkind
      exact hstuffs.2 (by rw [e.body_eq_nil hkind]; rfl)
    unfold CpioEntry.call at hbuf hfile
    rw [if_pos hkind] at hbuf hfile
    cases hbuf
    refine ⟨⟨_, itemStored_of_stuffed hbuddy hfile (CpioEntry.bytesAt_encode hat).2.2 ?_ hsize
      hpages⟩, fsStuffInode_canAlloc hfile hcan⟩
    rw [e.encode_length] at hout
    have hle : e.body.length ≤ (padded e.body).length := by
      unfold padded
      rw [List.length_append]
      omega
    omega

end

/-- What is asked of an entry when those of `done` are unpacked: its name is new and its
directory is there. -/
structure Admitted (s : FsState) (done : List UnpackItem) (e : UnpackItem) : Prop where
  absent : ∀ d, s.lookupPath e.path.spell ≠ some (some d)
  fresh : e.path.comps ∉ done.map (·.path.comps)
  dir : s.HasDir e.path.parent ∨
    ∃ d ∈ done, d.path.comps = e.path.parent.comps ∧ S_ISDIR d.mode

section Progress

variable {done : List UnpackItem} (hp : Progress s s₁ lo hi live done) (hs : s.RootTree)
include hp hs

theorem Progress.follow_eq_none (he : s.Admitted done e) :
    follow s₁.child s.nDent e.path.comps = none := by
  cases hfollow : follow s₁.child s.nDent e.path.comps with
  | none => rfl
  | some d =>
    rcases hp.new _ _ hfollow with hmem | hold
    · exact absurd hmem he.fresh
    · exact absurd ((hs.lookupPath_eq_some_iff _ _).mpr hold) (he.absent d)

theorem Progress.exists_dir (he : s.Admitted done e) :
    ∃ d, follow s₁.child s.nDent e.path.parent.comps = some d ∧
      S_ISDIR (s₁.inodeOf d).iMode := by
  rcases he.dir with ⟨d, hd, hdir⟩ | ⟨x, hx, hcomps, hdir⟩
  · rcases hp.old _ _ ((hs.lookupPath_eq_some_iff _ _).mp hd) with ⟨hfollow, hmode⟩
    exact ⟨d, hfollow, hmode ▸ hdir⟩
  · rcases hp.found x hx with ⟨d, hfollow, hhold, -⟩
    refine ⟨d, hcomps ▸ hfollow, ?_⟩
    rw [hhold.mode]
    exact hdir

theorem Progress.fsInsertEntry_eq (he : s.Admitted done e) {d : Nat}
    (hd : follow s₁.child s.nDent e.path.parent.comps = some d) (mode dev : Nat)
    (buf : Option Nat) (len : Nat) :
    s₁.fsInsertEntry e.name mode dev buf len =
      if e.path.parent.spell.length < FILENAME_MAX then
        s₁.insertAt (s₁.dents d).dInode e.path.last mode dev buf len
      else none := by
  have hnone := hp.follow_eq_none hs he
  rw [← hp.nDent] at hd hnone
  rw [← e.path_spell]
  exact hp.tree.fsInsertEntry_of_relative e.path_rel e.path_ne
    ((hp.tree.lookupPath_eq_some_iff _ _).mpr hd) (hp.tree.lookupPath_eq_none hd hnone) mode dev
    buf len

/-- An entry that is added and stored is unpacked, and the others are as they were. -/
theorem Progress.concat {live' : List Block} (he : s.Admitted done e)
    (hlen : e.path.last.length < FILENAME_MAX) {d : Nat}
    (hd : follow s₁.child s.nDent e.path.parent.comps = some d)
    (hdir : S_ISDIR (s₁.inodeOf d).iMode)
    (hadd : Added s₁ s₂ (s₁.dents d).dInode e.path.last e.mode dev)
    (hdev : S_ISCHR e.mode → dev = e.device) (hst : ItemStored s₁ s₂ lo hi live live' e) :
    Progress s s₂ lo hi live' (done ++ [e]) := by
  have hlast := PathName.last_ok e.path_ne
  have hcomps := PathName.comps_eq e.path_ne
  have hnone := hp.follow_eq_none hs he
  rw [hcomps, follow_concat, hd] at hnone
  have hroot := hp.tree.nDent_lt
  rw [hp.nDent] at hroot
  have hlt := hp.tree.follow_lt hroot hd
  have hleaf := hadd.addLeaf hp.tree hlt hdir hnone hlast.nul hlen
  have htree := hp.tree.isTree
  rw [hp.nDent] at hleaf htree
  have hsame : ∀ q x, follow s₁.child s.nDent q = some x → s₁.SameEntry s₂ x := by
    intro q x hq
    exact hadd.sameEntry hp.tree (hp.tree.follow_lt hroot hq)
  constructor
  case tree =>
    exact hadd.rootTree hp.tree (hp.tree.dInode_lt d hlt) hlast.nul hlen
  case nDent => rw [hadd.nDent, hp.nDent]
  case ndents =>
    rw [hadd.ndents, hp.ndents, List.length_append, List.length_singleton, Nat.add_assoc]
  case old =>
    intro q x hq
    rcases hp.old q x hq with ⟨hq', hmode⟩
    exact ⟨hleaf.follow_of_some hq', ((hsame q x hq').fields.1).trans hmode⟩
  case new =>
    intro q x hq
    rw [List.map_append, List.mem_append]
    rcases hleaf.follow_cases htree hd hq with heq | hq
    · rw [heq, ← hcomps]
      exact .inl (.inr (List.mem_singleton_self _))
    · rcases hp.new q x hq with hmem | hold
      · exact .inl (.inl hmem)
      · exact .inr hold
  case found =>
    intro x hx
    rcases List.mem_append.mp hx with hx | hx
    · rcases hp.found x hx with ⟨k, hk, hhold, hpages⟩
      refine ⟨k, hleaf.follow_of_some hk, hhold.congr (hsame _ k hk) hst.same ?_, ?_⟩
      · intro pg hpg
        exact hst.frame pg (hpages pg hpg)
      · rw [(hsame _ k hk).fields.2.2.2]
        intro pg hpg
        exact hst.subset _ (hpages pg hpg)
    · rw [List.mem_singleton.mp hx, hcomps]
      have hinode : s₂.inodeOf s₁.ndents = s₂.inodes s₁.ninodes := by
        unfold inodeOf
        rw [hadd.dents_new]
      refine ⟨s₁.ndents, hleaf.follow_new hd, ?_, ?_⟩
      · constructor
        case mode => rw [hinode, hadd.mode_new]
        case dev =>
          intro hchr
          rw [hinode, hadd.dev_new, hdev hchr]
        case size => rw [hinode, hst.size]
        case room =>
          rw [hinode]
          exact hst.room
        case body =>
          rw [hinode]
          exact hst.body
      · rw [hinode]
        exact hst.live
  case buddy => exact hst.buddy

end Progress

end FsState

namespace CpioEntry

variable (e : CpioEntry) (t : Nat)

theorem call_name : (e.call false t).name = e.name := by
  unfold call
  split <;> rfl

theorem call_mode : (e.call false t).mode = e.mode := by
  unfold call
  split <;> rfl

theorem call_len : (e.call false t).len = e.body.length := by
  unfold call
  split
  · rfl
  · rename_i hkind
    rw [e.body_eq_nil hkind]
    rfl

theorem call_dev (h : S_ISCHR e.mode) : (e.call false t).dev = e.device := by
  unfold call
  rw [if_neg (by simp [h])]
  rfl

end CpioEntry

namespace FsState

variable {s s₁ s₂ : FsState} {lo hi t m : Nat} {live : List Block} {e : UnpackItem}
  {done : List UnpackItem}

/-- `fs_insert_entry`, on what `cpio_read` gives it. -/
def insertCall (s : FsState) (c : InsertCall) : Option FsState :=
  s.fsInsertEntry c.name c.mode c.dev c.buf c.len

theorem hasPages_of_fits (hbody : S_ISREG e.mode → e.body.length < INODE_PAGES * PAGE_SIZE)
    (hcan : s.zone.CanAlloc (e.npages + m)) :
    s.HasPages e.mode (e.call false t).buf (e.call false t).len := by
  intro hstuffs
  have hstuffs' := (e.stuffs_iff t).mp hstuffs
  have hlt := hbody hstuffs'.1
  unfold UnpackItem.npages at hcan
  rw [if_pos hstuffs'] at hcan
  rw [e.call_len]
  exact ⟨Nat.div_lt_of_lt_mul (Nat.mul_comm _ _ ▸ hlt), hcan.mono⟩

theorem Progress.step (hp : Progress s s₁ lo hi live done) (hs : s.RootTree)
    (he : s.Admitted done e) (hfits : e.Fits) (hat : BytesAt s₁.mem t (e.encode false))
    (hout : t + (e.encode false).length ≤ pageToAddr s₁.zone lo ∨ pageToAddr s₁.zone hi ≤ t)
    (hcan : s₁.zone.CanAlloc (e.npages + m)) :
    ∃ s₂ live', s₁.insertCall (e.call false t) = some s₂ ∧
      Progress s s₂ lo hi live' (done ++ [e]) ∧ s₂.zone.CanAlloc m := by
  rcases hp.exists_dir hs he with ⟨d, hd, hdir⟩
  have hpages : s₁.HasPages e.mode (e.call false t).buf (e.call false t).len :=
    hasPages_of_fits hfits.body_lt hcan
  have hsome : (s₁.insertAt (s₁.dents d).dInode e.path.last e.mode (e.call false t).dev
      (e.call false t).buf (e.call false t).len).isSome := insertAt_isSome_iff.mpr hpages
  rcases Option.isSome_iff_exists.mp hsome with ⟨s₂, hs₂⟩
  have hroot := hp.tree.nDent_lt
  rw [hp.nDent] at hroot
  have hadd := insertAt_added (hp.tree.dInode_lt d (hp.tree.follow_lt hroot hd)) hs₂
  rcases insertAt_itemStored hp.buddy hat hout hs₂ hcan with ⟨⟨live', hst⟩, hcan'⟩
  refine ⟨s₂, live', ?_, ?_, hcan'⟩
  · unfold insertCall
    rw [e.call_name, e.call_mode, hp.fsInsertEntry_eq hs he hd, if_pos hfits.dir_lt, hs₂]
  · exact hp.concat hs he hfits.last_lt hd hdir hadd (e.call_dev t) hst

/-! ## A whole archive -/

theorem cpioCalls_append (reverse : Bool) (t : Nat) (es fs : List CpioEntry) :
    cpioCalls reverse t (es ++ fs) = cpioCalls reverse t es ++
      cpioCalls reverse (t + (es.flatMap (CpioEntry.encode reverse)).length) fs := by
  induction es generalizing t with
  | nil => rfl
  | cons e es ih =>
    rw [List.cons_append, cpioCalls, cpioCalls, ih, List.flatMap_cons, List.length_append,
      Nat.add_assoc]
    rfl

/-- What an archive asks of the tree: the names are different and new, and the directory of
an entry is there or in front of it. -/
structure Unpackable (s : FsState) (es : List UnpackItem) : Prop where
  tree : s.RootTree
  nodup : (es.map (·.name)).Nodup
  absent : ∀ e ∈ es, ∀ d, s.lookupPath e.name ≠ some (some d)
  dir : ∀ pre e post, es = pre ++ e :: post → s.HasDir e.path.parent ∨
    ∃ d ∈ pre, d.path.comps = e.path.parent.comps ∧ S_ISDIR d.mode

/-- The archive is in memory, apart from the pages of the zone, and there are pages for the
bodies. -/
structure ArchiveIn (s : FsState) (start rootfsEnd lo hi : Nat) (es : List UnpackItem)
    (trailer : CpioEntry) : Prop where
  trailer_name : trailer.name = TRAILER
  image : BytesAt s.mem start (cpioImage false (es.map (·.toCpioEntry)) trailer)
  image_le : start + (cpioImage false (es.map (·.toCpioEntry)) trailer).length ≤ rootfsEnd
  end_le : rootfsEnd ≤ WORD_RANGE
  buddy : ∃ live, BuddyInv s.zone lo hi live
  apart : rootfsEnd ≤ pageToAddr s.zone lo ∨ pageToAddr s.zone hi ≤ start
  pages : s.zone.CanAlloc (es.map (·.npages)).sum

/-- What `cpio_read` is for: it returns 0, every entry of the archive is found and is the one
that was encoded, and no other entry was added. -/
def UnpackOk (s : FsState) (start rootfsEnd : Nat) (es : List UnpackItem) : Prop :=
  ∃ rounds s', s.cpioRead start rootfsEnd rounds = some (some (s', 0)) ∧
    (∀ e ∈ es, ∃ d, s'.lookupPath e.name = some (some d) ∧ s'.Holding e.toCpioEntry d) ∧
    s'.ndents = s.ndents + es.length ∧
    ∀ (q : PathName) d, s'.lookupPath q.spell = some (some d) →
      q.comps ∈ es.map (·.path.comps) ∨ s.lookupPath q.spell = some (some d)

variable {es : List UnpackItem} {start rootfsEnd : Nat} {trailer : CpioEntry}

theorem Unpackable.admitted (h : s.Unpackable es) {pre post : List UnpackItem}
    (hes : es = pre ++ e :: post) : s.Admitted pre e := by
  refine ⟨?_, ?_, h.dir pre e post hes⟩
  · rw [e.path_spell]
    apply h.absent
    rw [hes]
    exact List.mem_append_right _ List.mem_cons_self
  · intro hmem
    rcases List.mem_map.mp hmem with ⟨x, hx, hcomps⟩
    have hname : x.name = e.name := by
      rw [← x.path_spell, ← e.path_spell]
      unfold PathName.spell
      rw [hcomps, x.path_rel, e.path_rel]
    have hnodup := h.nodup
    rw [hes, List.map_append, List.nodup_append] at hnodup
    exact hnodup.2.2 x.name (List.mem_map.mpr ⟨x, hx, rfl⟩) e.name List.mem_cons_self hname

/-- The entries up to the first one with the name `TRAILER!!!`. -/
def front (es : List UnpackItem) : List UnpackItem := es.takeWhile (fun e => e.name ≠ TRAILER)

theorem exists_front_image (es : List UnpackItem) (htrailer : trailer.name = TRAILER) :
    ∃ last : CpioEntry, last.name = TRAILER ∧ ∃ rest,
      cpioImage false (es.map (·.toCpioEntry)) trailer =
        cpioImage false ((front es).map (·.toCpioEntry)) last ++ rest := by
  have hsplit : front es ++ es.dropWhile (fun e => e.name ≠ TRAILER) = es :=
    List.takeWhile_append_dropWhile
  cases hdrop : es.dropWhile (fun e => e.name ≠ TRAILER) with
  | nil =>
    rw [hdrop, List.append_nil] at hsplit
    exact ⟨trailer, htrailer, [], by rw [hsplit, List.append_nil]⟩
  | cons b post =>
    have hb : b.name = TRAILER := by
      have hhead := List.head?_dropWhile_not (fun e : UnpackItem => decide (e.name ≠ TRAILER)) es
      rw [hdrop] at hhead
      simpa using hhead
    rw [hdrop] at hsplit
    refine ⟨b.toCpioEntry, hb, (post.map (·.toCpioEntry)).flatMap (CpioEntry.encode false) ++
      trailer.encode false, ?_⟩
    unfold cpioImage
    nth_rewrite 1 [← hsplit]
    rw [List.map_append, List.map_cons, List.flatMap_append, List.flatMap_cons]
    simp only [List.append_assoc]

theorem ArchiveIn.cpioRead_eq (h : s.ArchiveIn start rootfsEnd lo hi es trailer) {n : Nat}
    (hn : es.length < n) : s.cpioRead start rootfsEnd n =
      some (((cpioCalls false start ((front es).map (·.toCpioEntry))).foldlM insertCall s).map
        (fun s => (s, 0))) := by
  rcases exists_front_image es h.trailer_name with ⟨last, hlast, rest, himage⟩
  have hat := h.image
  have hle := h.image_le
  rw [himage, List.length_append] at hle
  rw [himage, bytesAt_append] at hat
  have hnames : ∀ e ∈ (front es).map (·.toCpioEntry), e.name ≠ TRAILER := by
    intro e he
    rcases List.mem_map.mp he with ⟨x, hx, rfl⟩
    simpa using List.mem_takeWhile_imp hx
  have hlen : ((front es).map (·.toCpioEntry)).length < n := by
    have hpre : front es <+: es := List.takeWhile_prefix _
    rw [List.length_map]
    exact Nat.lt_of_le_of_lt hpre.length_le hn
  apply cpioReadWith_image FsState.mem _ (ArchiveAt s.mem s.zone lo hi start rootfsEnd)
    (fun s₁ hs₁ => hs₁.mem) _ (Nat.le_refl _) h.end_le hlast hnames _ (by omega) hat.1 hlen
  · intro s₁ call s₂ hs₁ hcall
    exact hs₁.fsInsertEntry h.apart hcall
  · exact ⟨h.buddy, ⟨rfl, rfl⟩, fun _ _ _ => rfl⟩

theorem ArchiveIn.foldlM_of_cpioRead (h : s.ArchiveIn start rootfsEnd lo hi es trailer)
    {rounds : Nat} {s' : FsState}
    (hread : s.cpioRead start rootfsEnd rounds = some (some (s', 0))) :
    (cpioCalls false start ((front es).map (·.toCpioEntry))).foldlM insertCall s = some s' := by
  have hmore := cpioLoop_mono hread (es.length + 1)
  have heq := hmore.symm.trans (h.cpioRead_eq (n := rounds + (es.length + 1)) (by omega))
  rcases Option.map_eq_some_iff.mp (Option.some.inj heq).symm with ⟨x, hx, hxs⟩
  exact hx.trans (congrArg some (congrArg Prod.fst hxs))

theorem Progress.run (hs : s.RootTree) {mem : ByteMem} {zone : Zone}
    (hout : rootfsEnd ≤ pageToAddr zone lo ∨ pageToAddr zone hi ≤ start)
    (hp : Progress s s₁ lo hi live done) (harchive : ArchiveAt mem zone lo hi start rootfsEnd s₁)
    (hes : ∀ pre e post, es = pre ++ e :: post → s.Admitted (done ++ pre) e)
    (hfits : ∀ e ∈ es, e.Fits) (hlo : start ≤ t)
    (hat : BytesAt mem t ((es.map (·.toCpioEntry)).flatMap (CpioEntry.encode false)))
    (hhi : t + ((es.map (·.toCpioEntry)).flatMap (CpioEntry.encode false)).length ≤ rootfsEnd)
    (hcan : s₁.zone.CanAlloc ((es.map (·.npages)).sum + m)) :
    ∃ s₂ live', (cpioCalls false t (es.map (·.toCpioEntry))).foldlM insertCall s₁ = some s₂ ∧
      Progress s s₂ lo hi live' (done ++ es) ∧ s₂.zone.CanAlloc m ∧
      ArchiveAt mem zone lo hi start rootfsEnd s₂ := by
  induction es generalizing s₁ live done t with
  | nil =>
    rw [List.map_nil, List.sum_nil, Nat.zero_add] at hcan
    rw [List.append_nil]
    exact ⟨s₁, live, rfl, hp, hcan, harchive⟩
  | cons e es ih =>
    rw [List.map_cons, List.flatMap_cons, List.length_append] at hhi
    rw [List.map_cons, List.flatMap_cons, bytesAt_append] at hat
    rw [List.map_cons, List.sum_cons, Nat.add_assoc] at hcan
    have hadmit := hes [] e es rfl
    rw [List.append_nil] at hadmit
    have hat' : BytesAt s₁.mem t (e.encode false) :=
      hat.1.congr (fun x hx hx' => harchive.mem x (by omega) (by omega))
    have hout' : t + (e.encode false).length ≤ pageToAddr s₁.zone lo ∨
        pageToAddr s₁.zone hi ≤ t := by
      rw [pageToAddr_congr harchive.same, pageToAddr_congr harchive.same]
      omega
    rcases hp.step hs hadmit (hfits e List.mem_cons_self) hat' hout' hcan with
      ⟨s₂, live', hcall, hp', hcan'⟩
    have harchive' : ArchiveAt mem zone lo hi start rootfsEnd s₂ :=
      harchive.fsInsertEntry hout hcall
    have hes' : ∀ pre x post, es = pre ++ x :: post → s.Admitted (done ++ [e] ++ pre) x := by
      intro pre x post heq
      rw [List.append_assoc]
      exact hes (e :: pre) x post (by rw [heq, List.cons_append])
    rcases ih hp' harchive' hes' (fun x hx => hfits x (List.mem_cons_of_mem e hx)) (by omega)
      hat.2 (by omega) hcan' with ⟨s₃, live₃, hfold, hp₃, hcan₃, harchive₃⟩
    rw [List.append_assoc] at hp₃
    refine ⟨s₃, live₃, ?_, hp₃, hcan₃, harchive₃⟩
    rw [List.map_cons, cpioCalls, List.foldlM_cons, hcall]
    exact hfold

theorem Progress.nil (hs : s.RootTree) (hbuddy : BuddyInv s.zone lo hi live) :
    Progress s s lo hi live [] :=
  ⟨hs, rfl, rfl, fun _ _ h => ⟨h, rfl⟩, fun _ _ h => .inr h, nofun, hbuddy⟩

theorem ArchiveIn.exists_progress (h : s.ArchiveIn start rootfsEnd lo hi es trailer)
    (hs : s.Unpackable es) {pre post : List UnpackItem} (hes : es = pre ++ post)
    (hfits : ∀ e ∈ pre, e.Fits) :
    ∃ s₁ live, (cpioCalls false start (pre.map (·.toCpioEntry))).foldlM insertCall s = some s₁ ∧
      Progress s s₁ lo hi live pre ∧ s₁.zone.CanAlloc (post.map (·.npages)).sum ∧
      ArchiveAt s.mem s.zone lo hi start rootfsEnd s₁ := by
  rcases h.buddy with ⟨live, hbuddy⟩
  have himage : cpioImage false (es.map (·.toCpioEntry)) trailer =
      (pre.map (·.toCpioEntry)).flatMap (CpioEntry.encode false) ++
        cpioImage false (post.map (·.toCpioEntry)) trailer := by
    unfold cpioImage
    rw [hes, List.map_append, List.flatMap_append, List.append_assoc]
  have hat := h.image
  have hle := h.image_le
  have hpages := h.pages
  rw [himage, List.length_append] at hle
  rw [himage, bytesAt_append] at hat
  rw [hes, List.map_append, List.sum_append] at hpages
  have hadmit : ∀ pre' e post', pre = pre' ++ e :: post' → s.Admitted ([] ++ pre') e := by
    intro pre' e post' heq
    have hsplit : es = ([] ++ pre') ++ e :: (post' ++ post) := by
      rw [hes, heq, List.nil_append, List.append_assoc, List.cons_append]
    exact hs.admitted hsplit
  have hrun := Progress.run hs.tree h.apart (Progress.nil hs.tree hbuddy)
    ⟨⟨live, hbuddy⟩, ⟨rfl, rfl⟩, fun _ _ _ => rfl⟩ hadmit hfits (Nat.le_refl start) hat.1
    (by omega) hpages
  exact hrun

/-! ## The entries that do not fit -/

theorem exists_first_not {α : Type*} {P : α → Prop} {l : List α} (h : ¬∀ x ∈ l, P x) :
    ∃ pre x post, l = pre ++ x :: post ∧ (∀ y ∈ pre, P y) ∧ ¬P x := by
  induction l with
  | nil => exact absurd nofun h
  | cons a l ih =>
    by_cases ha : P a
    · rw [List.forall_mem_cons, not_and] at h
      rcases ih (h ha) with ⟨pre, x, post, heq, hpre, hx⟩
      exact ⟨a :: pre, x, post, by rw [heq, List.cons_append],
        List.forall_mem_cons.mpr ⟨ha, hpre⟩, hx⟩
    · exact ⟨[], a, l, rfl, nofun, ha⟩

theorem Unreachable.calls {p : PathName} {i : Nat} (h : s.Unreachable p i) (hne : p.comps ≠ [])
    (hfold : (cpioCalls false t (es.map (·.toCpioEntry))).foldlM insertCall s = some s₁) :
    s₁.Unreachable p i := by
  induction es generalizing s t with
  | nil => exact Option.some.inj hfold ▸ h
  | cons e es ih =>
    rcases Option.bind_eq_some_iff.mp hfold with ⟨s₂, hcall, hfold⟩
    unfold insertCall at hcall
    rw [e.call_name, ← e.path_spell] at hcall
    exact ih (h.fsInsertEntry hne e.path_rel e.path_ne hcall) hfold

theorem Progress.fits_of_found (hp : Progress s s₁ lo hi live done) (hs : s.RootTree)
    (he : s.Admitted done e) (hname : e.name ≠ TRAILER)
    (hcall : s₁.insertCall (e.call false t) = some s₂) {t' : Nat} (es : List UnpackItem)
    {s' : FsState}
    (hfold : (cpioCalls false t' (es.map (·.toCpioEntry))).foldlM insertCall s₂ = some s')
    {k : Nat} (hfound : s'.lookupPath e.name = some (some k)) : e.Fits := by
  rcases hp.exists_dir hs he with ⟨d, hd, hdir⟩
  have hnone := hp.follow_eq_none hs he
  unfold insertCall at hcall
  rw [e.call_name, e.call_mode, hp.fsInsertEntry_eq hs he hd] at hcall
  rw [← hp.nDent] at hd hnone
  have hlt := hp.tree.follow_lt hp.tree.nDent_lt hd
  split at hcall
  · rename_i hdirlen
    have hadd := insertAt_added (hp.tree.dInode_lt d hlt) hcall
    refine ⟨hname, hdirlen, ?_, ?_⟩
    · by_contra hlen
      have hunreach := hp.tree.unreachable_of_added e.path_ne
        ((hp.tree.lookupPath_eq_some_iff _ _).mpr hd) hdir (hp.tree.lookupPath_eq_none hd hnone)
        hadd hlen
      rw [← e.path_spell] at hfound
      exact (hunreach.calls e.path_ne hfold).lookupPath_ne e.path_ne k hfound
    · intro hreg
      have hpages := insertAt_isSome_iff.mp (Option.isSome_of_eq_some hcall)
      by_cases hbody : e.body.length = 0
      · rw [hbody]
        decide
      · have hlt := (hpages ((e.stuffs_iff t).mpr ⟨hreg, hbody⟩)).1
        rw [e.call_len] at hlt
        exact (Nat.div_lt_iff_lt_mul (by decide)).mp hlt
  · cases hcall

/-- `cpio_read` unpacks an archive when its entries fit, and only then. -/
theorem unpackOk_iff (hs : s.Unpackable es) (h : s.ArchiveIn start rootfsEnd lo hi es trailer) :
    s.UnpackOk start rootfsEnd es ↔ ∀ e ∈ es, e.Fits := by
  constructor
  · intro hok
    rcases hok with ⟨rounds, s', hread, hfound, -, -⟩
    have hfold := h.foldlM_of_cpioRead hread
    by_contra hbad
    -- the first entry that does not fit
    rcases exists_first_not hbad with ⟨pre, e, post, hes, hfits, hnot⟩
    rcases h.exists_progress hs hes hfits with ⟨s₁, live, hpre, hp, -, -⟩
    have hadmit := hs.admitted hes
    have hmem : e ∈ es := hes ▸ List.mem_append_right _ List.mem_cons_self
    rcases hfound e hmem with ⟨k, hk, -⟩
    have hfront : front es = pre ++ front (e :: post) := by
      rw [hes]
      apply List.takeWhile_append_of_pos
      intro x hx
      exact decide_eq_true (hfits x hx).ne_trailer
    rw [hfront, List.map_append, cpioCalls_append, List.foldlM_append, hpre,
      Option.bind_eq_bind, Option.bind_some] at hfold
    by_cases hname : e.name = TRAILER
    · have hnil : front (e :: post) = [] := List.takeWhile_cons_of_neg (by simp [hname])
      rw [hnil] at hfold
      cases hfold
      rw [← e.path_spell, hp.tree.lookupPath_eq_some_iff, hp.nDent,
        hp.follow_eq_none hs.tree hadmit] at hk
      cases hk
    · have hcons : front (e :: post) = e :: front post :=
        List.takeWhile_cons_of_pos (by simp [hname])
      rw [hcons] at hfold
      rcases Option.bind_eq_some_iff.mp hfold with ⟨s₂, hcall, hrest⟩
      exact hnot (hp.fits_of_found hs.tree hadmit hname hcall _ hrest hk)
  · intro hfits
    have hfront : front es = es :=
      List.takeWhile_eq_self_iff.mpr (fun x hx => decide_eq_true (hfits x hx).ne_trailer)
    rcases h.exists_progress hs (List.append_nil es).symm hfits with ⟨s', live, hfold, hp, -, -⟩
    refine ⟨es.length + 1, s', ?_, ?_, hp.ndents, ?_⟩
    · rw [h.cpioRead_eq (Nat.lt_succ_self _), hfront, hfold]
      rfl
    · intro e he
      rcases hp.found e he with ⟨d, hd, hhold, -⟩
      refine ⟨d, ?_, hhold⟩
      rw [← e.path_spell, hp.tree.lookupPath_eq_some_iff, hp.nDent]
      exact hd
    · intro q d hq
      rw [hp.tree.lookupPath_eq_some_iff, hp.nDent] at hq
      rw [hs.tree.lookupPath_eq_some_iff]
      exact hp.new q.comps d hq

end FsState

def fileItem (name body : List UInt8) (hname : PartOk name) (hlt : name.length + 1 < 65536)
    (hbody : body.length < WORD_RANGE) : UnpackItem where
  toCpioEntry :=
    { cpioEntryOf S_IFREG 0 name (by decide) cpioTrailer.rdev_lt hname.ne_nil hname.nul hlt with
    body := body
    body_lt := hbody
    body_nil := fun h =>
      absurd (show S_ISCHR S_IFREG = true ∨ S_ISDIR S_IFREG = true from h) (by decide) }
  path := ⟨false, [name], fun c hc => List.mem_singleton.mp hc ▸ hname⟩
  path_rel := rfl
  path_spell := joined_singleton name
  kind := .inl (show S_ISREG S_IFREG = true by decide)

def shortItem : UnpackItem :=
  fileItem [0x78] [1, 2, 3] ⟨by decide, by decide, by decide, by decide, by decide⟩ (by decide)
    (by decide)

/-- An empty file with a name of 256 characters. -/
def longItem : UnpackItem :=
  fileItem (List.replicate 256 0x78) []
    ⟨by decide +kernel, by decide +kernel, by decide +kernel, by decide +kernel,
      by decide +kernel⟩ (by decide +kernel) cpioTrailer.body_lt

/-- The first tree, with an archive behind the four pages of the zone. -/
def archiveTree (e : UnpackItem) : FsState :=
  FsState.fsInit (memZoneInit (rawZone 4))
    (writeBytes (fun _ => 0) 20000 (cpioImage false [e.toCpioEntry] cpioTrailer))

namespace FsState

theorem archiveTree_unpackable {e : UnpackItem} (htop : e.path.parent.comps = [])
    (hroot : S_ISDIR ((archiveTree e).inodeOf 0).iMode)
    (hnew : (archiveTree e).lookupPath e.name = some none) : (archiveTree e).Unpackable [e] := by
  refine ⟨fsInit_rootTree _ _, List.nodup_singleton _, ?_, ?_⟩
  · intro x hx d
    rw [List.mem_singleton.mp hx, hnew]
    nofun
  · intro pre x post heq
    have hx : x = e := by
      have hmem : x ∈ [e] := heq ▸ List.mem_append_right _ List.mem_cons_self
      exact List.mem_singleton.mp hmem
    refine .inl ⟨0, ?_, hroot⟩
    rw [hx, lookupPath_spell_eq, if_pos htop]
    rfl

theorem archiveTree_archiveIn {e : UnpackItem} (hlen : (e.encode false).length < 2000)
    (hpages : (archiveTree e).zone.CanAlloc e.npages) :
    (archiveTree e).ArchiveIn 20000 30000 1 4 [e] cpioTrailer := by
  have hzone : consumedPages (rawZone 4).totalPages < (rawZone 4).totalPages := by decide
  refine ⟨rfl, readBytes_writeBytes _ _ _, ?_, by decide, ⟨[], memZoneInit_buddy _ hzone⟩, ?_, ?_⟩
  · have himage : cpioImage false ([e].map (·.toCpioEntry)) cpioTrailer =
        e.encode false ++ cpioTrailer.encode false := by
      simp [cpioImage]
    have htrailer : (cpioTrailer.encode false).length = 38 := by decide
    rw [himage, List.length_append]
    omega
  · right
    show pageToAddr (memZoneInit (rawZone 4)) 4 ≤ 20000
    decide
  · simpa using hpages

theorem unpackOk_shortItem : (archiveTree shortItem).UnpackOk 20000 30000 [shortItem] := by
  apply (unpackOk_iff (archiveTree_unpackable rfl (by decide +kernel) (by decide +kernel))
    (archiveTree_archiveIn (by decide) (by exact ⟨by decide +kernel, trivial⟩))).mpr
  intro e he
  rw [List.mem_singleton.mp he]
  exact ⟨by decide, by decide, by decide, fun _ => by decide⟩

/-- A file whose name has 256 characters is not found after it was unpacked. -/
theorem unpack_longItem_not_found : (archiveTree longItem).Unpackable [longItem] ∧
      (archiveTree longItem).ArchiveIn 20000 30000 1 4 [longItem] cpioTrailer ∧
      longItem.name.length = 256 ∧ longItem.body = [] ∧
      ¬(archiveTree longItem).UnpackOk 20000 30000 [longItem] := by
  have hs : (archiveTree longItem).Unpackable [longItem] :=
    archiveTree_unpackable rfl (by decide +kernel) (by decide +kernel)
  have h : (archiveTree longItem).ArchiveIn 20000 30000 1 4 [longItem] cpioTrailer :=
    archiveTree_archiveIn (by decide +kernel) trivial
  refine ⟨hs, h, by decide +kernel, rfl, ?_⟩
  intro hok
  rcases hok with ⟨rounds, s', hread, hfound, -, -⟩
  rcases hfound longItem (List.mem_singleton_self _) with ⟨k, hk, -⟩
  rcases h.buddy with ⟨live, hbuddy⟩
  have hname : longItem.name ≠ TRAILER := by decide
  have hfront : front [longItem] = [longItem] := List.takeWhile_cons_of_pos (by simp [hname])
  have hfold := h.foldlM_of_cpioRead hread
  rw [hfront, List.map_cons, cpioCalls, List.foldlM_cons] at hfold
  rcases Option.bind_eq_some_iff.mp hfold with ⟨s₂, hcall, hrest⟩
  have hfits := (Progress.nil hs.tree hbuddy).fits_of_found hs.tree
    (hs.admitted (List.nil_append _).symm) hname hcall [] hrest hk
  exact absurd hfits.last_lt (by decide +kernel)

end FsState

end Koowaldah
