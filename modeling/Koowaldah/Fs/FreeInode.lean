import Koowaldah.Klist0

/-!
# The names of an inode that is freed

A model of `free_inode` of `kernel/fs/inode.c` and `free_direntry` of
`kernel/fs/namespace.c`, with the nodes of the lists and the counters at their addresses.

The loop of `free_inode` starts at `i_dent`, the head of the list, and takes it for the
`d_idlist` of an entry.  Four bytes in front of it is no entry: it is the inode itself, and
the `d_refcnt` of this entry is `i_map.i_pages[48]`.

`gobj_free` is followed as far as its argument: the memory of an object that was freed stays
as it is.

`IdRing` is what the loop goes on with once the head is unlinked: a ring of entries, with
the head of the list not among them.
-/

namespace Koowaldah

open SysLib SysLib.Links

/-- `offsetof(struct inode, i_dent)`. -/
def OFFSETOF_I_DENT : Nat := 8

/-- `offsetof(struct inode, i_mount)`. -/
def OFFSETOF_I_MOUNT : Nat := 20

/-- `offsetof(struct direntry, d_idlist)`. -/
def OFFSETOF_D_IDLIST : Nat := 4

/-- `offsetof(struct direntry, d_refcnt)`: behind `d_name`. -/
def OFFSETOF_D_REFCNT : Nat := 268

/-- `offsetof(struct direntry, d_siblings)`. -/
def OFFSETOF_D_SIBLINGS : Nat := 272

/-- What `free_inode` hands on: a pointer to `gobj_free`, a mount to `kill_mount`, and the
inode to the `kill_inode` of its superblock. -/
inductive FreeEvent where
  | gobjFree (p : Nat)
  | killMount (mnt : Nat)
  | killInode (inode : Nat)
deriving DecidableEq, Repr

/-- The list nodes and the words of the memory, and what was handed on. -/
structure DentHeap where
  links : Links Nat
  word : Nat → Nat
  log : List FreeEvent

namespace DentHeap

def freeDirentry (h : DentHeap) (dent : Nat) : Option DentHeap :=
  if h.word (dent + OFFSETOF_D_REFCNT) ≠ 0 then none
  else
    some { h with
      links := klist0Unlink (dent + OFFSETOF_D_IDLIST) h.links
      log := h.log ++ [.gobjFree dent] }

/-- A round of the loop of `free_inode`: the heap and the next `t`. -/
def freeRound (h : DentHeap) (t : Nat) : Option (DentHeap × Nat) :=
  let dent := t - OFFSETOF_D_IDLIST
  let next := h.links.next t
  (h.freeDirentry dent).map (fun h => (h, next))

/-- The loop of `free_inode`, with the rounds left to do. -/
def freeNamesLoop (inode : Nat) : Nat → DentHeap → Nat → Option DentHeap
  | 0, _, _ => none
  | n + 1, h, t =>
    match h.freeRound t with
    | none => none
    | some (h, t) => if t = inode + OFFSETOF_I_DENT then some h else freeNamesLoop inode n h t

/-- The part of `free_inode` that removes the entries. -/
def freeNames (h : DentHeap) (inode rounds : Nat) : Option DentHeap :=
  if klist0Empty (inode + OFFSETOF_I_DENT) h.links then some h
  else freeNamesLoop inode rounds h (inode + OFFSETOF_I_DENT)

/-- `kill_mount`.  `m_list` is the first member of a mount. -/
def killMount (h : DentHeap) (mnt : Nat) : DentHeap :=
  { h with links := klist0Unlink mnt h.links, log := h.log ++ [.killMount mnt] }

/-- The part of `free_inode` behind the entries. -/
def kill (h : DentHeap) (inode : Nat) : DentHeap :=
  let mnt := h.word (inode + OFFSETOF_I_MOUNT)
  let h := if mnt ≠ 0 then h.killMount mnt else h
  { h with log := h.log ++ [.killInode inode] }

/-- `free_inode`, in a number of rounds: `none` at a `bug ()`, and when the loop is not over
then. -/
def freeInode (h : DentHeap) (inode rounds : Nat) : Option DentHeap :=
  (h.freeNames inode rounds).map (fun h => h.kill inode)

/-- The names of an inode are gone: each of them was freed, once, nothing else was, and none
is on a list any more.  The other lists have the members they had, but for the `d_siblings`
of the names. -/
structure NamesFreed (h h' : DentHeap) (inode : Nat) (dents : List Nat) : Prop where
  freed : ∃ ps : List Nat, h'.log = h.log ++ ps.map .gobjFree ∧ ps.Perm dents
  idlist : h'.links.IsRing (inode + OFFSETOF_I_DENT) []
  lists : ∀ c xs, h.links.IsRing c xs → c ≠ inode + OFFSETOF_I_DENT →
    (∀ d ∈ dents, c ≠ d + OFFSETOF_D_IDLIST ∧ c ≠ d + OFFSETOF_D_SIBLINGS) →
    h'.links.IsRing c (xs.filter (fun x => x ∉ dents.map (· + OFFSETOF_D_SIBLINGS)))
  word : h'.word = h.word

/-- `free_inode` removes the names of an inode and then kills it. -/
def FreesInode (h : DentHeap) (inode : Nat) (dents : List Nat) : Prop :=
  ∃ rounds h', h.freeNames inode rounds = some h' ∧ h.NamesFreed h' inode dents ∧
    h.freeInode inode rounds = some (h'.kill inode)

end DentHeap

/-! ## The loop -/

/-- The rest of the names: a ring that the head of the list is not in, of entries that are
not in use. -/
structure IdRing (h : DentHeap) (inode t : Nat) (ts : List Nat) : Prop where
  ring : h.links.IsRing t ts
  head : inode + OFFSETOF_I_DENT ∉ t :: ts
  unused : ∀ x ∈ t :: ts, h.word (x - OFFSETOF_D_IDLIST + OFFSETOF_D_REFCNT) = 0
  node : ∀ x ∈ t :: ts, OFFSETOF_D_IDLIST ≤ x

section Loop

variable {h h' : DentHeap} {inode t t' : Nat} {ts dents : List Nat}

theorem freeRound_eq (hnode : OFFSETOF_D_IDLIST ≤ t)
    (hunused : h.word (t - OFFSETOF_D_IDLIST + OFFSETOF_D_REFCNT) = 0) :
    h.freeRound t = some ({ h with
      links := klist0Unlink t h.links
      log := h.log ++ [.gobjFree (t - OFFSETOF_D_IDLIST)] }, h.links.next t) := by
  unfold DentHeap.freeRound DentHeap.freeDirentry
  simp [hunused, Nat.sub_add_cancel hnode]

theorem IdRing.round (hr : IdRing h inode t ts) :
    ∃ h' t' ts', h.freeRound t = some (h', t') ∧ IdRing h' inode t' ts' := by
  refine ⟨_, _, ts.tail, freeRound_eq (hr.node t List.mem_cons_self)
    (hr.unused t List.mem_cons_self), ?_⟩
  cases ts with
  | nil =>
    have hnext : h.links.next t = t := (isRing_nil_iff.mp hr.ring).1
    rw [hnext]
    exact ⟨klist0Unlink_isRing_self t h.links, hr.head, hr.unused, hr.node⟩
  | cons x ts =>
    have hnext : h.links.next t = x := hr.ring.2.1
    have hsub : ∀ y ∈ x :: ts, y ∈ t :: x :: ts := fun y hy => List.mem_cons_of_mem t hy
    have hfirst : h.links.IsRing t ([] ++ x :: ts) := hr.ring
    have hring := klist0Unlink_isRing hfirst.rotate
    rw [List.append_nil] at hring
    rw [hnext]
    exact ⟨hring, fun hmem => hr.head (hsub _ hmem), fun y hy => hr.unused y (hsub y hy),
      fun y hy => hr.node y (hsub y hy)⟩

theorem IdRing.loop_eq_none (hr : IdRing h inode t ts) (rounds : Nat) :
    DentHeap.freeNamesLoop inode rounds h t = none := by
  induction rounds generalizing h t ts with
  | zero => rfl
  | succ rounds ih =>
    obtain ⟨h', t', ts', hround, hr'⟩ := hr.round
    have hne : t' ≠ inode + OFFSETOF_I_DENT := fun heq => hr'.head (heq ▸ List.mem_cons_self)
    rw [DentHeap.freeNamesLoop, hround]
    dsimp only
    rw [if_neg hne]
    exact ih hr'

/-- The first round of the loop takes the head of the list for an entry. -/
theorem freeRound_head {d : Nat} (hring : h.links.IsRing (inode + OFFSETOF_I_DENT)
      ((d :: dents).map (· + OFFSETOF_D_IDLIST)))
    (hunused : ∀ x ∈ d :: dents, h.word (x + OFFSETOF_D_REFCNT) = 0)
    (hround : h.freeRound (inode + OFFSETOF_I_DENT) = some (h', t')) :
    h'.log = h.log ++ [.gobjFree (inode + 4)] ∧
      IdRing h' inode t' (dents.map (· + OFFSETOF_D_IDLIST)) := by
  have hnext : h.links.next (inode + OFFSETOF_I_DENT) = d + OFFSETOF_D_IDLIST := hring.2.1
  have hfirst : h.links.IsRing (inode + OFFSETOF_I_DENT)
      ([] ++ (d + OFFSETOF_D_IDLIST) :: dents.map (· + OFFSETOF_D_IDLIST)) := hring
  have hrest := klist0Unlink_isRing hfirst.rotate
  rw [List.append_nil] at hrest
  have hcount : h.word (inode + OFFSETOF_I_DENT - OFFSETOF_D_IDLIST + OFFSETOF_D_REFCNT) = 0 := by
    by_contra hne
    simp [DentHeap.freeRound, DentHeap.freeDirentry, hne] at hround
  have hnode : OFFSETOF_D_IDLIST ≤ inode + OFFSETOF_I_DENT := by
    unfold OFFSETOF_D_IDLIST OFFSETOF_I_DENT
    omega
  have hmem : ∀ x ∈ (d + OFFSETOF_D_IDLIST) :: dents.map (· + OFFSETOF_D_IDLIST),
      ∃ e ∈ d :: dents, e + OFFSETOF_D_IDLIST = x :=
    fun x hx => List.mem_map.mp hx
  rw [freeRound_eq hnode hcount, hnext] at hround
  cases hround
  refine ⟨rfl, hrest, (List.nodup_cons.mp hring.1).1, ?_, ?_⟩
  · intro x hx
    obtain ⟨e, he, rfl⟩ := hmem x hx
    exact hunused e he
  · intro x hx
    obtain ⟨e, -, rfl⟩ := hmem x hx
    exact Nat.le_add_left _ _

/-- With a name on the list, `free_inode` stops at a `bug ()` or goes on for ever. -/
theorem freeNames_eq_none
    (hring : h.links.IsRing (inode + OFFSETOF_I_DENT) (dents.map (· + OFFSETOF_D_IDLIST)))
    (hunused : ∀ d ∈ dents, h.word (d + OFFSETOF_D_REFCNT) = 0) (hne : dents ≠ [])
    (rounds : Nat) : h.freeNames inode rounds = none := by
  have hempty : klist0Empty (inode + OFFSETOF_I_DENT) h.links ≠ true := by
    rw [ne_eq, klist0Empty_iff hring]
    simpa using hne
  unfold DentHeap.freeNames
  rw [if_neg hempty]
  cases rounds with
  | zero => rfl
  | succ rounds =>
    obtain ⟨d, dents, rfl⟩ := List.exists_cons_of_ne_nil hne
    rw [DentHeap.freeNamesLoop]
    cases hround : h.freeRound (inode + OFFSETOF_I_DENT) with
    | none => rfl
    | some r =>
      obtain ⟨h', t'⟩ := r
      obtain ⟨-, hr⟩ := freeRound_head hring hunused hround
      have hhead : t' ≠ inode + OFFSETOF_I_DENT := fun heq => hr.head (heq ▸ List.mem_cons_self)
      dsimp only
      rw [if_neg hhead]
      exact hr.loop_eq_none rounds

end Loop

/-! ## Which inodes are freed with their names -/

/-- `free_inode` of an inode whose names are not in use frees exactly these, takes them off
their lists and then kills the inode, if and only if there are none. -/
theorem freeInode_names_iff {h : DentHeap} {inode : Nat} {dents : List Nat}
    (hring : h.links.IsRing (inode + OFFSETOF_I_DENT) (dents.map (· + OFFSETOF_D_IDLIST)))
    (hunused : ∀ d ∈ dents, h.word (d + OFFSETOF_D_REFCNT) = 0) :
    h.FreesInode inode dents ↔ dents = [] := by
  constructor
  · rintro ⟨rounds, h', hfree, -, -⟩
    by_contra hne
    rw [freeNames_eq_none hring hunused hne rounds] at hfree
    cases hfree
  · rintro rfl
    have hempty : klist0Empty (inode + OFFSETOF_I_DENT) h.links = true :=
      (klist0Empty_iff hring).mpr rfl
    have hnames : h.freeNames inode 0 = some h := if_pos hempty
    refine ⟨0, h, hnames, ⟨⟨[], by simp, List.Perm.refl _⟩, hring, ?_, rfl⟩, ?_⟩
    · intro c xs hc _ _
      simpa using hc
    · rw [DentHeap.freeInode, hnames, Option.map_some]

/-- A heap in which every node is alone and every word is 0. -/
def loneHeap : DentHeap := ⟨⟨id, id⟩, fun _ => 0, []⟩

theorem freeInode_names_none : loneHeap.FreesInode 1000 [] :=
  (freeInode_names_iff (isRing_nil_iff.mpr ⟨rfl, rfl⟩)
    (fun _ hd => absurd hd List.not_mem_nil)).mpr rfl

/-- The inode at 1000 with one name, the entry at 2000, which is not in use. -/
def oneName : DentHeap :=
  { loneHeap with links := klist0Append 2004 1008 loneHeap.links }

/-- The first pointer that `gobj_free` gets is 1004, in the inode, and `free_inode` does not
come to an end. -/
theorem freeInode_one_name :
    oneName.links.IsRing (1000 + OFFSETOF_I_DENT) ([2000].map (· + OFFSETOF_D_IDLIST)) ∧
      (oneName.freeRound (1000 + OFFSETOF_I_DENT)).map (fun r => r.1.log) =
        some [.gobjFree 1004] ∧
      (∀ rounds, oneName.freeInode 1000 rounds = none) ∧ ¬oneName.FreesInode 1000 [2000] := by
  have hring : oneName.links.IsRing (1000 + OFFSETOF_I_DENT)
      ([2000].map (· + OFFSETOF_D_IDLIST)) :=
    klist0Append_isRing (isRing_nil_iff.mpr ⟨rfl, rfl⟩) (by decide)
  have hunused : ∀ d ∈ [2000], oneName.word (d + OFFSETOF_D_REFCNT) = 0 := fun _ _ => rfl
  have hnone := freeNames_eq_none hring hunused (List.cons_ne_nil _ _)
  refine ⟨hring, by decide, ?_, ?_⟩
  · intro rounds
    rw [DentHeap.freeInode, hnone rounds, Option.map_none]
  · rintro ⟨rounds, h', hfree, -⟩
    rw [hnone rounds] at hfree
    cases hfree

end Koowaldah
