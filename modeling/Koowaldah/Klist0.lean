import Koowaldah.Lib.Ring

/-!
# `klist0`: the kernel's list type

`include/klist0.h` threads every list of the kernel through
`struct klist0_node` members.  A list is a ring whose head is a node too.
The operations below are the pointer writes of the header, in its order.

`klist0_append` links a node in directly after the given one, so at the head
of a list.  `klist0_prepend` links it in directly before the given one, so at
the tail of a list.  The spec lemmas say this over `Links.IsRing`, and
`klist0_sequences` puts them together for a heap of rings.
-/

namespace Koowaldah

open SysLib SysLib.Links

variable {N : Type} [DecidableEq N]

variable {as bs : List N} {m : Nat}

/-- `KLIST0_INIT`: the node becomes a ring of its own. -/
def klist0Init (list : N) (h : Links N) : Links N :=
  (h.setPrev list list).setNext list list

/-- `klist0_prepend`: link `node` in before `list`. -/
def klist0Prepend (node list : N) (h : Links N) : Links N :=
  let h := h.setNext node list
  let h := h.setPrev node (h.prev list)
  let h := h.setNext (h.prev list) node
  h.setPrev list node

/-- `klist0_append`: link `node` in after `list`. -/
def klist0Append (node list : N) (h : Links N) : Links N :=
  let h := h.setNext node (h.next list)
  let h := h.setPrev node list
  let h := h.setPrev (h.next list) node
  h.setNext list node

/-- `klist0_unlink`: close the gap around `node` and leave it alone. -/
def klist0Unlink (node : N) (h : Links N) : Links N :=
  let h := h.setNext (h.prev node) (h.next node)
  let h := h.setPrev (h.next node) (h.prev node)
  let h := h.setNext node node
  h.setPrev node node

/-- `klist0_empty`: the list has no member but its head. -/
def klist0Empty (list : N) (h : Links N) : Bool := h.next list = list

/-- A `klist0_for_each` loop that looks for a node, from `node` on: whether it
is met before the head.  `none` when the loop is not over after the rounds it
was given. -/
def klist0Find (list x : N) (h : Links N) : Nat → N → Option Bool
  | 0, _ => none
  | n + 1, node =>
    if node = list then some false
    else if node = x then some true
    else klist0Find list x h n (h.next node)

/-- A `klist0_for_each` loop from `node` on: the nodes it visits. -/
def klist0ForEach (list : N) (h : Links N) : Nat → N → Option (List N)
  | 0, _ => none
  | n + 1, node =>
    if node = list then some []
    else (klist0ForEach list h n (h.next node)).map (fun visited => node :: visited)

/-- `klist0_reparent`: move the members of one list to another head. -/
def klist0Reparent (fromHead toHead : N) (h : Links N) : Links N :=
  let h := (h.setNext toHead (h.next fromHead)).setPrev toHead (h.prev fromHead)
  let h := h.setPrev (h.next toHead) toHead
  let h := h.setNext (h.prev toHead) toHead
  klist0Init fromHead h

/-! ## Rings under the operations -/

variable {h : Links N} {c n : N} {xs : List N}

theorem klist0Empty_iff (hr : h.IsRing c xs) : klist0Empty c h = true ↔ xs = [] := by
  rw [klist0Empty, hr.next_head]
  cases xs with
  | nil => simp
  | cons x xs =>
    have hne : x ≠ c := by
      rintro rfl
      exact (List.nodup_cons.mp hr.1).1 (by simp)
    simp [hne]

theorem klist0Init_isRing (c : N) (h : Links N) : (klist0Init c h).IsRing c [] := by
  simp [isRing_nil_iff, klist0Init]

theorem klist0Init_of_isRing_nil (hr : h.IsRing c []) : klist0Init c h = h := by
  rcases isRing_nil_iff.mp hr with ⟨hnext, hprev⟩
  have heta : ∀ h' : Links N, h'.next = h.next → h'.prev = h.prev → h' = h := by
    intro h' hn hp
    cases h
    cases h'
    rw [Links.mk.injEq]
    exact ⟨hn, hp⟩
  apply heta
  · funext x
    unfold klist0Init
    rw [setNext_next]
    split
    · rename_i hx
      rw [hx, hnext]
    · rfl
  · funext x
    unfold klist0Init
    rw [setNext_prev, setPrev_prev]
    split
    · rename_i hx
      rw [hx, hprev]
    · rfl

theorem klist0Find_after {x : N} {b : Bool} (hr : h.IsRing c (as ++ bs))
    (hfind : klist0Find c x h m (after c bs) = some b) : b = true ↔ x ∈ bs := by
  induction bs generalizing as m with
  | nil =>
    cases m with
    | zero => exact nomatch hfind
    | succ m =>
      unfold klist0Find at hfind
      rw [after_nil, if_pos rfl] at hfind
      cases hfind
      exact iff_of_false Bool.false_ne_true List.not_mem_nil
  | cons y bs ih =>
    cases m with
    | zero => exact nomatch hfind
    | succ m =>
      unfold klist0Find at hfind
      have hyc : y ≠ c := by
        rintro rfl
        exact (List.nodup_cons.mp hr.1).1 (by simp)
      rw [after_cons, if_neg hyc] at hfind
      split at hfind
      · rename_i hyx
        rw [← Option.some.inj hfind, hyx]
        exact iff_of_true rfl List.mem_cons_self
      · rename_i hyx
        rw [hr.neighbours.2] at hfind
        have hr' : h.IsRing c ((as ++ [y]) ++ bs) := by simpa using hr
        rw [ih hr' hfind, List.mem_cons, or_iff_right (fun he => hyx he.symm)]

theorem klist0Find_iff {x : N} {b : Bool} (hr : h.IsRing c xs)
    (hfind : klist0Find c x h m (h.next c) = some b) : b = true ↔ x ∈ xs := by
  rw [hr.next_head] at hfind
  have hr' : h.IsRing c ([] ++ xs) := hr
  exact klist0Find_after hr' hfind

theorem klist0ForEach_after (hr : h.IsRing c (as ++ bs)) (hm : bs.length < m) :
    klist0ForEach c h m (after c bs) = some bs := by
  induction bs generalizing as m with
  | nil =>
    obtain ⟨m, rfl⟩ : ∃ k, m = k + 1 := ⟨m - 1, by omega⟩
    unfold klist0ForEach
    rw [after_nil, if_pos rfl]
  | cons b bs ih =>
    obtain ⟨m, rfl⟩ : ∃ k, m = k + 1 := ⟨m - 1, by omega⟩
    have hbc : b ≠ c := by
      rintro rfl
      exact (List.nodup_cons.mp hr.1).1 (by simp)
    have hr' : h.IsRing c ((as ++ [b]) ++ bs) := by
      rw [List.append_assoc]
      exact hr
    unfold klist0ForEach
    rw [after_cons, if_neg hbc, hr.neighbours.2, ih hr' (Nat.lt_of_succ_lt_succ hm)]
    rfl

theorem klist0ForEach_eq (hr : h.IsRing c xs) (hm : xs.length < m) :
    klist0ForEach c h m (h.next c) = some xs := by
  have hr' : h.IsRing c ([] ++ xs) := hr
  rw [hr.next_head]
  exact klist0ForEach_after hr' hm

theorem klist0Append_isRing (hr : h.IsRing c xs) (hfresh : n ∉ c :: xs) :
    (klist0Append n c h).IsRing c (n :: xs) := by
  have hnc : c ≠ n := fun he => hfresh (by simp [he])
  have hr' : h.IsRing c ([] ++ xs) := hr
  refine hr'.insert hfresh ?_ ?_ <;> intro x <;> rw [before_nil] <;>
    simp [klist0Append, hr.next_head, hnc]

theorem klist0Prepend_isRing (hr : h.IsRing c xs) (hfresh : n ∉ c :: xs) :
    (klist0Prepend n c h).IsRing c (xs ++ [n]) := by
  have hnc : c ≠ n := fun he => hfresh (by simp [he])
  rw [← List.append_nil xs] at hr hfresh
  refine hr.insert hfresh ?_ ?_ <;> intro x <;> rw [after_nil] <;>
    simp [klist0Prepend, hr.prev_head, hnc]

theorem klist0Unlink_isRing (hr : h.IsRing c (as ++ n :: bs)) :
    (klist0Unlink n h).IsRing c (as ++ bs) := by
  obtain ⟨hprev, hnext⟩ := hr.neighbours
  have hne : ∀ x ∈ c :: (as ++ bs), x ≠ n := by
    have hperm : (c :: (as ++ n :: bs)).Perm (n :: c :: (as ++ bs)) :=
      (List.perm_middle.cons c).trans (List.Perm.swap n c _)
    exact fun x hx he => (List.nodup_cons.mp (hperm.nodup_iff.mp hr.1)).1 (he ▸ hx)
  have hnb := hne _ (before_mem_ring c as bs)
  have hna := hne _ (after_mem_ring c as bs)
  refine hr.remove ?_ ?_ ?_ ?_ <;>
    simp only [klist0Unlink, setNext_next, setNext_prev, setPrev_next,
      setPrev_prev, hprev, hnext, if_true, if_neg hnb.symm, if_neg hnb, if_neg hna]
  · intro x hx hxb
    rw [if_neg (hne x hx), if_neg hxb]
  · intro x hx hxa
    rw [if_neg (hne x hx), if_neg hxa]

theorem klist0Unlink_isRing_self (n : N) (h : Links N) : (klist0Unlink n h).IsRing n [] := by
  simp [isRing_nil_iff, klist0Unlink]

/-! ## Rings that an operation does not touch -/

variable {d : N} {ys : List N}

theorem klist0Append_frame (hr : h.IsRing c xs) (hd : h.IsRing d ys) (hn : n ∉ d :: ys)
    (hdisj : ∀ x ∈ c :: xs, x ∉ d :: ys) : (klist0Append n c h).IsRing d ys := by
  have hne : ∀ x ∈ d :: ys, x ≠ n ∧ x ≠ c ∧ x ≠ h.next c := by
    intro x hx
    refine ⟨fun he => hn (he ▸ hx), fun he => ?_, fun he => ?_⟩
    · exact hdisj c (by simp) (he ▸ hx)
    · exact hdisj _ (hr.next_mem (by simp)) (he ▸ hx)
  refine hd.frame ?_ ?_ <;> intro x hx <;> simp [klist0Append, hne x hx]

theorem klist0Prepend_frame (hr : h.IsRing c xs) (hd : h.IsRing d ys) (hn : n ∉ d :: ys)
    (hdisj : ∀ x ∈ c :: xs, x ∉ d :: ys) : (klist0Prepend n c h).IsRing d ys := by
  have hne : ∀ x ∈ d :: ys, x ≠ n ∧ x ≠ c ∧ x ≠ h.prev c := by
    intro x hx
    refine ⟨fun he => hn (he ▸ hx), fun he => ?_, fun he => ?_⟩
    · exact hdisj c (by simp) (he ▸ hx)
    · rw [hr.prev_head] at he
      exact hdisj _ (before_mem c xs) (he ▸ hx)
  refine hd.frame ?_ ?_ <;> intro x hx <;> simp [klist0Prepend, hne x hx]

theorem klist0Unlink_frame (hr : h.IsRing c (as ++ n :: bs)) (hd : h.IsRing d ys)
    (hdisj : ∀ x ∈ c :: (as ++ n :: bs), x ∉ d :: ys) : (klist0Unlink n h).IsRing d ys := by
  obtain ⟨hprev, hnext⟩ := hr.neighbours
  have hafter : after c bs ∈ c :: (as ++ n :: bs) := by
    rw [List.append_cons]
    exact after_mem_ring c (as ++ [n]) bs
  have hne : ∀ x ∈ d :: ys, x ≠ n ∧ x ≠ before c as ∧ x ≠ after c bs := by
    intro x hx
    refine ⟨fun he => hdisj n (by simp) (he ▸ hx), fun he => ?_, fun he => ?_⟩
    · exact hdisj _ (before_mem_ring c as _) (he ▸ hx)
    · exact hdisj _ hafter (he ▸ hx)
  refine hd.frame ?_ ?_ <;> intro x hx <;> simp [klist0Unlink, hprev, hnext, hne x hx]

/-- Unlinking a node outside of `l` writes no link of `l`, and no other node comes to
lead into it. -/
theorem klist0Unlink_apart {l : List N} (hapart : h.Apart l) (hn : n ∉ l) :
    (∀ x ∈ l, (klist0Unlink n h).next x = h.next x ∧ (klist0Unlink n h).prev x = h.prev x) ∧
      (klist0Unlink n h).Apart l := by
  rcases hapart n hn with ⟨hnext, hprev⟩
  have hnext' : ∀ x, (klist0Unlink n h).next x =
      if x = n then n else if x = h.prev n then h.next n else h.next x := by
    intro x
    simp [klist0Unlink]
  have hprev' : ∀ x, (klist0Unlink n h).prev x =
      if x = n then n else if x = h.next n then h.prev n else h.prev x := by
    intro x
    simp [klist0Unlink]
  constructor
  · intro x hx
    have hxn : x ≠ n := fun he => hn (he ▸ hx)
    have hxp : x ≠ h.prev n := fun he => hprev (he ▸ hx)
    have hxs : x ≠ h.next n := fun he => hnext (he ▸ hx)
    rw [hnext', hprev', if_neg hxn, if_neg hxn, if_neg hxp, if_neg hxs]
    exact ⟨rfl, rfl⟩
  · intro x hx
    rw [hnext', hprev']
    split
    · exact ⟨hn, hn⟩
    · constructor
      · split
        · exact hnext
        · exact (hapart x hx).1
      · split
        · exact hprev
        · exact (hapart x hx).2

/-! ## Moving a list to another head -/

section Reparent

variable {f t : N}

theorem klist0Reparent_next (hft : h.next f ≠ t) (z : N) :
    (klist0Reparent f t h).next z =
      if z = f then f else if z = h.prev f then t else if z = t then h.next f else h.next z := by
  simp [klist0Reparent, klist0Init, hft.symm]

theorem klist0Reparent_prev (z : N) :
    (klist0Reparent f t h).prev z =
      if z = f then f else if z = h.next f then t else if z = t then h.prev f else h.prev z := by
  simp [klist0Reparent, klist0Init]

theorem klist0Reparent_isRing_self (f t : N) (h : Links N) :
    (klist0Reparent f t h).IsRing f [] := klist0Init_isRing ..

theorem klist0Reparent_isRing (hr : h.IsRing f xs) (hne : xs ≠ []) (ht : t ∉ f :: xs) :
    (klist0Reparent f t h).IsRing t xs := by
  rcases List.exists_cons_of_ne_nil hne with ⟨x, l, hxl⟩
  obtain ⟨l', y, hly⟩ : ∃ l' y, xs = l' ++ [y] :=
    ⟨_, _, (List.dropLast_append_getLast hne).symm⟩
  have hfirst : h.next f = x := by
    rw [hr.next_head, hxl, after_cons]
  have hlast : h.prev f = y := by
    rw [hr.prev_head, hly, before_concat]
  have hnodup := List.nodup_cons.mp hr.1
  have hmem : ∀ z ∈ xs, z ≠ f ∧ z ≠ t := by
    intro z hz
    exact ⟨fun he => hnodup.1 (he ▸ hz), fun he => ht (he ▸ List.mem_cons_of_mem f hz)⟩
  have hx : x ∈ xs := by
    rw [hxl]
    exact List.mem_cons_self
  have hy : y ∈ xs := by
    rw [hly]
    exact List.mem_append_right l' (List.mem_singleton_self y)
  have hft : h.next f ≠ t := by
    rw [hfirst]
    exact (hmem x hx).2
  have htf : t ≠ f := fun he => ht (he ▸ List.mem_cons_self)
  have hnext := klist0Reparent_next hft
  have hprev := klist0Reparent_prev (h := h) (f := f) (t := t)
  -- the links between two members are those of the old list
  have hinner : (klist0Reparent f t h).Linked xs := by
    have hlinked : h.Linked xs := by
      have hsplit : h.IsRing f (xs ++ []) := by
        rw [List.append_nil]
        exact hr
      have hfxs := (isRing_split.mp hsplit).2.1
      rw [hxl] at hfxs ⊢
      exact hfxs.2.2
    refine hlinked.congr ?_ ?_
    · intro z hz
      have hzxs := List.mem_of_mem_dropLast hz
      have hzy : z ≠ y := by
        rintro rfl
        rw [hly, List.dropLast_concat] at hz
        rw [hly, List.nodup_append] at hnodup
        exact hnodup.2.2.2 z hz z (List.mem_singleton_self z) rfl
      rw [hnext, if_neg (hmem z hzxs).1, hlast, if_neg hzy, if_neg (hmem z hzxs).2]
    · intro z hz
      have hzxs := List.mem_of_mem_tail hz
      have hzx : z ≠ x := by
        rintro rfl
        rw [hxl] at hz
        rw [hxl, List.nodup_cons] at hnodup
        exact hnodup.2.1 hz
      rw [hprev, if_neg (hmem z hzxs).1, hfirst, if_neg hzx, if_neg (hmem z hzxs).2]
  have hring : (klist0Reparent f t h).IsRing t ([] ++ xs) := by
    refine isRing_split.mpr ⟨?_, trivial, ?_, ?_, ?_⟩
    · exact List.nodup_cons.mpr ⟨fun hm => ht (List.mem_cons_of_mem f hm), hnodup.2⟩
    · rw [before_nil, hxl, after_cons, hnext, if_neg htf, hlast, if_neg (hmem y hy).2.symm,
        if_pos rfl, hfirst]
    · rw [before_nil, hxl, after_cons, hprev, if_neg (hmem x hx).1, hfirst, if_pos rfl]
    · rw [hly, List.append_assoc]
      refine (linked_append l' y t []).mpr ⟨?_, ?_, ?_, trivial⟩
      · rw [← hly]
        exact hinner
      · rw [hnext, if_neg (hmem y hy).1, hlast, if_pos rfl]
      · rw [hprev, if_neg htf, hfirst, if_neg (hmem x hx).2.symm, if_pos rfl, hlast]
  exact hring

theorem klist0Reparent_frame (hr : h.IsRing f xs) (hd : h.IsRing d ys) (ht : t ∉ f :: xs)
    (htd : t ∉ d :: ys) (hdisj : ∀ x ∈ f :: xs, x ∉ d :: ys) :
    (klist0Reparent f t h).IsRing d ys := by
  have hnf : h.next f ∈ f :: xs := hr.next_mem List.mem_cons_self
  have hpf : h.prev f ∈ f :: xs := by
    rw [hr.prev_head]
    exact before_mem f xs
  have hne : ∀ z ∈ d :: ys, ∀ x ∈ f :: xs, z ≠ x := by
    intro z hz x hx he
    exact hdisj x hx (he ▸ hz)
  have hft : h.next f ≠ t := fun he => ht (he ▸ hnf)
  have hzt : ∀ z ∈ d :: ys, z ≠ t := fun z hz he => htd (he ▸ hz)
  refine hd.frame ?_ ?_
  · intro z hz
    rw [klist0Reparent_next hft, if_neg (hne z hz f List.mem_cons_self),
      if_neg (hne z hz _ hpf), if_neg (hzt z hz)]
  · intro z hz
    rw [klist0Reparent_prev, if_neg (hne z hz f List.mem_cons_self), if_neg (hne z hz _ hnf),
      if_neg (hzt z hz)]

end Reparent

/-! ## Heaps of lists -/

section Heap

omit [DecidableEq N] in
theorem not_mem_of_alone (hn : h.IsRing n []) (hr : h.IsRing c xs) (hne : n ≠ c) : n ∉ c :: xs :=
  hn.disjoint hr (fun hc => hne (List.mem_singleton.mp hc).symm) n (List.mem_singleton_self n)

theorem isRing_unique {xs' : List N} (hr : h.IsRing c xs) (hr' : h.IsRing c xs') : xs = xs' := by
  have hvisit := klist0ForEach_eq hr (Nat.lt_succ_of_le (Nat.le_max_left _ xs'.length))
  rw [klist0ForEach_eq hr' (Nat.lt_succ_of_le (Nat.le_max_right _ _))] at hvisit
  exact (Option.some.inj hvisit).symm

/-- A list operation that takes a heap of rings to a heap of rings, and leaves the
rings of all other nodes than those of `l` as they are. -/
def KeepsRings (h h' : Links N) (l : List N) : Prop :=
  h'.WellFormed ∧ ∀ d ys, h.IsRing d ys → d ∉ l → h'.IsRing d ys

omit [DecidableEq N] in
/-- What keeps the rings apart from a node and a list keeps those of all other nodes. -/
theorem frame_of_alone {h' : Links N} (hn : h.IsRing n []) (hr : h.IsRing c xs)
    (hframe : ∀ {d ys}, h.IsRing d ys → n ∉ d :: ys → (∀ x ∈ c :: xs, x ∉ d :: ys) →
      h'.IsRing d ys) : ∀ d ys, h.IsRing d ys → d ∉ n :: c :: xs → h'.IsRing d ys := by
  intro d ys hd hout
  rw [List.mem_cons, not_or] at hout
  exact hframe hd (not_mem_of_alone hn hd (Ne.symm hout.1)) (hr.disjoint hd hout.2)

theorem klist0Append_keepsRings (hwf : h.WellFormed) (hn : h.IsRing n []) (hr : h.IsRing c xs)
    (hne : n ≠ c) : KeepsRings h (klist0Append n c h) (n :: c :: xs) := by
  have hframe := frame_of_alone hn hr (klist0Append_frame hr)
  refine ⟨hwf.edit ?_ hframe, hframe⟩
  intro x hx
  refine (klist0Append_isRing hr (not_mem_of_alone hn hr hne)).exists_rotate ?_
  exact (List.Perm.swap c n xs).mem_iff.mp hx

theorem klist0Prepend_keepsRings (hwf : h.WellFormed) (hn : h.IsRing n []) (hr : h.IsRing c xs)
    (hne : n ≠ c) : KeepsRings h (klist0Prepend n c h) (n :: c :: xs) := by
  have hframe := frame_of_alone hn hr (klist0Prepend_frame hr)
  refine ⟨hwf.edit ?_ hframe, hframe⟩
  intro x hx
  refine (klist0Prepend_isRing hr (not_mem_of_alone hn hr hne)).exists_rotate ?_
  exact (List.perm_append_singleton n (c :: xs)).symm.mem_iff.mp hx

theorem klist0Unlink_keepsRings (hwf : h.WellFormed) (hr : h.IsRing n xs) :
    KeepsRings h (klist0Unlink n h) (n :: xs) := by
  have hframe : ∀ d ys, h.IsRing d ys → d ∉ n :: xs → (klist0Unlink n h).IsRing d ys := by
    intro d ys hd hout
    cases xs with
    | nil =>
      -- the writes of a node that is alone are to itself
      rcases isRing_nil_iff.mp hr with ⟨hnext, hprev⟩
      have hne : ∀ z ∈ d :: ys, z ≠ n := by
        intro z hz he
        exact hr.disjoint hd hout n List.mem_cons_self (he ▸ hz)
      refine hd.frame ?_ ?_
      · intro z hz
        simp [klist0Unlink, hprev, hne z hz]
      · intro z hz
        simp [klist0Unlink, hnext, hne z hz]
    | cons x l =>
      have hr' : h.IsRing n ([] ++ x :: l) := hr
      have hx : h.IsRing x (l ++ n :: []) := hr'.rotate
      refine klist0Unlink_frame hx hd ?_
      intro z hz
      refine hr.disjoint hd hout z ?_
      exact (List.perm_append_singleton n (x :: l)).mem_iff.mp hz
  refine ⟨hwf.edit ?_ hframe, hframe⟩
  intro x hx
  rcases List.mem_cons.mp hx with rfl | hx
  · exact ⟨[], klist0Unlink_isRing_self x h⟩
  · rcases List.append_of_mem hx with ⟨as, bs, rfl⟩
    exact ⟨_, klist0Unlink_isRing hr.rotate⟩

theorem klist0Reparent_keepsRings {f t : N} (hwf : h.WellFormed) (hr : h.IsRing f xs)
    (hne : xs ≠ []) (ht : h.IsRing t []) (htf : t ≠ f) :
    KeepsRings h (klist0Reparent f t h) (t :: f :: xs) := by
  have hfresh := not_mem_of_alone ht hr htf
  have hframe := frame_of_alone ht hr fun hd => klist0Reparent_frame hr hd hfresh
  refine ⟨hwf.edit ?_ hframe, hframe⟩
  intro x hx
  by_cases hxf : x = f
  · rw [hxf]
    exact ⟨[], klist0Reparent_isRing_self f t h⟩
  · refine (klist0Reparent_isRing hr hne hfresh).exists_rotate ?_
    have hperm := List.Perm.swap f t xs
    rcases List.mem_cons.mp (hperm.mem_iff.mp hx) with h' | h'
    · exact absurd h' hxf
    · exact h'

/-- `klist0` refines sequences.  In a heap of rings every node heads one sequence.
`klist0_append` and `klist0_prepend` put a node that is alone directly after and
directly before another one.  `klist0_unlink` takes a node out of its sequence
and leaves it alone.  `klist0_reparent` moves a sequence that is not empty to a
head that is alone, and leaves the old head alone.  A loop over a list visits
its members in order.  Every operation keeps the heap a heap of rings, and
leaves the sequences of all the nodes that are not in the rings it is given as
they are. -/
theorem klist0_sequences (hwf : h.WellFormed) : (∀ c, ∃! xs, h.IsRing c xs) ∧
    (∀ n c xs, h.IsRing n [] → h.IsRing c xs → n ≠ c →
      (klist0Append n c h).IsRing c (n :: xs) ∧
        KeepsRings h (klist0Append n c h) (n :: c :: xs) ∧
        (klist0Prepend n c h).IsRing c (xs ++ [n]) ∧
        KeepsRings h (klist0Prepend n c h) (n :: c :: xs)) ∧
    (∀ n xs, h.IsRing n xs →
      (klist0Unlink n h).IsRing n [] ∧
        (∀ c as bs, h.IsRing c (as ++ n :: bs) → (klist0Unlink n h).IsRing c (as ++ bs)) ∧
        KeepsRings h (klist0Unlink n h) (n :: xs)) ∧
    (∀ f t xs, h.IsRing f xs → xs ≠ [] → h.IsRing t [] → t ≠ f →
      (klist0Reparent f t h).IsRing t xs ∧ (klist0Reparent f t h).IsRing f [] ∧
        KeepsRings h (klist0Reparent f t h) (t :: f :: xs)) ∧
    ∀ c xs m, h.IsRing c xs → xs.length < m →
      klist0ForEach c h m (h.next c) = some xs := by
  refine ⟨?_, ?_, ?_, ?_, ?_⟩
  · intro c
    rcases hwf.exists_isRing c with ⟨xs, hr⟩
    exact ⟨xs, hr, fun ys hr' => isRing_unique hr' hr⟩
  · intro n c xs hn hr hne
    have hfresh := not_mem_of_alone hn hr hne
    exact ⟨klist0Append_isRing hr hfresh, klist0Append_keepsRings hwf hn hr hne,
      klist0Prepend_isRing hr hfresh, klist0Prepend_keepsRings hwf hn hr hne⟩
  · intro n xs hr
    exact ⟨klist0Unlink_isRing_self n h, fun c as bs => klist0Unlink_isRing,
      klist0Unlink_keepsRings hwf hr⟩
  · intro f t xs hr hne ht htf
    exact ⟨klist0Reparent_isRing hr hne (not_mem_of_alone ht hr htf),
      klist0Reparent_isRing_self f t h, klist0Reparent_keepsRings hwf hr hne ht htf⟩
  · intro c xs m hr hm
    exact klist0ForEach_eq hr hm

end Heap

theorem klist0_sequences_five :
    ∃ h : Links (Fin 5), h.WellFormed ∧ (klist0Append 4 0 h).IsRing 0 [4, 1] := by
  have hwf : Links.WellFormed (⟨![1, 0, 3, 2, 4], ![1, 0, 3, 2, 4]⟩ : Links (Fin 5)) := by
    constructor
    · decide
    · decide
    · intro x
      refine ⟨2, by decide, ?_⟩
      revert x
      decide
  refine ⟨_, hwf, ((klist0_sequences hwf).2.1 4 0 [1] ?_ ?_ (by decide)).1⟩
  · exact isRing_nil_iff.mpr ⟨rfl, rfl⟩
  · refine ⟨by decide, rfl, rfl, rfl, rfl, trivial⟩

end Koowaldah
