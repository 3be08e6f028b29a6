import Mathlib

/-!
# Circular doubly linked lists

A heap of nodes with a forward and a backward link each.  `h.Linked l` says
that consecutive nodes of `l` are linked both ways, and `h.IsRing c xs` that
the node `c` heads a circular list with the members `xs`, in forward order.
One node alone is the ring with no members.

A ring changes in two ways, and both are local in this view:

* `IsRing.insert` puts a fresh node between two neighbours;
* `IsRing.remove` takes a member out and closes the gap.

Both are stated for any heap `h'` that agrees with the old one outside the
links the edit writes, so they serve every order in which a program may
write those links.  `IsRing.frame` moves a ring to a heap that agrees with
the old one on its nodes.  `IsRing.reaches_iff` says which nodes a walk
along the forward links meets.
-/

namespace SysLib

structure Links (N : Type) where
  next : N → N
  prev : N → N

namespace Links

variable {N : Type}

variable {h h' : Links N} {c n x : N} {xs as bs : List N}

section Write

variable [DecidableEq N]

def setNext (h : Links N) (n m : N) : Links N :=
  { h with next := Function.update h.next n m }

def setPrev (h : Links N) (n m : N) : Links N :=
  { h with prev := Function.update h.prev n m }

@[simp] theorem setNext_next (h : Links N) (n m x : N) :
    (h.setNext n m).next x = if x = n then m else h.next x :=
  Function.update_apply ..

@[simp] theorem setNext_prev (h : Links N) (n m : N) :
    (h.setNext n m).prev = h.prev := rfl

@[simp] theorem setPrev_prev (h : Links N) (n m x : N) :
    (h.setPrev n m).prev x = if x = n then m else h.prev x :=
  Function.update_apply ..

@[simp] theorem setPrev_next (h : Links N) (n m : N) :
    (h.setPrev n m).next = h.next := rfl

end Write

/-- Consecutive nodes are linked both ways. -/
def Linked (h : Links N) : List N → Prop
  | x :: y :: l => h.next x = y ∧ h.prev y = x ∧ Linked h (y :: l)
  | _ => True

@[simp] theorem linked_nil (h : Links N) : h.Linked [] := trivial

@[simp] theorem linked_singleton (h : Links N) (x : N) : h.Linked [x] := trivial

@[simp] theorem linked_cons_cons {h : Links N} {x y : N} {l : List N} :
    h.Linked (x :: y :: l) ↔ h.next x = y ∧ h.prev y = x ∧ h.Linked (y :: l) :=
  Iff.rfl

theorem linked_append (l : List N) (x y : N) (r : List N) : h.Linked (l ++ x :: y :: r) ↔
      h.Linked (l ++ [x]) ∧ h.next x = y ∧ h.prev y = x ∧ h.Linked (y :: r) := by
  induction l with
  | nil => simp
  | cons a l ih =>
    cases l with
    | nil => simp; tauto
    | cons b l =>
      simp only [List.cons_append, linked_cons_cons] at ih ⊢
      tauto

theorem linked_glue (l : List N) (x : N) (r : List N) :
    h.Linked (l ++ x :: r) ↔ h.Linked (l ++ [x]) ∧ h.Linked (x :: r) := by
  cases r with
  | nil => exact (and_iff_left trivial).symm
  | cons y r => exact linked_append l x y r

theorem Linked.congr : ∀ {l : List N}, h.Linked l →
    (∀ x ∈ l.dropLast, h'.next x = h.next x) →
    (∀ x ∈ l.tail, h'.prev x = h.prev x) → h'.Linked l
  | [], _, _, _ => trivial
  | [_], _, _, _ => trivial
  | x :: y :: l, hl, hn, hp => by
    obtain ⟨hxy, hyx, hrest⟩ := hl
    refine ⟨?_, ?_, hrest.congr ?_ ?_⟩
    · rw [hn x (by simp), hxy]
    · rw [hp y (by simp), hyx]
    · intro z hz
      exact hn z (by simp [hz])
    · intro z hz
      exact hp z (List.mem_cons_of_mem _ hz)

/-- The circular list that `c` heads has the members `xs`. -/
def IsRing (h : Links N) (c : N) (xs : List N) : Prop :=
  (c :: xs).Nodup ∧ h.Linked (c :: (xs ++ [c]))

theorem isRing_nil_iff : h.IsRing c [] ↔ h.next c = c ∧ h.prev c = c := by
  simp [IsRing]

theorem IsRing.frame (hr : h.IsRing c xs) (hn : ∀ x ∈ c :: xs, h'.next x = h.next x)
    (hp : ∀ x ∈ c :: xs, h'.prev x = h.prev x) : h'.IsRing c xs := by
  refine ⟨hr.1, hr.2.congr ?_ ?_⟩
  · intro x hx
    rw [← List.cons_append, List.dropLast_concat] at hx
    exact hn x hx
  · intro x hx
    simp only [List.tail_cons, List.mem_append, List.mem_singleton] at hx
    exact hp x (List.mem_cons.mpr (Or.symm hx))

/-! ## The seam of a ring -/

/-- The node before the split point of a ring. -/
def before (c : N) (as : List N) : N := (c :: as).getLast (List.cons_ne_nil c as)

/-- The node after the split point of a ring. -/
def after (c : N) (bs : List N) : N := (bs ++ [c]).head (by simp)

@[simp] theorem before_nil (c : N) : before c [] = c := rfl

@[simp] theorem before_concat (c : N) (as : List N) (a : N) : before c (as ++ [a]) = a := by
  simp [before]

@[simp] theorem after_nil (c : N) : after c [] = c := rfl

@[simp] theorem after_cons (c b : N) (bs : List N) : after c (b :: bs) = b := rfl

theorem before_mem (c : N) (as : List N) : before c as ∈ c :: as :=
  List.getLast_mem _

theorem after_mem (c : N) (bs : List N) : after c bs ∈ bs ++ [c] :=
  List.head_mem _

theorem before_mem_ring (c : N) (as bs : List N) : before c as ∈ c :: (as ++ bs) :=
  List.mem_append_left bs (before_mem c as)

theorem after_mem_ring (c : N) (as bs : List N) : after c bs ∈ c :: (as ++ bs) := by
  rcases List.mem_append.mp (after_mem c bs) with hb | hc
  · exact List.mem_cons_of_mem c (List.mem_append_right as hb)
  · rw [List.mem_singleton.mp hc]
    exact List.mem_cons_self

theorem isRing_split : h.IsRing c (as ++ bs) ↔ (c :: (as ++ bs)).Nodup ∧ h.Linked (c :: as) ∧
      h.next (before c as) = after c bs ∧ h.prev (after c bs) = before c as ∧
      h.Linked (bs ++ [c]) := by
  obtain ⟨l, a, hla⟩ : ∃ l a, c :: as = l ++ [a] :=
    ⟨_, _, (List.dropLast_append_getLast (List.cons_ne_nil c as)).symm⟩
  obtain ⟨b, r, hbr⟩ : ∃ b r, bs ++ [c] = b :: r :=
    List.exists_cons_of_ne_nil (by simp)
  have ha : before c as = a := by simp [before, hla]
  have hb : after c bs = b := by simp [after, hbr]
  have hlist : c :: (as ++ bs ++ [c]) = l ++ a :: b :: r := by
    rw [List.append_assoc, hbr, ← List.cons_append, hla]
    simp
  rw [IsRing, hlist, linked_append, ha, hb, hla, hbr]

theorem IsRing.next_head (hr : h.IsRing c xs) : h.next c = after c xs := by
  have hr' : h.IsRing c ([] ++ xs) := hr
  exact (isRing_split.mp hr').2.2.1

theorem IsRing.prev_head (hr : h.IsRing c xs) : h.prev c = before c xs := by
  rw [← List.append_nil xs] at hr
  exact (isRing_split.mp hr).2.2.2.1

theorem IsRing.neighbours (hr : h.IsRing c (as ++ n :: bs)) :
    h.prev n = before c as ∧ h.next n = after c bs := by
  have hprev := (isRing_split.mp hr).2.2.2.1
  have hr' : h.IsRing c ((as ++ [n]) ++ bs) := by simpa using hr
  have hnext := (isRing_split.mp hr').2.2.1
  rw [before_concat] at hnext
  exact ⟨hprev, hnext⟩

theorem Linked.left_of_edit (hnd : (c :: (as ++ bs)).Nodup) (hl : h.Linked (c :: as))
    (hnext : ∀ x ∈ c :: (as ++ bs), x ≠ before c as → h'.next x = h.next x)
    (hprev : ∀ x ∈ c :: (as ++ bs), x ≠ after c bs → h'.prev x = h.prev x) :
    h'.Linked (c :: as) := by
  rw [← List.cons_append, List.nodup_append] at hnd
  obtain ⟨hndl, -, hdisj⟩ := hnd
  refine hl.congr ?_ ?_
  · intro x hx
    refine hnext x ?_ ?_
    · have := List.dropLast_subset _ hx
      simp only [List.mem_cons, List.mem_append] at this ⊢
      tauto
    · rintro rfl
      have hsplit := List.dropLast_append_getLast (List.cons_ne_nil c as)
      rw [← hsplit, List.nodup_append] at hndl
      exact hndl.2.2 _ hx _ (List.mem_singleton.mpr rfl) rfl
  · intro x hx
    refine hprev x (by simp at hx ⊢; tauto) ?_
    rintro rfl
    rcases List.mem_append.mp (after_mem c bs) with hb | hc
    · exact hdisj _ (List.mem_cons_of_mem _ hx) _ hb rfl
    · rw [List.mem_singleton] at hc
      rw [hc] at hx
      exact (List.nodup_cons.mp hndl).1 hx

theorem Linked.right_of_edit (hnd : (c :: (as ++ bs)).Nodup) (hl : h.Linked (bs ++ [c]))
    (hnext : ∀ x ∈ c :: (as ++ bs), x ≠ before c as → h'.next x = h.next x)
    (hprev : ∀ x ∈ c :: (as ++ bs), x ≠ after c bs → h'.prev x = h.prev x) :
    h'.Linked (bs ++ [c]) := by
  rw [← List.cons_append, List.nodup_append] at hnd
  obtain ⟨-, hndr, hdisj⟩ := hnd
  refine hl.congr ?_ ?_
  · intro x hx
    rw [List.dropLast_concat] at hx
    refine hnext x (by simp; tauto) ?_
    rintro rfl
    exact hdisj _ (before_mem c as) _ hx rfl
  · intro x hx
    cases bs with
    | nil => simp at hx
    | cons b bs =>
      simp only [List.cons_append, List.tail_cons, List.mem_append,
        List.mem_singleton] at hx
      refine hprev x (by simp; tauto) ?_
      rintro rfl
      rcases hx with hx | hx
      · exact (List.nodup_cons.mp hndr).1 hx
      · exact hdisj c (by simp) _ (by simp) hx.symm

/-! ## The two edits -/

theorem IsRing.insert [DecidableEq N] (hr : h.IsRing c (as ++ bs)) (hfresh : n ∉ c :: (as ++ bs))
    (hnext : ∀ x, h'.next x =
      if x = before c as then n else if x = n then after c bs else h.next x)
    (hprev : ∀ x, h'.prev x =
      if x = after c bs then n else if x = n then before c as else h.prev x) :
    h'.IsRing c (as ++ n :: bs) := by
  have hne : ∀ x ∈ c :: (as ++ bs), x ≠ n := fun x hx he => hfresh (he ▸ hx)
  have hnext' : ∀ x ∈ c :: (as ++ bs), x ≠ before c as → h'.next x = h.next x := by
    intro x hx hxb
    rw [hnext, if_neg hxb, if_neg (hne x hx)]
  have hprev' : ∀ x ∈ c :: (as ++ bs), x ≠ after c bs → h'.prev x = h.prev x := by
    intro x hx hxa
    rw [hprev, if_neg hxa, if_neg (hne x hx)]
  obtain ⟨hnd, hleft, -, -, hright⟩ := isRing_split.mp hr
  have hright' := hright.right_of_edit hnd hnext' hprev'
  refine isRing_split.mpr ⟨?_, hleft.left_of_edit hnd hnext' hprev', ?_, ?_, ?_⟩
  · have hperm : (n :: c :: (as ++ bs)).Perm (c :: (as ++ n :: bs)) :=
      (List.Perm.swap c n _).trans (List.perm_middle.symm.cons c)
    exact hperm.nodup_iff.mp (List.nodup_cons.mpr ⟨hfresh, hnd⟩)
  · rw [hnext, if_pos rfl, after_cons]
  · rw [after_cons, hprev, if_neg (hne _ (after_mem_ring c as bs)).symm, if_pos rfl]
  · have hnn := hnext n
    have hpb := hprev (after c bs)
    rw [if_neg (hne _ (before_mem_ring c as bs)).symm, if_pos rfl] at hnn
    rw [if_pos rfl] at hpb
    obtain ⟨b, r, hbr⟩ : ∃ b r, bs ++ [c] = b :: r :=
      List.exists_cons_of_ne_nil (by simp)
    have hb : after c bs = b := by simp [after, hbr]
    rw [hb] at hnn hpb
    rw [hbr] at hright'
    rw [List.cons_append, hbr]
    exact ⟨hnn, hpb, hright'⟩

theorem IsRing.remove (hr : h.IsRing c (as ++ n :: bs)) (hna : h'.next (before c as) = after c bs)
    (hpb : h'.prev (after c bs) = before c as)
    (hnext : ∀ x ∈ c :: (as ++ bs), x ≠ before c as → h'.next x = h.next x)
    (hprev : ∀ x ∈ c :: (as ++ bs), x ≠ after c bs → h'.prev x = h.prev x) :
    h'.IsRing c (as ++ bs) := by
  obtain ⟨hnd, hleft, -, -, hright⟩ := isRing_split.mp hr
  have hnd' : (c :: (as ++ bs)).Nodup := by
    refine hnd.sublist (List.Sublist.cons_cons c ?_)
    exact (List.sublist_cons_self n bs).append_left as
  refine isRing_split.mpr
    ⟨hnd', hleft.left_of_edit hnd' hnext hprev, hna, hpb, ?_⟩
  have htail : h.Linked (bs ++ [c]) := by
    cases bs with
    | nil => simp
    | cons b bs => exact (linked_cons_cons.mp hright).2.2
  exact htail.right_of_edit hnd' hnext hprev

/-! ## Walking along a ring -/

/-- A walk along the forward links leads from `c` to `x`. -/
def Reaches (h : Links N) (c x : N) : Prop := ∃ n, h.next^[n] c = x

theorem Linked.reaches : ∀ {l : List N} {c x : N},
    h.Linked (c :: l) → x ∈ c :: l → h.Reaches c x
  | l, c, x, hl, hx => by
    rcases List.mem_cons.mp hx with rfl | hx
    · exact ⟨0, rfl⟩
    · cases l with
      | nil => simp at hx
      | cons y l =>
        obtain ⟨n, hn⟩ := Linked.reaches hl.2.2 hx
        refine ⟨n + 1, ?_⟩
        rw [Function.iterate_succ_apply, hl.1, hn]

theorem IsRing.next_mem (hr : h.IsRing c xs) (hx : x ∈ c :: xs) : h.next x ∈ c :: xs := by
  rcases List.mem_cons.mp hx with rfl | hx
  · rw [hr.next_head]
    have := after_mem x xs
    simp only [List.mem_append, List.mem_cons] at this ⊢
    tauto
  · obtain ⟨as, bs, rfl⟩ := List.append_of_mem hx
    rw [hr.neighbours.2]
    have := after_mem c bs
    simp only [List.mem_append, List.mem_cons] at this ⊢
    tauto

theorem IsRing.next_ne_self (hr : h.IsRing c xs) (hx : x ∈ xs) : h.next x ≠ x := by
  rcases List.append_of_mem hx with ⟨as, bs, rfl⟩
  rw [hr.neighbours.2]
  intro heq
  have hmem := after_mem c bs
  rw [heq] at hmem
  have hnodup := hr.1
  rw [List.nodup_cons, List.nodup_append, List.nodup_cons] at hnodup
  rcases List.mem_append.mp hmem with hbs | hc
  · exact hnodup.2.2.1.1 hbs
  · exact hnodup.1 (by simp [List.mem_singleton.mp hc])

theorem IsRing.reaches_iff (hr : h.IsRing c xs) (x : N) : h.Reaches c x ↔ x ∈ c :: xs := by
  constructor
  · rintro ⟨n, rfl⟩
    induction n with
    | zero => simp
    | succ n ih =>
      rw [Function.iterate_succ_apply']
      exact hr.next_mem ih
  · intro hx
    refine hr.2.reaches ?_
    simp only [List.mem_append, List.mem_cons] at hx ⊢
    tauto

theorem Reaches.trans {a b : N} (hab : h.Reaches a b) (hbc : h.Reaches b c) : h.Reaches a c := by
  rcases hab with ⟨m, rfl⟩
  rcases hbc with ⟨n, rfl⟩
  exact ⟨n + m, Function.iterate_add_apply ..⟩

/-! ## Heaps of rings -/

theorem IsRing.rotate (hr : h.IsRing c (as ++ x :: bs)) : h.IsRing x (bs ++ c :: as) := by
  have hperm : (c :: (as ++ x :: bs)).Perm (x :: (bs ++ c :: as)) := by
    show ((c :: as) ++ x :: bs).Perm ((x :: bs) ++ c :: as)
    exact List.perm_append_comm
  refine ⟨hperm.nodup_iff.mp hr.1, ?_⟩
  have hlinked := hr.2
  rw [List.append_assoc, List.cons_append, ← List.cons_append, linked_glue] at hlinked
  rw [List.append_assoc, List.cons_append, ← List.cons_append, linked_glue]
  exact hlinked.symm

theorem IsRing.exists_rotate (hr : h.IsRing c xs) (hx : x ∈ c :: xs) : ∃ ys, h.IsRing x ys := by
  rcases List.mem_cons.mp hx with rfl | hx
  · exact ⟨xs, hr⟩
  · rcases List.append_of_mem hx with ⟨as, bs, rfl⟩
    exact ⟨_, hr.rotate⟩

theorem IsRing.disjoint {d : N} {ys : List N} (hc : h.IsRing c xs) (hd : h.IsRing d ys)
    (hne : d ∉ c :: xs) : ∀ x ∈ c :: xs, x ∉ d :: ys := by
  intro x hxc hxd
  rcases hd.exists_rotate hxd with ⟨zs, hx⟩
  have hmem : d ∈ x :: zs := by
    rcases List.mem_cons.mp hxd with rfl | hxd
    · exact List.mem_cons_self
    · rcases List.append_of_mem hxd with ⟨as, bs, rfl⟩
      have hrot := (hd.rotate.reaches_iff d).mpr (by simp)
      exact (hx.reaches_iff d).mp hrot
  exact hne ((hc.reaches_iff d).mp
    (((hc.reaches_iff x).mpr hxc).trans ((hx.reaches_iff d).mpr hmem)))

/-- No node outside of `l` leads into it. -/
def Apart (h : Links N) (l : List N) : Prop :=
  ∀ x, x ∉ l → h.next x ∉ l ∧ h.prev x ∉ l

/-- A heap of rings: the links of every node are inverse to each other, and a
walk from every node comes back to it. -/
structure WellFormed (h : Links N) : Prop where
  prev_next : ∀ x, h.prev (h.next x) = x
  next_prev : ∀ x, h.next (h.prev x) = x
  circular : ∀ x, ∃ n, 0 < n ∧ h.next^[n] x = x

theorem linked_iterate (hinv : ∀ x, h.prev (h.next x) = x) (c : N) (n : Nat) :
    h.Linked (List.iterate h.next c n) := by
  induction n generalizing c with
  | zero => exact trivial
  | succ n ih =>
    cases n with
    | zero => exact trivial
    | succ n => exact ⟨rfl, hinv c, ih (h.next c)⟩

theorem WellFormed.exists_isRing (hwf : h.WellFormed) (c : N) : ∃ xs, h.IsRing c xs := by
  have hper : c ∈ Function.periodicPts h.next := by
    rcases hwf.circular c with ⟨n, hpos, hn⟩
    exact ⟨n, hpos, hn⟩
  have hpos := Function.minimalPeriod_pos_of_mem_periodicPts hper
  obtain ⟨m, hm⟩ : ∃ m, Function.minimalPeriod h.next c = m + 1 :=
    ⟨Function.minimalPeriod h.next c - 1, by omega⟩
  have hback : h.next^[m + 1] c = c := by
    rw [← hm]
    exact Function.iterate_minimalPeriod
  have hnodup : (List.iterate h.next c (m + 1)).Nodup := by
    rw [← List.range_map_iterate, ← hm]
    exact Function.nodup_periodicOrbit
  refine ⟨List.iterate h.next (h.next c) m, hnodup, ?_⟩
  have hlist : c :: (List.iterate h.next (h.next c) m ++ [c]) =
      List.iterate h.next c (m + 1 + 1) := by
    rw [List.iterate_add, hback]
    rfl
  rw [hlist]
  exact linked_iterate hwf.prev_next c _

theorem wellFormed_of_isRing (hrings : ∀ c, ∃ xs, h.IsRing c xs) : h.WellFormed := by
  constructor
  · intro c
    rcases hrings c with ⟨xs, hr⟩
    rw [hr.next_head]
    have hr' : h.IsRing c ([] ++ xs) := hr
    exact (isRing_split.mp hr').2.2.2.1
  · intro c
    rcases hrings c with ⟨xs, hr⟩
    rw [hr.prev_head]
    rw [← List.append_nil xs] at hr
    exact (isRing_split.mp hr).2.2.1
  · intro c
    rcases hrings c with ⟨xs, hr⟩
    have hback : h.Reaches (h.next c) c := by
      rcases List.mem_cons.mp (hr.next_mem List.mem_cons_self) with heq | hmem
      · rw [heq]
        exact ⟨0, rfl⟩
      · rcases List.append_of_mem hmem with ⟨as, bs, rfl⟩
        exact (hr.rotate.reaches_iff c).mpr (by simp)
    rcases hback with ⟨n, hn⟩
    exact ⟨n + 1, Nat.succ_pos n, hn⟩

/-- An operation on some nodes of a heap of rings that puts these into rings and
leaves the other rings as they are. -/
theorem WellFormed.edit (hwf : h.WellFormed) {l : List N} (hin : ∀ x ∈ l, ∃ xs, h'.IsRing x xs)
    (hout : ∀ d ys, h.IsRing d ys → d ∉ l → h'.IsRing d ys) : h'.WellFormed := by
  apply wellFormed_of_isRing
  intro c
  by_cases hc : c ∈ l
  · exact hin c hc
  · rcases hwf.exists_isRing c with ⟨xs, hr⟩
    exact ⟨xs, hout c xs hr hc⟩

end Links

end SysLib
