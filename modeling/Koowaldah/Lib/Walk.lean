import Mathlib

/-!
# Walks along labels

A partial function `step : ι → κ → Option ι` is a graph whose edges carry labels, and
`follow step i cs` is the node that the labels `cs` lead to from `i`.

* `follow_append` and `follow_concat` split a walk.
* `IsTree step root` says that a node has one edge that leads to it at most, and the
  root none.  Then the labels that lead from the root to a node are determined by the
  node (`IsTree.follow_inj`).
* `AddLeaf` is a graph with one edge more, to a node that was not there.  Old walks
  are as they were (`AddLeaf.follow_of_some`), the new node is found
  (`AddLeaf.follow_new`), and nothing is found below it (`AddLeaf.follow_below`).  In a
  tree every walk that does not go over the new edge is as it was
  (`AddLeaf.follow_frame`), and the graph is a tree again (`AddLeaf.isTree`).
-/

namespace SysLib

variable {ι κ : Type*}

/-- The node that a list of labels leads to. -/
def follow (step : ι → κ → Option ι) : ι → List κ → Option ι
  | i, [] => some i
  | i, c :: cs => (step i c).bind (fun j => follow step j cs)

section Follow

variable {step : ι → κ → Option ι}

@[simp] theorem follow_nil (i : ι) : follow step i [] = some i := rfl

theorem follow_cons (i : ι) (c : κ) (cs : List κ) :
    follow step i (c :: cs) = (step i c).bind (fun j => follow step j cs) := rfl

theorem follow_append (i : ι) (cs ds : List κ) :
    follow step i (cs ++ ds) = (follow step i cs).bind (fun j => follow step j ds) := by
  induction cs generalizing i with
  | nil => rfl
  | cons c cs ih =>
    rw [List.cons_append, follow_cons, follow_cons, Option.bind_assoc]
    congr 1
    funext j
    exact ih j

theorem follow_concat (i : ι) (cs : List κ) (c : κ) :
    follow step i (cs ++ [c]) = (follow step i cs).bind (fun j => step j c) := by
  rw [follow_append]
  congr 1
  funext j
  exact Option.bind_fun_some _

theorem follow_eq_some_cases {i k : ι} {cs : List κ} (h : follow step i cs = some k) :
    (cs = [] ∧ k = i) ∨ ∃ ds c j, cs = ds ++ [c] ∧ follow step i ds = some j ∧
      step j c = some k := by
  rcases List.eq_nil_or_concat cs with rfl | ⟨ds, c, rfl⟩
  · exact .inl ⟨rfl, (Option.some.inj h).symm⟩
  · rw [List.concat_eq_append, follow_concat] at h
    rcases Option.bind_eq_some_iff.mp h with ⟨j, hj, hk⟩
    exact .inr ⟨ds, c, j, List.concat_eq_append, hj, hk⟩

end Follow

/-- Every node has one edge that leads to it at most, and the root has none. -/
structure IsTree (step : ι → κ → Option ι) (root : ι) : Prop where
  inj : ∀ {i j k c d}, step i c = some k → step j d = some k → i = j ∧ c = d
  root_ne : ∀ i c, step i c ≠ some root

/-- In a tree a node determines the labels that lead to it. -/
theorem IsTree.follow_inj {step : ι → κ → Option ι} {root k : ι} (ht : IsTree step root)
    {p q : List κ} (hp : follow step root p = some k) (hq : follow step root q = some k) :
    p = q := by
  induction p using List.reverseRecOn generalizing q k with
  | nil =>
    rcases follow_eq_some_cases hq with ⟨hnil, -⟩ | ⟨ds, d, j, -, -, hj⟩
    · exact hnil.symm
    · exact absurd (hj.trans hp.symm) (ht.root_ne j d)
  | append_singleton cs c ih =>
    rw [follow_concat] at hp
    rcases Option.bind_eq_some_iff.mp hp with ⟨i, hi, hk⟩
    rcases follow_eq_some_cases hq with ⟨-, hroot⟩ | ⟨ds, d, j, rfl, hj, hk'⟩
    · exact absurd (hroot ▸ hk) (ht.root_ne i c)
    · rcases ht.inj hk hk' with ⟨rfl, rfl⟩
      rw [ih hi hj]

/-- The graph `step'` is `step` with an edge from `i` to a node `k` that was not there. -/
structure AddLeaf (step step' : ι → κ → Option ι) (root i : ι) (c : κ) (k : ι) : Prop where
  absent : step i c = none
  root_ne : k ≠ root
  fresh : ∀ j d, step j d ≠ some k
  new : step' i c = some k
  leaf : ∀ d, step' k d = none
  old : ∀ j d, j ≠ k → (j = i → d ≠ c) → step' j d = step j d

namespace AddLeaf

variable {step step' : ι → κ → Option ι} {root i k : ι} {c : κ}

variable {q dir : List κ}

section

variable (h : AddLeaf step step' root i c k)

include h

theorem follow_ne (q : List κ) : follow step root q ≠ some k := by
  intro hq
  rcases follow_eq_some_cases hq with ⟨-, hroot⟩ | ⟨ds, d, j, -, -, hj⟩
  · exact h.root_ne hroot
  · exact h.fresh j d hj

theorem step_of_some {j m : ι} {d : κ} (hne : j ≠ k)
    (hj : step j d = some m) : step' j d = some m := by
  rw [h.old j d hne, hj]
  intro hi hd
  rw [hi, hd, h.absent] at hj
  cases hj

theorem follow_of_some {m : ι}
    (hq : follow step root q = some m) : follow step' root q = some m := by
  induction q using List.reverseRecOn generalizing m with
  | nil => exact hq
  | append_singleton ds d ih =>
    rw [follow_concat] at hq ⊢
    rcases Option.bind_eq_some_iff.mp hq with ⟨j, hj, hm⟩
    have hne : j ≠ k := by
      rintro rfl
      exact h.follow_ne ds hj
    rw [ih hj, Option.bind_some, h.step_of_some hne hm]

theorem follow_new (hdir : follow step root dir = some i) :
    follow step' root (dir ++ [c]) = some k := by
  rw [follow_concat, h.follow_of_some hdir, Option.bind_some, h.new]

theorem follow_below (hdir : follow step root dir = some i)
    (d : κ) (ds : List κ) : follow step' root (dir ++ [c] ++ d :: ds) = none := by
  rw [follow_append, h.follow_new hdir, Option.bind_some, follow_cons, h.leaf, Option.bind_none]

/-- In a tree a walk that does not go over the new edge is as it was. -/
theorem follow_frame (ht : IsTree step root)
    (hdir : follow step root dir = some i) (hq : ¬dir ++ [c] <+: q) :
    follow step' root q = follow step root q := by
  induction q using List.reverseRecOn with
  | nil => rfl
  | append_singleton ds d ih =>
    have hds := ih (fun hpre => hq (hpre.trans (List.prefix_append ds [d])))
    rw [follow_concat, follow_concat, hds]
    cases hj : follow step root ds with
    | none => rfl
    | some j =>
      apply h.old
      · rintro rfl
        exact h.follow_ne ds hj
      · rintro rfl rfl
        -- the walk is the one to the new node
        rw [ht.follow_inj hj hdir] at hq
        exact hq (List.prefix_refl _)

theorem follow_cases (ht : IsTree step root)
    (hdir : follow step root dir = some i) {m : ι} (hq : follow step' root q = some m) :
    q = dir ++ [c] ∨ follow step root q = some m := by
  by_cases hpre : dir ++ [c] <+: q
  · rcases hpre with ⟨rest, rfl⟩
    cases rest with
    | nil => exact .inl (List.append_nil _)
    | cons d ds =>
      rw [h.follow_below hdir] at hq
      cases hq
  · rw [h.follow_frame ht hdir hpre] at hq
    exact .inr hq

end

end AddLeaf

end SysLib
