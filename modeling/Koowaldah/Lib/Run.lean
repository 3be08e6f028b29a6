import Mathlib

/-!
# Runs of a step function

A program that is called again and again is a step function
`step : S → A → Option S`: the state after one action, or `none` when the
action is not allowed in that state.  `run step s acts` performs a list of
actions in order.

`run_invariant` is the rule every safety result uses: what the first state
has and every step keeps, the last state has.  `Meets` singles out the runs
whose steps all meet a condition on the state before the step, and
`run_invariant_of_meets` is the rule for them.  Whether a run on a fixed input
meets a condition can be evaluated.
-/

namespace SysLib

theorem bind_eq_ok {E α β : Type} {x : Except E α} {f : α → Except E β} {b : β} :
    (x >>= f) = .ok b ↔ ∃ a, x = .ok a ∧ f a = .ok b := by
  cases x with
  | error e =>
    constructor
    · exact nofun
    · intro h
      rcases h with ⟨a, ha, -⟩
      cases ha
  | ok a =>
    constructor
    · exact fun h => ⟨a, rfl, h⟩
    · intro h
      rcases h with ⟨a', ha, hb⟩
      rw [Except.ok.inj ha]
      exact hb

theorem bind_congr_ok {E α β : Type} {x : Except E α} {f g : α → Except E β}
    (h : ∀ a, x = .ok a → f a = g a) : (x >>= f) = (x >>= g) := by
  cases x with
  | error e => rfl
  | ok a => exact h a rfl

theorem toOption_eq_some {E α : Type} {x : Except E α} {a : α} :
    x.toOption = some a ↔ x = .ok a := by
  cases x with
  | error e => exact iff_of_false nofun nofun
  | ok b => exact Option.some_inj.trans (Except.ok.injEq b a ▸ Iff.rfl)

variable {S A : Type}

/-- Perform the actions in order; `none` as soon as one is not allowed. -/
def run (step : S → A → Option S) : S → List A → Option S
  | s, [] => some s
  | s, a :: acts => (step s a).bind (fun s' => run step s' acts)

@[simp] theorem run_nil (step : S → A → Option S) (s : S) : run step s [] = some s := rfl

theorem run_cons (step : S → A → Option S) (s : S) (a : A) (acts : List A) :
    run step s (a :: acts) = (step s a).bind (fun s' => run step s' acts) := rfl

theorem run_cons_eq_some {step : S → A → Option S} {s t : S} {a : A} {acts : List A} :
    run step s (a :: acts) = some t ↔ ∃ s', step s a = some s' ∧ run step s' acts = some t := by
  rw [run_cons, Option.bind_eq_some_iff]

/-- What every step keeps, every run keeps. -/
theorem run_invariant {step : S → A → Option S} (Inv : S → Prop)
    (hstep : ∀ s a s', Inv s → step s a = some s' → Inv s') :
    ∀ {acts : List A} {s t : S}, Inv s → run step s acts = some t → Inv t
  | [], s, t, hs, hrun => by
    obtain rfl : s = t := Option.some_inj.mp hrun
    exact hs
  | a :: acts, s, t, hs, hrun => by
    obtain ⟨s', hs', hrest⟩ := run_cons_eq_some.mp hrun
    exact run_invariant Inv hstep (hstep s a s' hs hs') hrest

/-- Every action of a run meets a condition in the state it is performed in. -/
def Meets (step : S → A → Option S) (cond : S → A → Prop) : S → List A → Prop
  | _, [] => True
  | s, a :: acts => cond s a ∧ ∀ s', step s a = some s' → Meets step cond s' acts

theorem meets_cons_none {step : S → A → Option S} {cond : S → A → Prop} {s : S} {a : A}
    {acts : List A} (hstep : step s a = none) : Meets step cond s (a :: acts) ↔ cond s a := by
  refine and_iff_left (fun s' hs' => ?_)
  rw [hstep] at hs'
  cases hs'

theorem meets_cons_some {step : S → A → Option S} {cond : S → A → Prop} {s s' : S} {a : A}
    {acts : List A} (hstep : step s a = some s') :
    Meets step cond s (a :: acts) ↔ cond s a ∧ Meets step cond s' acts := by
  refine and_congr_right (fun _ => ⟨fun h => h s' hstep, fun h s'' hs'' => ?_⟩)
  rw [hstep] at hs''
  cases hs''
  exact h

/-- Whether a run meets a condition can be found out by running it. -/
instance decidableMeets (step : S → A → Option S) (cond : S → A → Prop)
    [∀ s a, Decidable (cond s a)] : ∀ s acts, Decidable (Meets step cond s acts)
  | _, [] => isTrue trivial
  | s, a :: acts =>
    match hstep : step s a with
    | none => decidable_of_iff (cond s a) (meets_cons_none hstep).symm
    | some s' =>
      have := decidableMeets step cond s' acts
      decidable_of_iff (cond s a ∧ Meets step cond s' acts) (meets_cons_some hstep).symm

/-- Two conditions that agree where an invariant holds, which the steps that meet
them keep, are met by the same runs among those that meet a third. -/
theorem meets_congr_of_meets {step : S → A → Option S} {G P Q : S → A → Prop}
    (Inv : S → Prop) (hiff : ∀ s a, Inv s → G s a → (P s a ↔ Q s a))
    (hkeep : ∀ s a s', Inv s → G s a → Q s a → step s a = some s' → Inv s') :
    ∀ {acts : List A} {s : S}, Inv s → Meets step G s acts →
      (Meets step P s acts ↔ Meets step Q s acts)
  | [], _, _, _ => Iff.rfl
  | a :: acts, s, hs, hG => by
    show (P s a ∧ _) ↔ (Q s a ∧ _)
    rw [hiff s a hs hG.1]
    refine and_congr_right (fun hQ => forall₂_congr (fun s' hs' => ?_))
    exact meets_congr_of_meets Inv hiff hkeep (hkeep s a s' hs hG.1 hQ hs') (hG.2 s' hs')

theorem run_invariant_of_meets {step : S → A → Option S} {cond : S → A → Prop}
    (Inv : S → Prop) (hstep : ∀ s a s', Inv s → cond s a → step s a = some s' → Inv s') :
    ∀ {acts : List A} {s t : S}, Inv s → Meets step cond s acts →
      run step s acts = some t → Inv t
  | [], s, t, hs, _, hrun => by
    rw [← Option.some_inj.mp hrun]
    exact hs
  | a :: acts, s, t, hs, hmeets, hrun => by
    rcases run_cons_eq_some.mp hrun with ⟨s', hs', hrest⟩
    exact run_invariant_of_meets Inv hstep (hstep s a s' hs hmeets.1 hs')
      (hmeets.2 s' hs') hrest

theorem run_append_eq_some {step : S → A → Option S} {acts' : List A} {t : S} :
    ∀ {acts : List A} {s : S}, run step s (acts ++ acts') = some t ↔
      ∃ s', run step s acts = some s' ∧ run step s' acts' = some t
  | [], s => by simp
  | _ :: _, s => by
    simp only [List.cons_append, run_cons_eq_some, run_append_eq_some]
    constructor
    · rintro ⟨u, hu, v, hv, ht⟩
      exact ⟨v, ⟨u, hu, hv⟩, ht⟩
    · rintro ⟨v, ⟨u, hu, hv⟩, ht⟩
      exact ⟨u, hu, v, hv, ht⟩

theorem meets_of_forall {step : S → A → Option S} {cond : S → A → Prop} :
    ∀ {acts : List A} {s : S}, (∀ a ∈ acts, ∀ s, cond s a) → Meets step cond s acts
  | [], _, _ => trivial
  | a :: _, s, h =>
    ⟨h a List.mem_cons_self s,
      fun _ _ => meets_of_forall (fun b hb => h b (List.mem_cons_of_mem a hb))⟩

theorem meets_congr {step : S → A → Option S} {P Q : S → A → Prop} (Inv : S → Prop)
    (hiff : ∀ s a, Inv s → (P s a ↔ Q s a))
    (hkeep : ∀ s a s', Inv s → Q s a → step s a = some s' → Inv s') {acts : List A} {s : S}
    (hs : Inv s) : Meets step P s acts ↔ Meets step Q s acts :=
  meets_congr_of_meets (G := fun _ _ => True) Inv (fun s a h _ => hiff s a h)
    (fun s a s' h _ => hkeep s a s' h) hs (meets_of_forall (fun _ _ _ => trivial))

end SysLib
