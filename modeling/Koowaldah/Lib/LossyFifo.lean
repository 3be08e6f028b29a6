import Mathlib

/-!
# Lossy FIFO queues

A queue that may lose what is put in when `cap` elements are stored, and never
else.  What is taken out is seen through a function `f`.

A log records what was put in, with whether it was stored, what was taken out,
and the attempts that found the queue empty.  `Valid` says that a log is one of
a lossy queue, and `Valid.taken` that what was taken out is then what was stored
first.
-/

namespace SysLib

namespace LossyFifo

variable {α β : Type}

/-- What is put on record. -/
inductive Event (α β : Type) where
  | put (a : α) (stored : Bool)
  | took (b : β)
  | foundEmpty
deriving DecidableEq, Repr

def puts : List (Event α β) → List α
  | [] => []
  | .put a _ :: log => a :: puts log
  | _ :: log => puts log

def storeds : List (Event α β) → List α
  | [] => []
  | .put a true :: log => a :: storeds log
  | _ :: log => storeds log

def takens : List (Event α β) → List β
  | [] => []
  | .took b :: log => b :: takens log
  | _ :: log => takens log

/-- An event that a lossy queue with these elements allows. -/
def Event.Fits (cap : Nat) (f : α → β) (q : List α) : Event α β → Prop
  | .put _ true => True
  | .put _ false => cap ≤ q.length
  | .took b => ∃ a rest, q = a :: rest ∧ b = f a
  | .foundEmpty => q = []

/-- The elements after an event. -/
def Event.perform (q : List α) : Event α β → List α
  | .put a true => q ++ [a]
  | .put _ false => q
  | .took _ => q.tail
  | .foundEmpty => q

def after (q : List α) (log : List (Event α β)) : List α := log.foldl Event.perform q

/-- A log of a lossy queue. -/
def Valid (cap : Nat) (f : α → β) : List α → List (Event α β) → Prop
  | _, [] => True
  | q, e :: log => e.Fits cap f q ∧ Valid cap f (e.perform q) log

variable {cap : Nat} {f : α → β} {q : List α} {log a b : List (Event α β)}

theorem after_append : after q (a ++ b) = after (after q a) b := List.foldl_append

theorem valid_append : Valid cap f q (a ++ b) ↔ Valid cap f q a ∧ Valid cap f (after q a) b := by
  induction a generalizing q with
  | nil => exact (and_iff_right trivial).symm
  | cons e a ih =>
    show e.Fits cap f q ∧ Valid cap f (e.perform q) (a ++ b) ↔
      (e.Fits cap f q ∧ Valid cap f (e.perform q) a) ∧ _
    rw [ih, and_assoc]
    rfl

theorem storeds_sublist (log : List (Event α β)) : (storeds log).Sublist (puts log) := by
  induction log with
  | nil => exact List.Sublist.refl _
  | cons e log ih =>
    cases e with
    | put a stored =>
      cases stored with
      | true => exact ih.cons_cons a
      | false => exact ih.cons a
    | took b => exact ih
    | foundEmpty => exact ih

/-- What was taken out is the first part of what was stored, and what is left is
the rest. -/
theorem Valid.taken (hvalid : Valid cap f q log) :
    ∃ xs, takens log = xs.map f ∧ xs ++ after q log = q ++ storeds log := by
  induction log generalizing q with
  | nil => exact ⟨[], rfl, (List.append_nil q).symm⟩
  | cons e log ih =>
    rcases ih hvalid.2 with ⟨xs, htakens, hxs⟩
    have hfits := hvalid.1
    cases e with
    | put a stored =>
      cases stored with
      | true =>
        refine ⟨xs, htakens, ?_⟩
        show _ ++ after (q ++ [a]) log = q ++ a :: storeds log
        rw [show after (q ++ [a]) log = after (Event.perform q (.put a true)) log from rfl, hxs]
        show q ++ [a] ++ storeds log = _
        rw [List.append_assoc]
        rfl
      | false => exact ⟨xs, htakens, hxs⟩
    | took b =>
      rcases hfits with ⟨a, rest, rfl, rfl⟩
      refine ⟨a :: xs, ?_, ?_⟩
      · show f a :: takens log = f a :: xs.map f
        rw [htakens]
      · show a :: (xs ++ after rest log) = a :: (rest ++ storeds log)
        exact congrArg (a :: ·) hxs
    | foundEmpty => exact ⟨xs, htakens, hxs⟩

end LossyFifo

end SysLib
