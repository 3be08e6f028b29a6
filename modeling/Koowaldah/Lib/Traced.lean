import Mathlib

/-!
# Programs that leave a trace

A `Traced E S α` is a program on a state `S` that may stop.  On its way it leaves events, and
those in front of a stop are kept.  So one program says both what a function returns and which
stores it has made when it goes wrong.

`result_bind` and `events_bind` take a sequence of two programs apart.
-/

namespace SysLib

variable {E S α β : Type}

/-- The events of a run, and the state and the value at its end, or `none` if it stopped. -/
structure Outcome (E S α : Type) where
  events : List E
  result : Option (S × α)

structure Traced (E S α : Type) where
  run : S → Outcome E S α

namespace Traced

def stop : Traced E S α := ⟨fun _ => ⟨[], none⟩⟩

def emit (e : E) : Traced E S Unit := ⟨fun s => ⟨[e], some (s, ())⟩⟩

/-- Stop, unless the condition holds. -/
def check (c : Prop) [Decidable c] : Traced E S Unit :=
  ⟨fun s => ⟨[], if c then some (s, ()) else none⟩⟩

/-- A function of the state that may stop and leaves no events. -/
def call (f : S → Option (S × α)) : Traced E S α := ⟨fun s => ⟨[], f s⟩⟩

def read (f : S → α) : Traced E S α := ⟨fun s => ⟨[], some (s, f s)⟩⟩

protected def bind (x : Traced E S α) (f : α → Traced E S β) : Traced E S β where
  run s :=
    match (x.run s).result with
    | none => ⟨(x.run s).events, none⟩
    | some (s', a) => ⟨(x.run s).events ++ ((f a).run s').events, ((f a).run s').result⟩

instance : Monad (Traced E S) where
  pure a := read (fun _ => a)
  bind := Traced.bind

variable (x : Traced E S α) (f : α → Traced E S β) (s : S)

theorem result_bind :
    ((x >>= f).run s).result = (x.run s).result.bind (fun r => ((f r.2).run r.1).result) := by
  show ((Traced.bind x f).run s).result = _
  dsimp only [Traced.bind]
  cases (x.run s).result <;> rfl

theorem events_bind : ((x >>= f).run s).events =
      (x.run s).events ++ (x.run s).result.elim [] (fun r => ((f r.2).run r.1).events) := by
  show ((Traced.bind x f).run s).events = _
  dsimp only [Traced.bind]
  cases (x.run s).result with
  | none => exact (List.append_nil _).symm
  | some r => rfl

end Traced

end SysLib
