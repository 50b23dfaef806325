import Mathlib.Logic.Function.Basic

/-!
Two parties that take turns at a shared state in any order. Each party reads the shared state, and later puts something
in its place; the runs remember of each party whether the other one put something in between.
-/

namespace BashOs.Lib

/-- The shared state, each party's own, and of each whether it has been overtaken: whether the other one has put
something since this one began to read. -/
structure Parties (Shared Part : Type) where
  shared : Shared
  part : Bool → Part
  overtaken : Bool → Bool

/-- What a party does in a turn, a choice being left to its surroundings; when it is between reading and putting; and
which turns put. -/
structure TurnRules (Shared Part Choice : Type) where
  step : Bool → Choice → Shared → Part → Shared × Part
  reading : Part → Bool
  puts : Part → Part → Bool

namespace TurnRules

variable {Shared Part Choice : Type} (rules : TurnRules Shared Part Choice) (world : Parties Shared Part)

def turn (move : Bool × Choice) : Parties Shared Part :=
  let result := rules.step move.1 move.2 world.shared (world.part move.1)
  { shared := result.1
    part := Function.update world.part move.1 result.2
    overtaken := fun who => world.overtaken who ||
      (who != move.1 && rules.puts (world.part move.1) result.2 && rules.reading (world.part who)) }

variable (who : Bool) (choice : Choice)

theorem forall_who {P : Bool → Prop} (self : P who) (other : P (!who)) : ∀ x, P x := by
  intro x
  by_cases same : x = who
  · exact same ▸ self
  · rwa [Bool.eq_not_of_ne same]

/-- A turn changes the shared state and the one party, and overtakes the other if it puts something while that one
reads. -/
theorem turn_spec : let after := rules.turn world (who, choice)
    let result := rules.step who choice world.shared (world.part who)
    after.shared = result.1 ∧ after.part who = result.2 ∧ after.part (!who) = world.part (!who) ∧
      after.overtaken who = world.overtaken who ∧
      after.overtaken (!who) =
        (world.overtaken (!who) || (rules.puts (world.part who) result.2 && rules.reading (world.part (!who)))) ∧
      (rules.puts (world.part who) result.2 = false → after.overtaken = world.overtaken) := by
  refine ⟨rfl, Function.update_self .., Function.update_of_ne
    (by simp) .., by simp [turn], by simp [turn], fun calm => ?_⟩
  simp [turn, calm]

def run (moves : List (Bool × Choice)) : Parties Shared Part := moves.foldl rules.turn world

theorem run_invariant (Inv : Parties Shared Part → Prop)
    (keeps : ∀ world who choice, Inv world → Inv (rules.turn world (who, choice))) (start : Inv world)
    (moves : List (Bool × Choice)) : Inv (rules.run world moves) := by
  induction moves generalizing world with
  | nil => exact start
  | cons move moves ih => exact ih (rules.turn world move) (keeps world move.1 move.2 start)

end TurnRules

end BashOs.Lib
