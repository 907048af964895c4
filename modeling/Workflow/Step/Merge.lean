import Workflow.Step.Basic

/-!
# Merging assignments

Neighbouring assignments of a block become one step that makes them in order.
-/

namespace Workflow

variable {α : Type}

/-- Puts a step in front of merged steps. -/
def Step.mergeOnto (step : Step α) (rest : List (Step α)) : List (Step α) :=
  match step, rest with
  | .mk label (.assign xs), .mk _ (.assign ys) :: others => .mk label (.assign (xs ++ ys)) :: others
  | step, rest => step :: rest

/-- Merges each run of neighbouring assignments into one step. Steps inside steps stay as they
are. -/
def Step.merge (steps : List (Step α)) : List (Step α) :=
  steps.foldr Step.mergeOnto []

end Workflow
