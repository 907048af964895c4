import Workflow.Step.Basic

/-!
# Walking through steps

All steps of a list and the steps inside them, each before those inside it.
-/

namespace Workflow

variable {α : Type}

mutual

def Step.walk : Step α → List (Step α)
  | .mk label action => .mk label action :: action.walk

def Action.walk : Action α → List (Step α)
  | .loop _ body => Step.walkAll body
  | .branches _ branches => Step.walkAll branches
  | .parallelLoop _ _ body => Step.walkAll body
  | .steps body => Step.walkAll body
  | .switch cases _ => Case.walkAll cases
  | .attempt body _ _ handler => Step.walkAll body ++ Step.walkAll handler
  | _ => []

def Step.walkAll : List (Step α) → List (Step α)
  | [] => []
  | step :: rest => step.walk ++ Step.walkAll rest

def Case.walkAll : List (Case α) → List (Step α)
  | [] => []
  | .mk _ body _ :: rest => Step.walkAll body ++ Case.walkAll rest

end

def Step.labels (steps : List (Step α)) : List α := (Step.walkAll steps).map Step.label

end Workflow
