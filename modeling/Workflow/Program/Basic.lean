import Workflow.Step.Walk

/-!
# Programs

A program is a list of subworkflows, in source order. Names may be repeated here; that is for the
checks to report.
-/

namespace Workflow

structure Parameter where
  name : String
  default : Option Primitive
  deriving DecidableEq

structure Subworkflow (α : Type) where
  name : String
  params : List Parameter
  steps : List (Step α)

abbrev Program (α : Type) := List (Subworkflow α)

/-- All steps of a subworkflow, those inside steps included. -/
def Subworkflow.walk {α : Type} (w : Subworkflow α) : List (Step α) := Step.walkAll w.steps

def Subworkflow.stepNames (w : Subworkflow String) : List String := w.walk.map Step.label

end Workflow
