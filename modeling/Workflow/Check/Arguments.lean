import Workflow.Check.Issue
import Workflow.Program.Basic

/-!
# Checks of call arguments

A call of a subworkflow gives every parameter that has no default value, and nothing that is not a
parameter. Where several subworkflows have the name, the first one counts.
-/

namespace Workflow

/-- The strings of a list, each once, in the order of their characters. -/
def sortedDistinct (names : List String) : List String :=
  names.eraseDups.mergeSort fun a b => decide (a ≤ b)

namespace Subworkflow

def requiredNames {α : Type} (w : Subworkflow α) : List String :=
  (w.params.filter (·.default.isNone)).map (·.name)

def paramNames {α : Type} (w : Subworkflow α) : List String := w.params.map (·.name)

end Subworkflow

namespace Check

def argumentIssues (callee : Subworkflow String) (args : List String) (target step : String) :
    List Issue :=
  ((sortedDistinct callee.requiredNames).filter fun param => !args.contains param).map
      (fun param => .missingArgument param target step) ++
    ((sortedDistinct args).filter fun arg => !callee.paramNames.contains arg).map
      (fun arg => .unknownArgument arg target step)

def argumentsOfStep (program : Program String) (step : NamedStep) : List Issue :=
  match step.action with
  | .call target args _ =>
    match program.find? (·.name == target) with
    | some callee => argumentIssues callee (args.map Prod.fst) target step.label
    | none => []
  | _ => []

def wrongArguments (program : Program String) : List Issue :=
  program.flatMap fun w => w.walk.flatMap (argumentsOfStep program)

end Check

end Workflow
