import Workflow.Number.Decimal

/-!
# Issues

What a check can report about a whole program.
-/

namespace Workflow

/-- The checks of a program, in the order in which they run. -/
inductive Check where
  | workflowNames
  | stepNames
  | subworkflowNames
  | jumpTargets
  | callArguments
  deriving DecidableEq, Repr

namespace Check

def all : List Check :=
  [.workflowNames, .stepNames, .subworkflowNames, .jumpTargets, .callArguments]

/-- The name under which a check reports and can be disabled. -/
def name : Check → String
  | .workflowNames => "invalidWorkflowName"
  | .stepNames => "duplicatedStepName"
  | .subworkflowNames => "duplicatedSubworkflowName"
  | .jumpTargets => "missingJumpTarget"
  | .callArguments => "wrongNumberOfCallArguments"

def ofName? (name : String) : Option Check :=
  all.find? (·.name == name)

def unknownMessage (name : String) : String :=
  "unknown validator '" ++ name ++ "' (valid names: " ++ ", ".intercalate (all.map Check.name) ++
    ")"

end Check

inductive JumpKind where
  | call
  | next
  deriving DecidableEq

def JumpKind.describe : JumpKind → String
  | .call => "call"
  | .next => "next"

inductive Issue where
  /-- The subworkflow at an index has no name. -/
  | emptyName (index : Nat)
  | repeatedStep (step subworkflow : String)
  | repeatedSubworkflow (subworkflow : String)
  | missingTarget (kind : JumpKind) (target step subworkflow : String)
  | missingArgument (param target step : String)
  | unknownArgument (arg target step : String)
  deriving DecidableEq

namespace Issue

def check : Issue → Check
  | .emptyName _ => .workflowNames
  | .repeatedStep _ _ => .stepNames
  | .repeatedSubworkflow _ => .subworkflowNames
  | .missingTarget _ _ _ _ => .jumpTargets
  | .missingArgument _ _ _ => .callArguments
  | .unknownArgument _ _ _ => .callArguments

def message : Issue → String
  | .emptyName index => "Subworkflow #" ++ Decimal.natText (index + 1) ++ " has an empty name"
  | .repeatedStep step subworkflow =>
    "Duplicated step name '" ++ step ++ "' in subworkflow '" ++ subworkflow ++ "'"
  | .repeatedSubworkflow subworkflow => "Duplicated subworkflow name '" ++ subworkflow ++ "'"
  | .missingTarget kind target step subworkflow =>
    "Missing jump target '" ++ target ++ "' for " ++ kind.describe ++ " in step '" ++ step ++
      "' of subworkflow '" ++ subworkflow ++ "'"
  | .missingArgument param target step =>
    "Required parameter '" ++ param ++ "' missing in call to '" ++ target ++ "' in step '" ++
      step ++ "'"
  | .unknownArgument arg target step =>
    "Unknown argument '" ++ arg ++ "' in call to '" ++ target ++ "' in step '" ++ step ++ "'"

end Issue

end Workflow
