import Workflow.Check.Issue
import Workflow.Program.Basic

/-!
# Checks of names

Subworkflows have names, no two of them the same, and no two steps of a subworkflow share a name.
-/

namespace Workflow

/-- The names that occur more than once, each once, in the order of first occurrence. -/
def repeatedNames (names : List String) : List String :=
  names.eraseDups.filter fun name => 1 < names.count name

namespace Check

/-- The subworkflows without a name, counted from an index. -/
def emptyNames (index : Nat) : Program String → List Issue
  | [] => []
  | w :: rest =>
    if w.name.isEmpty then .emptyName index :: emptyNames (index + 1) rest
    else emptyNames (index + 1) rest

def repeatedSteps (program : Program String) : List Issue :=
  program.flatMap fun w => (repeatedNames w.stepNames).map fun step => .repeatedStep step w.name

def repeatedSubworkflows (program : Program String) : List Issue :=
  (repeatedNames (program.map (·.name))).map .repeatedSubworkflow

end Check

end Workflow
