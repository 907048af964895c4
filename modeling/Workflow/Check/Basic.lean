import Workflow.Check.Arguments
import Workflow.Check.Names
import Workflow.Check.Targets

/-!
# Checks of whole programs

Every check that is not disabled runs, and all their issues are reported together.
-/

namespace Workflow

def Check.run : Check → Program String → List Issue
  | .workflowNames => Check.emptyNames 0
  | .stepNames => Check.repeatedSteps
  | .subworkflowNames => Check.repeatedSubworkflows
  | .jumpTargets => Check.missingTargets
  | .callArguments => Check.wrongArguments

def Program.issues (disabled : List Check) (program : Program String) : List Issue :=
  (Check.all.filter fun check => !disabled.contains check).flatMap fun check => check.run program

end Workflow
