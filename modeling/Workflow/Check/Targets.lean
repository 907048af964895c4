import Workflow.Check.Issue
import Workflow.Program.Basic

/-!
# Checks of jump targets

A call goes to a function of a library, whose name has a dot, to a step of the same subworkflow or
to a subworkflow. A switch goes on at a step of the same subworkflow or at the end.
-/

namespace Workflow.Check

def endTarget : String := "end"

def isCallTarget (stepNames subworkflowNames : List String) (target : String) : Bool :=
  target.toList.contains '.' || stepNames.contains target || subworkflowNames.contains target

def isNextTarget (stepNames : List String) (target : String) : Bool :=
  target == endTarget || stepNames.contains target

def caseNext? : Case String → Option String
  | .mk _ _ next => next

/-- The targets of a step that are missing. Those of a switch come before those of its cases. -/
def missingOfStep (subworkflow : String) (stepNames subworkflowNames : List String)
    (step : NamedStep) : List Issue :=
  match step.action with
  | .call target _ _ =>
    if isCallTarget stepNames subworkflowNames target then []
    else [.missingTarget .call target step.label subworkflow]
  | .switch cases next =>
    let targets := next.toList ++ cases.filterMap caseNext?
    (targets.filter fun target => !isNextTarget stepNames target).map fun target =>
      .missingTarget .next target step.label subworkflow
  | _ => []

def missingTargets (program : Program String) : List Issue :=
  program.flatMap fun w =>
    w.walk.flatMap (missingOfStep w.name w.stepNames (program.map (·.name)))

end Workflow.Check
