import Workflow.Expr.Lowering
import Workflow.Program.Basic

/-!
# Programs as documents

A subworkflow becomes a field of the document, a list of steps an array of objects with one field
each, the name of the step, and a step an object of the fields of its kind.
-/

namespace Workflow

/-- The document of a parameter: its name, or an object with its default value. -/
def Parameter.toDocument (p : Parameter) : Document :=
  match p.default with
  | none => .string p.name
  | some value => .single p.name value.toDocument

def assignmentsDocument (assignments : List (String × Expr)) : Document :=
  .array (assignments.map fun a => .single a.1 a.2.toDocument)

def argumentFields (args : List (String × Expr)) : Fields Document :=
  if args.isEmpty then []
  else [("args", .object (Fields.ofPairs (args.map fun a => (a.1, a.2.toDocument))))]

def LoopHead.fields (head : LoopHead) : Fields Document :=
  ("value", .string head.value) :: Fields.optional "index" (head.index.map .string) ++
    [match head.iterable with
      | .items e => ("in", e.toDocument)
      | .range first last => ("range", .array [first.toDocument, last.toDocument])]

def ParallelOptions.fields (options : ParallelOptions) : Fields Document :=
  Fields.optional "shared" (options.shared.map fun names => .array (names.map .string)) ++
    Fields.optional "concurrency_limit" (options.concurrencyLimit.map fun n => .int n.toInt) ++
    Fields.optional "exception_policy" (options.exceptionPolicy.map .string)

def RetryPolicy.toDocument : RetryPolicy → Document
  | .named name => .string (evaluated name)
  | .custom predicate maxRetries initialDelay maxDelay multiplier =>
    .object [("predicate", .string (evaluated predicate)),
      ("max_retries", maxRetries.toDocument),
      ("backoff", .object [("initial_delay", initialDelay.toDocument),
        ("max_delay", maxDelay.toDocument), ("multiplier", multiplier.toDocument)])]

mutual

/-- The document of a step: an object with its name as the only field. -/
def Step.toDocument : NamedStep → Document
  | .mk name action => .single name (.object action.fields)

def Action.fields : Action String → Fields Document
  | .assign assignments => [("assign", assignmentsDocument assignments)]
  | .call target args result =>
    ("call", .string target) :: argumentFields args ++
      Fields.optional "result" (result.map .string)
  | .loop head body =>
    [("for", .object (head.fields ++ [("steps", .array (Step.toDocuments body))]))]
  | .next target => [("next", .string target)]
  | .branches options branches =>
    [("parallel", .object (options.fields ++ [("branches", .array (Step.toDocuments branches))]))]
  | .parallelLoop options head body =>
    [("parallel", .object (options.fields ++
      [("for", .object (head.fields ++ [("steps", .array (Step.toDocuments body))]))]))]
  | .raise value => [("raise", value.toDocument)]
  | .return none => [("next", .string "end")]
  | .return (some value) => [("return", value.toDocument)]
  | .steps body => [("steps", .array (Step.toDocuments body))]
  | .switch cases next =>
    ("switch", .array (Case.toDocuments cases)) :: Fields.optional "next" (next.map .string)
  | .attempt body retry errorName handler =>
    ("try", .single "steps" (.array (Step.toDocuments body))) ::
      Fields.optional "retry" (retry.map RetryPolicy.toDocument) ++
      match errorName with
      | none => []
      | some name =>
        if handler.isEmpty then []
        else [("except", .object [("as", .string name),
          ("steps", .array (Step.toDocuments handler))])]

def Step.toDocuments : List NamedStep → List Document
  | [] => []
  | step :: rest => step.toDocument :: Step.toDocuments rest

def Case.toDocuments : List (Case String) → List Document
  | [] => []
  | .mk condition body next :: rest =>
    .object (("condition", condition.toDocument) ::
      (if body.isEmpty then [] else [("steps", .array (Step.toDocuments body))]) ++
      Fields.optional "next" (next.map .string)) :: Case.toDocuments rest

end

def Subworkflow.toDocument (w : Subworkflow String) : Document :=
  .object ((if w.params.isEmpty then []
    else [("params", .array (w.params.map Parameter.toDocument))]) ++
    [("steps", .array (Step.toDocuments w.steps))])

/-- The document of a program. Of several subworkflows of one name the last counts, at the place of
the first. -/
def Program.toDocument (program : Program String) : Document :=
  .object (Fields.ofPairs (program.map fun w => (w.name, w.toDocument)))

end Workflow
