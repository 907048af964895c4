import Workflow.Proofs.Document.Schema

/-!
# The shape of compiled programs

The schema of the documents that programs are compiled into: an object with a field for each
subworkflow, steps as objects with one field each, and ten shapes of steps. What a loop runs over is
left open.
-/

namespace Workflow

/-- The definitions of the schema. -/
inductive Shape where
  | subworkflow
  | primitive
  | expression
  | stepList
  | step
  | assignStep
  | callStep
  | forBody
  | forStep
  | nextStep
  | parallelStep
  | raiseStep
  | returnStep
  | stepsStep
  | switchStep
  | tryStep
  deriving DecidableEq

namespace Shape

/-- The name of a step: lower-case letters and a number behind them. -/
def stepName : Pattern :=
  Pattern.some (fun c => 'a' ≤ c && c ≤ 'z') ++ Pattern.some Decimal.isDigit

/-- Whether a character ends a line. -/
def isLineEnd (c : Char) : Bool := c = '\n' || c = '\r' || c = '\u2028' || c = '\u2029'

/-- A text in braces behind a dollar sign, on one line. -/
def evaluatedText : Pattern :=
  [.one (· = '$'), .one (· = '\x7b'), .many (!isLineEnd ·), .one (· = '\x7d')]

/-- A string that is not empty. -/
def nonemptyString : Schema Shape := .both (.type [.string]) (.minLength 1)

/-- A list of values. -/
def listOf (s : Schema Shape) : Schema Shape := .both (.type [.array]) (.items s)

/-- An object with one field. -/
def singleField : Schema Shape := .all [.type [.object], .minProperties 1, .maxProperties 1]

/-- The fields of a parallel step. -/
def parallel : List (String × Schema Shape) :=
  [("shared", listOf (.type [.string])), ("concurrency_limit", .type [.integer]),
    ("exception_policy", .const "continueAll"), ("branches", .ref .stepList),
    ("for", .ref .forBody)]

/-- A case of a switch. -/
def switchCase : Schema Shape :=
  .closed ["condition"]
    [("condition", .any), ("steps", .ref .stepList), ("next", .type [.string])]

/-- A policy that is known by name, or one that is written out. -/
def retryPolicy : Schema Shape :=
  .oneOf (.ref .expression) (.closed ["predicate", "max_retries", "backoff"]
    [("predicate", .ref .expression), ("max_retries", .type [.number]),
      ("backoff", .closed ["initial_delay", "max_delay", "multiplier"]
        [("initial_delay", .type [.number]), ("max_delay", .type [.number]),
          ("multiplier", .type [.number])])])

/-- The fields of an attempt. -/
def attempt : List (String × Schema Shape) :=
  [("try", .closed ["steps"] [("steps", .ref .stepList)]), ("retry", retryPolicy),
    ("except", .closed ["as", "steps"] [("as", .type [.string]), ("steps", .ref .stepList)])]

/-- The shapes of steps. -/
def steps : List Shape :=
  [.assignStep, .callStep, .forStep, .nextStep, .parallelStep, .raiseStep, .returnStep, .stepsStep,
    .switchStep, .tryStep]

/-- The schema of a definition. -/
def schema : Shape → Schema Shape
  | .subworkflow => .closed ["steps"]
      [("params", listOf (.oneOf nonemptyString
          (.both singleField (.otherProperties [] (.ref .primitive))))),
        ("steps", .ref .stepList)]
  | .primitive => .type [.string, .number, .boolean, .null]
  | .expression => .both (.type [.string]) (.pattern evaluatedText)
  | .stepList => listOf (.all [singleField, .propertyNames (.pattern stepName),
      .otherProperties [] (.ref .step)])
  | .step => .anyOf (steps.map .ref)
  | .assignStep => .closed ["assign"] [("assign", .both (.minItems 1) (listOf singleField))]
  | .callStep => .closed ["call"]
      [("call", nonemptyString), ("args", .type [.object]), ("result", nonemptyString)]
  | .forBody => .both (.closed ["value", "steps"]
      [("value", .type [.string]), ("index", .type [.string]), ("in", .any),
        ("range", .all [.minItems 2, .maxItems 2, listOf (.type [.number])]),
        ("steps", .ref .stepList)])
      (.oneOf (.required ["in"]) (.required ["range"]))
  | .forStep => .closed ["for"] [("for", .ref .forBody)]
  | .nextStep => .closed ["next"] [("next", nonemptyString)]
  | .parallelStep => .closed ["parallel"]
      [("parallel", .both (.closed [] parallel)
          (.oneOf (.required ["branches"]) (.required ["for"])))]
  | .raiseStep => .closed ["raise"] [("raise", .any)]
  | .returnStep => .closed ["return"] [("return", .any)]
  | .stepsStep => .closed ["steps"] [("steps", .ref .stepList)]
  | .switchStep => .closed ["switch"]
      [("switch", .both (.minItems 1) (listOf switchCase)), ("next", .type [.string])]
  | .tryStep => .closed ["try"] attempt

/-- The definitions, with that of a step above the shapes of steps. -/
def definitions : Definitions Shape where
  schema := schema
  ranks shape := if shape = .step then 1 else 0
  rank_le shape := by
    cases shape with
    | _ => decide

theorem accepts_ref {shape : Shape} {d : Document} :
    definitions.accepts (.ref shape) d = definitions.accepts shape.schema d :=
  Definitions.accepts_ref

theorem accepts_listOf {s : Schema Shape} {items : List Document} :
    definitions.accepts (listOf s) (.array items) = items.all (definitions.accepts s) := by
  simp [listOf, Document.hasType]

/-- The schema of the document of a program. -/
def program : Schema Shape :=
  .all [.type [.object], .minProperties 1, .otherProperties [] (.ref .subworkflow)]

end Shape

/-- Whether a document is like the document of a program. -/
def Document.conforms (d : Document) : Bool := Shape.definitions.accepts Shape.program d

example : (Document.object []).conforms = false := by cbv

example : (Document.single "main" (.single "params" (.array [.string "a"]))).conforms = false := by
  cbv

example : (Document.single "main" (.single "steps" (.array [.single "assign1"
    (.object [("assign", .array [.single "a" (.int 1)]), ("next", .string "end")])]))).conforms =
      false := by
  cbv

end Workflow
