import Workflow.Check.Basic
import Workflow.Document.Basic
import Workflow.Grammar.Program
import Workflow.Program.Defect
import Workflow.Token.Scan

/-!
# Reports of failures

A compilation fails at its first fault in the source text, or with all issues of the checks. A
report is what a reader is told about it: as a line of text, or as a document.
-/

namespace Workflow

inductive Failure where
  | scan (error : Token.ScanError)
  | parse (error : Grammar.ParseError)
  | build (error : BuildError)
  | invalid (issues : List Issue)

inductive ReportKind where
  | lex
  | parse
  | postParsing
  | validation
  | internal
  | yaml
  deriving DecidableEq

def ReportKind.name : ReportKind → String
  | .lex => "LexError"
  | .parse => "ParseError"
  | .postParsing => "PostParsingError"
  | .validation => "WorkflowValidationError"
  | .internal => "InternalParsingError"
  | .yaml => "YamlError"

structure ReportedIssue where
  check : Check
  message : String
  deriving DecidableEq

structure Report where
  kind : ReportKind
  message : String
  position : Option Position
  issues : List ReportedIssue
  deriving DecidableEq

namespace Report

/-- The report of a text that goes on with no token. -/
def lex (text : String) (position : Position) : Report :=
  ⟨.lex, "unexpected character sequence '" ++ text ++ "'", some position, []⟩

/-- The report of a token that the grammar does not take. -/
def parse (message : String) (position : Position) : Report :=
  ⟨.parse, message, some position, []⟩

/-- The report of a defect of a program whose grammar is right. -/
def postParsing (message : String) (position : Option Position) : Report :=
  ⟨.postParsing, message, position, []⟩

def validation (issues : List ReportedIssue) : Report :=
  ⟨.validation,
    "workflow validation failed with " ++ Decimal.natText issues.length ++ " issue(s)", none,
    issues⟩

/-- The report of a syntax tree that the grammar does not make. -/
def internal (message : String) : Report := ⟨.internal, message, none, []⟩

/-- The report of a document that has no YAML text. -/
def yaml (message : String) : Report := ⟨.yaml, message, none, []⟩

def ofParseError : Grammar.ParseError → Report
  | .emptyStream => parse "empty token stream" .nowhere
  | .unendedStream position => parse "token stream does not end with end of input" position
  | .unexpected expected found position =>
    let found := match found with
      | none => "end of input"
      | some image => "'" ++ image ++ "'"
    parse ("expected " ++ expected.describe ++ ", found " ++ found) position
  | .bareTry position =>
    postParsing "A try statement must have a retry clause, a catch clause, or both" (some position)

def ofBuildError : BuildError → Report
  | .defect defect position => postParsing defect.message (some position)
  | .malformed malformation => internal malformation.message

def ofFailure : Failure → Report
  | .scan error => lex error.text error.position
  | .parse error => ofParseError error
  | .build error => ofBuildError error
  | .invalid issues => validation (issues.map fun issue => ⟨issue.check, issue.message⟩)

/-- The words in front of the message of a kind. -/
def leader (r : Report) : String :=
  match r.kind with
  | .internal => "internal parsing error: "
  | .yaml => "YAML serialization failed: "
  | _ => ""

/-- The words behind a message that say where a fault is. -/
def place (r : Report) : String :=
  match r.position with
  | none => ""
  | some p =>
    " at " ++ p.describe ++
      if r.kind = .lex then " (offset " ++ Decimal.natText p.offset ++ ")" else ""

def issueLine (issue : ReportedIssue) : String :=
  "\n  " ++ issue.check.name ++ ": " ++ issue.message

/-- The text of a report. Each issue has a line of its own. -/
def text (r : Report) : String :=
  r.leader ++ r.message ++ r.place ++ String.join (r.issues.map issueLine)

def positionFields : Option Position → Fields Document
  | none => []
  | some p => [("line", .ofNat p.line), ("column", .ofNat p.column), ("offset", .ofNat p.offset)]

def issueFields (r : Report) : Fields Document :=
  if r.kind = .validation then
    [("issues", .array (r.issues.map fun issue =>
      .object [("type", .string issue.check.name), ("message", .string issue.message)]))]
  else []

def toDocument (r : Report) : Document :=
  .object ([("kind", .string r.kind.name), ("message", .string r.message)] ++
    positionFields r.position ++ r.issueFields)

def checks (r : Report) : List Check :=
  Check.all.filter fun check => r.issues.any (·.check = check)

end Report

end Workflow
