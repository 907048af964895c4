import Workflow.CommandLine.Arguments
import Workflow.Trace

/-!
# Runs of the command line

A run reads one file, compiles it, and writes the document or the failure. What it needs from the
outside is the content of that file.
-/

namespace Workflow.CommandLine

inductive ReadFailure where
  | notFound
  | isDirectory
  | notDirectory
  | nameTooLong
  | notText
  /-- A reason of the surroundings, in their words. -/
  | other (reason : String)
  deriving DecidableEq

def ReadFailure.message : ReadFailure → String
  | .notFound => "No such file or directory (os error 2)"
  | .isDirectory => "Is a directory (os error 21)"
  | .notDirectory => "Not a directory (os error 20)"
  | .nameTooLong => "File name too long (os error 36)"
  | .notText => "stream did not contain valid UTF-8"
  | .other reason => reason

def decode (bytes : ByteArray) : Except ReadFailure String :=
  match String.fromUTF8? bytes with
  | some text => .ok text
  | none => .error .notText

structure Outcome where
  status : Nat
  stdout : String
  stderr : String
  deriving DecidableEq

def usage : String := "Usage: workflowscript [OPTIONS] [FILE]"

def versionText : String := "workflowscript 0.1.0\n"

def helpText : String :=
  "Compile WorkflowScript source into a workflow definition\n\n" ++ usage ++ "\n\n" ++
  "Arguments:\n" ++
  "  [FILE]  Path to the WorkflowScript source file\n\n" ++
  "Options:\n" ++
  "      --disable <VALIDATOR>          " ++
    "Validators to disable (repeatable or comma-separated)\n" ++
  "      --output <OUTPUT>              " ++
    "Output format (yaml or json) [default: yaml] [possible values: yaml, json]\n" ++
  "      --error-format <ERROR_FORMAT>  " ++
    "Error report format (text or json) [default: text] [possible values: text, json]\n" ++
  "      --verbose                      Log pipeline stages to stderr\n" ++
  "  -h, --help                         Print help\n" ++
  "  -V, --version                      Print version\n"

def documentText : OutputFormat → Document → String
  | .yaml, d => d.toYaml
  | .json, d => d.toPrettyJson 0 ++ "\n"

def readFailureText (format : ErrorFormat) (file : String) (failure : ReadFailure) : String :=
  let message := "cannot read " ++ file ++ ": " ++ failure.message
  match format with
  | .text => "error: " ++ message ++ "\n"
  | .json =>
    (Document.object [("kind", .string "IoError"), ("message", .string message)]).toJson ++ "\n"

def reportText : ErrorFormat → Report → String
  | .text, r => r.kind.name ++ ": " ++ r.text ++ "\n"
  | .json, r => r.toDocument.toPrettyJson 0 ++ "\n"

def logLine (e : Event) : String :=
  e.level.name ++ " " ++ e.target ++ ": " ++ e.message ++ " " ++ e.detail.1 ++ "=" ++ e.detail.2 ++
    "\n"

def log (options : Options) (source : String) : String :=
  if options.verbose then
    String.join (((compileEvents options.disabled source).filter (·.level = .debug)).map logLine)
  else ""

def compileFile (options : Options) (file : String) (content : Except ReadFailure String) :
    Outcome :=
  let errors := options.errors.getD .text
  match content with
  | .error failure => ⟨1, "", readFailureText errors file failure⟩
  | .ok source =>
    match compile options.disabled source with
    | .ok document =>
      ⟨0, documentText (options.output.getD .yaml) document, log options source⟩
    | .error failure =>
      ⟨1, "", log options source ++ reportText errors (.ofFailure failure)⟩

def Request.file? : Request → Option String
  | .run options => options.file
  | _ => none

/-- The outcome of a request, given the content of the file that it needs. -/
def Request.outcome (content : Except ReadFailure String) : Request → Outcome
  | .help => ⟨0, helpText, ""⟩
  | .version => ⟨0, versionText, ""⟩
  | .misuse => ⟨2, "", "error: wrong arguments\n\n" ++ usage ++ "\n"⟩
  | .run options =>
    match options.file with
    | none => ⟨1, "", usage ++ "\n"⟩
    | some file => compileFile options file content

/-- The outcome of a run, where files are read by a function. -/
def run (args : List String) (readFile : String → Except ReadFailure String) : Outcome :=
  let request := read .start args
  request.outcome ((request.file?.map readFile).getD (.error .notFound))

end Workflow.CommandLine
