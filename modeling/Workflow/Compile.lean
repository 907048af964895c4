import Workflow.Document.Json
import Workflow.Document.Yaml
import Workflow.Program.Naming
import Workflow.Program.OfTree
import Workflow.Program.Rendering
import Workflow.Report

/-!
# Compilation

From source text to document: tokens, syntax tree, program, names, checks, document. Each source
text is compiled on its own.
-/

namespace Workflow

def tokenize (source : String) : Except Failure (List Token) :=
  (Token.ofSource source).mapError .scan

def parseTokens (tokens : List Token) : Except Failure Node :=
  (Node.ofTokens tokens).mapError .parse

def buildProgram (tree : Node) : Except Failure (Program Unit) :=
  (Program.ofTree tree).mapError .build

/-- Refuses a program that has issues. -/
def validate (disabled : List Check) (program : Program String) : Except Failure Unit :=
  match program.issues disabled with
  | [] => .ok ()
  | issues => .error (.invalid issues)

def parse (source : String) : Except Failure Node := do
  parseTokens (← tokenize source)

def build (source : String) : Except Failure (Program Unit) := do
  buildProgram (← parse source)

/-- The document of a source text. -/
def compile (disabled : List Check) (source : String) : Except Failure Document := do
  let program := (← build source).named
  validate disabled program
  return program.toDocument

def compileToYaml (disabled : List Check) (source : String) : Except Failure String := do
  return (← compile disabled source).toYaml

end Workflow
