import Workflow.Compile

/-!
# Traces of compilations

What a compilation tells while it runs: an event at the end of each stage, and one for each step
that gets its name. A compilation that fails has told what came before its failure.
-/

namespace Workflow

inductive Level where
  | debug
  | trace
  deriving DecidableEq

def Level.name : Level → String
  | .debug => "DEBUG"
  | .trace => "TRACE"

inductive Event where
  | tokenized (tokens : Nat)
  | parsed (subworkflows : Nat)
  | built (subworkflows : Nat)
  | stepNamed (name : String)
  | stepsNamed (steps : Nat)
  | checkDisabled (check : Check)
  | checked (issues : Nat)
  | compiled (subworkflows : Nat)
  deriving DecidableEq

namespace Event

def level : Event → Level
  | .stepNamed _ => .trace
  | _ => .debug

def stage : Event → String
  | .tokenized _ => "lexer"
  | .parsed _ => "parser"
  | .built _ => "visitor"
  | .stepNamed _ => "namer"
  | .stepsNamed _ => "namer"
  | .checkDisabled _ => "validate"
  | .checked _ => "validate"
  | .compiled _ => "compile"

def target (e : Event) : String := "workflowscript_core::" ++ e.stage

def message : Event → String
  | .tokenized _ => "tokenized source"
  | .parsed _ => "parsed program"
  | .built _ => "built AST"
  | .stepNamed _ => "named step"
  | .stepsNamed _ => "named steps"
  | .checkDisabled _ => "validator disabled"
  | .checked _ => "validation finished"
  | .compiled _ => "compiled program"

/-- The name and the text of what an event carries. -/
def detail : Event → String × String
  | .tokenized n => ("tokens", Decimal.natText n)
  | .parsed n => ("subworkflows", Decimal.natText n)
  | .built n => ("subworkflows", Decimal.natText n)
  | .stepNamed name => ("name", name)
  | .stepsNamed n => ("steps", Decimal.natText n)
  | .checkDisabled check => ("validator", check.name)
  | .checked n => ("issues", Decimal.natText n)
  | .compiled n => ("subworkflows", Decimal.natText n)

def fields (e : Event) : Fields String := [("message", e.message), e.detail]

end Event

def namingEvents (program : Program String) : List Event :=
  let names := program.flatMap Subworkflow.stepNames
  names.map .stepNamed ++ [.stepsNamed names.length]

def checkEvents (disabled : List Check) (program : Program String) : List Event :=
  (Check.all.filter fun check => disabled.contains check).map .checkDisabled ++
    [.checked (program.issues disabled).length]

/-- The events of a program from the moment it is built, up to its document. -/
def programEvents (disabled : List Check) (raw : Program Unit) : List Event :=
  let program := raw.named
  namingEvents program ++ checkEvents disabled program ++
    if (program.issues disabled).isEmpty then [.compiled program.length] else []

def compileEvents (disabled : List Check) (source : String) : List Event :=
  match tokenize source with
  | .error _ => []
  | .ok tokens =>
    .tokenized tokens.length ::
      match parseTokens tokens with
      | .error _ => []
      | .ok tree =>
        .parsed (tree.nodes .subworkflowDefinition).length ::
          match buildProgram tree with
          | .error _ => []
          | .ok raw => .built raw.length :: programEvents disabled raw

end Workflow
