import Workflow.Check.Issue

/-!
# Arguments of the command line

Arguments are read from the left. The first one that asks for help or the version ends the
reading, and so does the first one that is wrong.
-/

namespace Workflow.CommandLine

inductive OutputFormat where
  | yaml
  | json
  deriving DecidableEq

inductive ErrorFormat where
  | text
  | json
  deriving DecidableEq

structure Options where
  file : Option String
  disabled : List Check
  output : Option OutputFormat
  errors : Option ErrorFormat
  verbose : Bool
  deriving DecidableEq

def Options.start : Options := ⟨none, [], none, none, false⟩

inductive Request where
  | run (options : Options)
  | help
  | version
  /-- The arguments are wrong. -/
  | misuse
  deriving DecidableEq

inductive ValueOption where
  | disable
  | output
  | errorFormat
  deriving DecidableEq

def ValueOption.ofName? (name : String) : Option ValueOption :=
  if name = "disable" then some .disable
  else if name = "output" then some .output
  else if name = "error-format" then some .errorFormat
  else none

def splitAt (separator : Char) : List Char → List (List Char)
  | [] => [[]]
  | c :: rest =>
    if c = separator then [] :: splitAt separator rest
    else match splitAt separator rest with
      | part :: parts => (c :: part) :: parts
      | [] => [[c]]

/-- The checks that a list of names with commas gives, if all are names of checks. -/
def checks? (value : String) : Option (List Check) :=
  (splitAt ',' value.toList).mapM fun name => Check.ofName? (String.ofList name)

/-- Options with a value given for one of them. Only `disable` may be given again. -/
def Options.set? (options : Options) (option : ValueOption) (value : String) : Option Options :=
  match option with
  | .disable => (checks? value).map fun checks =>
    ⟨options.file, options.disabled ++ checks, options.output, options.errors, options.verbose⟩
  | .output =>
    if options.output.isSome then none
    else if value = "yaml" then
      some ⟨options.file, options.disabled, some .yaml, options.errors, options.verbose⟩
    else if value = "json" then
      some ⟨options.file, options.disabled, some .json, options.errors, options.verbose⟩
    else none
  | .errorFormat =>
    if options.errors.isSome then none
    else if value = "text" then
      some ⟨options.file, options.disabled, options.output, some .text, options.verbose⟩
    else if value = "json" then
      some ⟨options.file, options.disabled, options.output, some .json, options.verbose⟩
    else none

/-- Options with a file given. There is one at most, and its name is not empty. -/
def Options.setFile? (options : Options) (file : String) : Option Options :=
  if options.file.isSome || file.isEmpty then none
  else some ⟨some file, options.disabled, options.output, options.errors, options.verbose⟩

def Options.setVerbose? (options : Options) : Option Options :=
  if options.verbose then none
  else some ⟨options.file, options.disabled, options.output, options.errors, true⟩

/-- Reads arguments that are files all of them. -/
def readFiles (options : Options) : List String → Request
  | [] => .run options
  | file :: rest =>
    match options.setFile? file with
    | some options => readFiles options rest
    | none => .misuse

/-- The name and the value of a long option that is written with `=`. -/
def nameAndValue (body : List Char) : List Char × Option (List Char) :=
  let name := body.takeWhile (· ≠ '=')
  (name, if name.length < body.length then some (body.drop (name.length + 1)) else none)

/-- What a row of short options asks for: its first letter says it. -/
def shortRequest : List Char → Request
  | 'h' :: _ => .help
  | 'V' :: _ => .version
  | _ => .misuse

/-- Whether an argument can be the value of the option in front of it. -/
def isValue (arg : String) : Bool :=
  match arg.toList with
  | '-' :: _ :: _ => false
  | _ => true

def read (options : Options) : List String → Request
  | [] => .run options
  | arg :: rest =>
    match arg.toList with
    | ['-', '-'] => readFiles options rest
    | '-' :: '-' :: body =>
      match nameAndValue body with
      | (name, some value) =>
        match (ValueOption.ofName? (String.ofList name)).bind
            fun option => options.set? option (String.ofList value) with
        | some options => read options rest
        | none => .misuse
      | (name, none) =>
        if String.ofList name = "help" then .help
        else if String.ofList name = "version" then .version
        else if String.ofList name = "verbose" then
          match options.setVerbose? with
          | some options => read options rest
          | none => .misuse
        else
          match ValueOption.ofName? (String.ofList name), rest with
          | some option, value :: rest =>
            if isValue value then
              match options.set? option value with
              | some options => read options rest
              | none => .misuse
            else .misuse
          | _, _ => .misuse
    | '-' :: c :: cs => shortRequest (c :: cs)
    | _ =>
      match options.setFile? arg with
      | some options => read options rest
      | none => .misuse

end Workflow.CommandLine
