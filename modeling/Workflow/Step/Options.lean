import Workflow.Expr.OfTree
import Workflow.Step.Basic

/-!
# Options of parallel steps and retries

Options are written as named arguments. Their order does not matter, each may be given once, and
their values have to be known: names or literals.
-/

namespace Workflow

/-- Refuses options that are given more than once. -/
def NamedArgument.distinct (owner : OptionOwner) (args : List NamedArgument) :
    Except BuildError Unit :=
  match NamedArgument.repeated? [] args with
  | some arg => .error (.defect (.repeatedOption owner arg.name) arg.position)
  | none => .ok ()

def Document.strings? : List Document → Option (List String)
  | [] => some []
  | .string s :: rest => (strings? rest).map (s :: ·)
  | _ :: _ => none

def Document.number? : Document → Option Number
  | .int n => Number.ofInt? n
  | .float x => some (.float x)
  | _ => none

namespace ParallelOptions

def sharedNames? (e : Expr) : Option (List String) :=
  match e.literal? with
  | some (.array items) => Document.strings? items
  | _ => none

def limit? (e : Expr) : Option Int64 :=
  match e.literal?.bind Document.number? with
  | some (.int n) => some n
  | _ => none

/-- The only policy there is, if it is given as a literal string. -/
def policy? (e : Expr) : Option String :=
  match e.literal? with
  | some (.string s) => if s = "continueAll" then some s else none
  | _ => none

def set (options : ParallelOptions) (arg : NamedArgument) :
    Except BuildError ParallelOptions :=
  if arg.name = "shared" then
    match sharedNames? arg.value with
    | some names => .ok ⟨some names, options.concurrencyLimit, options.exceptionPolicy⟩
    | none => .error (.defect .sharedNotNames arg.position)
  else if arg.name = "concurrency_limit" then
    match limit? arg.value with
    | some limit => .ok ⟨options.shared, some limit, options.exceptionPolicy⟩
    | none => .error (.defect .limitNotInteger arg.position)
  else if arg.name = "exception_policy" then
    match policy? arg.value with
    | some policy => .ok ⟨options.shared, options.concurrencyLimit, some policy⟩
    | none => .error (.defect .unknownExceptionPolicy arg.position)
  else .error (.defect (.unknownOption arg.name) arg.position)

def ofArguments (args : List NamedArgument) : Except BuildError ParallelOptions := do
  NamedArgument.distinct .parallel args
  args.foldlM set .empty

end ParallelOptions

namespace RetryPolicy

/-- The options of a policy that is not known by name. -/
def customNames : List String :=
  ["predicate", "max_retries", "initial_delay", "max_delay", "multiplier"]

def find? (args : List NamedArgument) (name : String) : Option NamedArgument :=
  List.find? (·.name == name) args

def nameOption (arg : NamedArgument) (otherwise : Defect) : Except BuildError String :=
  match arg.value.dottedName? with
  | some name => .ok name
  | none => .error (.defect otherwise arg.position)

def numberOption (arg : NamedArgument) : Except BuildError Number :=
  match arg.value.literal?.bind Document.number? with
  | some n => .ok n
  | none => .error (.defect (.retryNotNumber arg.name) arg.position)

/-- The policy that named arguments give: `policy` alone, or all options of a custom policy. Other
choices of options are refused at the position of the retry. -/
def ofArguments (args : List NamedArgument) (position : Position) :
    Except BuildError RetryPolicy := do
  NamedArgument.distinct .retry args
  match args with
  | [arg] =>
    if arg.name = "policy" then return .named (← nameOption arg .policyNotName)
    throw (.defect .retryShape position)
  | _ =>
    -- names are distinct, so that with this many none is unknown if none is missing
    if args.length ≠ customNames.length then throw (.defect .retryShape position)
    match find? args "predicate", find? args "max_retries", find? args "initial_delay",
      find? args "max_delay", find? args "multiplier" with
    | some predicate, some maxRetries, some initialDelay, some maxDelay, some multiplier =>
      let predicate ← nameOption predicate .predicateNotName
      let maxRetries ← numberOption maxRetries
      let initialDelay ← numberOption initialDelay
      let maxDelay ← numberOption maxDelay
      let multiplier ← numberOption multiplier
      return .custom predicate maxRetries initialDelay maxDelay multiplier
    | _, _, _, _, _ => throw (.defect .retryShape position)

end RetryPolicy

end Workflow
