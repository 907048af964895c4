import Workflow.Tree.Basic

/-!
# Defects of programs

What can be wrong with a program whose syntax is right, as far as a single place of it shows.
-/

namespace Workflow

inductive OptionOwner where
  | parallel
  | retry
  deriving DecidableEq

def OptionOwner.describe : OptionOwner → String
  | .parallel => "parallel"
  | .retry => "retry"

inductive Defect where
  | floatSubscript
  | subscriptKind
  | notIterable
  | repeatedArgument (name : String)
  | repeatedOption (owner : OptionOwner) (name : String)
  | unknownOption (name : String)
  | sharedNotNames
  | limitNotInteger
  | unknownExceptionPolicy
  | policyNotName
  | predicateNotName
  | retryNotNumber (name : String)
  | retryShape
  deriving DecidableEq

def Defect.message : Defect → String
  | .floatSubscript => "Subscript can't be a float"
  | .subscriptKind => "Subscript must be an integer or a string"
  | .notIterable => "Value in a for loop is not iterable"
  | .repeatedArgument name => "Duplicate argument '" ++ name ++ "'"
  | .repeatedOption owner name =>
    "Duplicate " ++ owner.describe ++ " parameter '" ++ name ++ "'"
  | .unknownOption name =>
    "Unknown parallel parameter '" ++ name ++
      "' (expected shared, concurrency_limit or exception_policy)"
  | .sharedNotNames => "Parallel parameter 'shared' must be an array of variable name strings"
  | .limitNotInteger => "Parallel parameter 'concurrency_limit' must be an integer"
  | .unknownExceptionPolicy => "Parallel parameter 'exception_policy' must be \"continueAll\""
  | .policyNotName => "Retry parameter 'policy' must be a fully qualified name"
  | .predicateNotName => "Retry parameter 'predicate' must be a fully qualified name"
  | .retryNotNumber name => "Retry parameter '" ++ name ++ "' must be a number"
  | .retryShape =>
    "Retry parameters must be either \x7bpolicy\x7d or " ++
      "\x7bpredicate, max_retries, initial_delay, max_delay, multiplier\x7d"

/-- Why a syntax tree makes no program. -/
inductive BuildError where
  | defect (defect : Defect) (position : Position)
  | malformed (malformation : Malformation)
  deriving DecidableEq

instance : MonadLift (Except Malformation) (Except BuildError) where
  monadLift
    | .ok a => .ok a
    | .error m => .error (.malformed m)

end Workflow
