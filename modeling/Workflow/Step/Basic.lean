import Workflow.Expr.Basic

/-!
# Steps

A workflow is a list of steps, and a step may hold further steps. Steps carry labels: none while a
program is built, and names once they are numbered.
-/

namespace Workflow

inductive Iterable where
  | items (e : Expr)
  /-- A range of numbers, both ends included. -/
  | range (first last : Number)

structure LoopHead where
  value : String
  index : Option String
  iterable : Iterable

structure ParallelOptions where
  shared : Option (List String)
  concurrencyLimit : Option Int64
  exceptionPolicy : Option String
  deriving DecidableEq

def ParallelOptions.empty : ParallelOptions := ⟨none, none, none⟩

inductive RetryPolicy where
  /-- A policy that is known by name. -/
  | named (name : String)
  | custom (predicate : String) (maxRetries initialDelay maxDelay multiplier : Number)
  deriving DecidableEq

mutual

inductive Step (α : Type) where
  | mk (label : α) (action : Action α)

inductive Action (α : Type) where
  | assign (assignments : List (String × Expr))
  | call (target : String) (args : List (String × Expr)) (result : Option String)
  | loop (head : LoopHead) (body : List (Step α))
  | next (target : String)
  | branches (options : ParallelOptions) (branches : List (Step α))
  /-- A loop whose rounds run in parallel. The loop itself is no step. -/
  | parallelLoop (options : ParallelOptions) (head : LoopHead) (body : List (Step α))
  | raise (value : Expr)
  | return (value : Option Expr)
  | steps (body : List (Step α))
  | switch (cases : List (Case α)) (next : Option String)
  | attempt (body : List (Step α)) (retry : Option RetryPolicy) (errorName : Option String)
      (handler : List (Step α))

inductive Case (α : Type) where
  | mk (condition : Expr) (body : List (Step α)) (next : Option String)

end

/-- A step before it has a name. -/
abbrev RawStep := Step Unit

/-- A step with its name. -/
abbrev NamedStep := Step String

variable {α : Type}

def Step.label : Step α → α
  | .mk label _ => label

def Step.action : Step α → Action α
  | .mk _ action => action

def Action.raw (action : Action Unit) : RawStep := .mk () action

def Case.body : Case α → List (Step α)
  | .mk _ body _ => body

/-- The steps directly inside a step, in order. -/
def Step.children : Step α → List (Step α)
  | .mk _ action =>
    match action with
    | .loop _ body => body
    | .branches _ branches => branches
    | .parallelLoop _ _ body => body
    | .steps body => body
    | .switch cases _ => cases.flatMap Case.body
    | .attempt body _ _ handler => body ++ handler
    | _ => []

end Workflow
