import Workflow.Document.Fields
import Workflow.Program.Basic

/-!
# Names of steps

A step is named after its kind and a number. The numbers of a kind count from one through the
whole program, and a step has its name before the steps inside it.
-/

namespace Workflow

/-- The word in front of the number of a step. -/
def Action.kind {α : Type} : Action α → String
  | .assign _ => "assign"
  | .call _ _ _ => "call"
  | .loop _ _ => "for"
  | .next _ => "next"
  | .branches _ _ => "parallel"
  | .parallelLoop _ _ _ => "parallel"
  | .raise _ => "raise"
  | .return _ => "return"
  | .steps _ => "steps"
  | .switch _ _ => "switch"
  | .attempt _ _ _ _ => "try"

/-- How many names of each kind were given; a kind that is not listed had none. -/
abbrev Counters := Fields Nat

namespace Counters

def zero : Counters := []

def get (counters : Counters) (kind : String) : Nat := (counters.lookup kind).getD 0

def bump (kind : String) (counters : Counters) : Counters :=
  Fields.insert kind (counters.get kind + 1) counters

@[simp] theorem get_zero (kind : String) : zero.get kind = 0 := rfl

theorem get_bump (kind : String) (counters : Counters) (k : String) :
    (counters.bump kind).get k = if k = kind then counters.get kind + 1 else counters.get k := by
  by_cases h : k = kind <;> simp [get, bump, Fields.lookup_insert, h]

end Counters

def freshName (kind : String) : StateM Counters String := do
  modify (Counters.bump kind)
  return kind ++ Decimal.natText ((← get).get kind)

mutual

def Step.named : RawStep → StateM Counters NamedStep
  | .mk _ action => do
    let name ← freshName action.kind
    return .mk name (← action.named)

def Action.named : Action Unit → StateM Counters (Action String)
  | .assign assignments => return .assign assignments
  | .call target args result => return .call target args result
  | .loop head body => return .loop head (← Step.namedAll body)
  | .next target => return .next target
  | .branches options branches => return .branches options (← Step.namedAll branches)
  | .parallelLoop options head body => return .parallelLoop options head (← Step.namedAll body)
  | .raise value => return .raise value
  | .return value => return .return value
  | .steps body => return .steps (← Step.namedAll body)
  | .switch cases next => return .switch (← Case.namedAll cases) next
  | .attempt body retry errorName handler => do
    let body ← Step.namedAll body
    let handler ← Step.namedAll handler
    return .attempt body retry errorName handler

def Step.namedAll : List RawStep → StateM Counters (List NamedStep)
  | [] => return []
  | step :: rest => do
    let step ← step.named
    let rest ← Step.namedAll rest
    return step :: rest

def Case.namedAll : List (Case Unit) → StateM Counters (List (Case String))
  | [] => return []
  | .mk condition body next :: rest => do
    let body ← Step.namedAll body
    let rest ← Case.namedAll rest
    return .mk condition body next :: rest

end

def Subworkflow.namedAll : Program Unit → StateM Counters (Program String)
  | [] => return []
  | w :: rest => do
    let steps ← Step.namedAll w.steps
    let rest ← Subworkflow.namedAll rest
    return ⟨w.name, w.params, steps⟩ :: rest

def Program.named (program : Program Unit) : Program String :=
  ((Subworkflow.namedAll program).run .zero).1

end Workflow
