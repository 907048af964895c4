import Workflow.Program.Basic
import Workflow.Proofs.Step.Merging

/-!
# What steps bind

A step binds the result of its call, the places of its assignments, or the names that a loop or a
handler brings. They are listed in the order of a walk. Of a call it is also noted what the step
right behind it, in the same list of steps, assigns first. Merging changes none of this where every
assignment assigns something.
-/

namespace Workflow

/-- A call with a place for its result. -/
structure PlacedCall where
  target : String
  args : List (String × Expr)
  result : String
  /-- What the step right behind the call assigns first, if it makes assignments. -/
  copy : Option (String × Expr)

/-- Something that a step binds: the result of a call, or any other name. -/
abbrev Binding := PlacedCall ⊕ String

/-- The names that a loop binds. -/
def LoopHead.bindings (head : LoopHead) : List Binding :=
  .inr head.value :: head.index.toList.map .inr

variable {α : Type}

/-- What the first of some steps assigns first, if it makes assignments. Where there is no step,
what follows them counts. -/
def Step.firstAssignment? (after : Option (String × Expr)) :
    List (Step α) → Option (String × Expr)
  | [] => after
  | .mk _ (.assign assignments) :: _ => assignments.head?
  | _ :: _ => none

mutual

/-- What a step and the steps inside it bind, for what is assigned right behind it. -/
def Step.bindings (after : Option (String × Expr)) : Step α → List Binding
  | .mk _ action => action.bindings after

/-- What an action binds. Nothing outside a body is right behind a step in it. -/
def Action.bindings (after : Option (String × Expr)) : Action α → List Binding
  | .assign assignments => assignments.map fun assignment => .inr assignment.1
  | .call target args (some result) => [.inl ⟨target, args, result, after⟩]
  | .loop head body => head.bindings ++ Step.bindingsAll none body
  | .branches _ rows => Step.bindingsAll none rows
  | .parallelLoop _ head body => head.bindings ++ Step.bindingsAll none body
  | .steps body => Step.bindingsAll none body
  | .switch cases _ => Case.bindingsAll cases
  | .attempt body _ errorName handler =>
    errorName.toList.map .inr ++ (Step.bindingsAll none body ++ Step.bindingsAll none handler)
  | _ => []

/-- What steps bind, for what is assigned right behind them. -/
def Step.bindingsAll (after : Option (String × Expr)) : List (Step α) → List Binding
  | [] => []
  | step :: rest =>
    step.bindings (Step.firstAssignment? after rest) ++ Step.bindingsAll after rest

/-- What the steps of cases bind. -/
def Case.bindingsAll : List (Case α) → List Binding
  | [] => []
  | .mk _ body _ :: rest => Step.bindingsAll none body ++ Case.bindingsAll rest

end

/-- What the steps of a program bind. -/
def Program.bindings (program : Program α) : List Binding :=
  program.flatMap fun w => Step.bindingsAll none w.steps

/-- No step makes assignments without any. -/
def Step.Filled (steps : List (Step α)) : Prop :=
  ∀ step ∈ steps, step.action ≠ .assign []

section

variable {after : Option (String × Expr)} {step : Step α} {steps rest : List (Step α)}

theorem Step.firstAssignment?_append :
    Step.firstAssignment? after (steps ++ rest) =
      Step.firstAssignment? (Step.firstAssignment? after rest) steps := by
  cases steps with
  | nil => rfl
  | cons step others =>
    obtain ⟨label, action⟩ := step
    cases action with
    | _ => rfl

theorem Step.bindingsAll_append :
    Step.bindingsAll after (steps ++ rest) =
      Step.bindingsAll (Step.firstAssignment? after rest) steps ++ Step.bindingsAll after rest := by
  induction steps with
  | nil => rw [List.nil_append, Step.bindingsAll, List.nil_append]
  | cons step others ih =>
    rw [List.cons_append, Step.bindingsAll, Step.bindingsAll, ih, Step.firstAssignment?_append,
      List.append_assoc]

theorem Case.bindingsAll_append {cases others : List (Case α)} :
    Case.bindingsAll (cases ++ others) = Case.bindingsAll cases ++ Case.bindingsAll others := by
  induction cases with
  | nil => rw [List.nil_append, Case.bindingsAll, List.nil_append]
  | cons case rest ih =>
    obtain ⟨condition, body, next⟩ := case
    rw [List.cons_append, Case.bindingsAll, Case.bindingsAll, ih, List.append_assoc]

/-! ## Merging -/

/-- Two assignments that become one bind the same, and what they assign first is the same. -/
theorem Step.bindingsAll_mergeOnto :
    Step.bindingsAll after (step.mergeOnto rest) = Step.bindingsAll after (step :: rest) := by
  rcases Step.mergeOnto_cases step rest with ⟨heq, _⟩ | ⟨label, l, xs, ys, others, rfl, rfl, heq⟩
  · rw [heq]
  · rw [heq]
    simp only [Step.bindingsAll, Step.bindings, Action.bindings, List.map_append, List.append_assoc]

theorem Step.firstAssignment?_mergeOnto (h : step.action ≠ .assign []) :
    Step.firstAssignment? after (step.mergeOnto rest) =
      Step.firstAssignment? after (step :: rest) := by
  rcases Step.mergeOnto_cases step rest with ⟨heq, _⟩ | ⟨label, l, xs, ys, others, rfl, rfl, heq⟩
  · rw [heq]
  · rw [heq]
    cases xs with
    | nil => exact absurd rfl h
    | cons x xs => rfl

theorem Step.bindingsAll_merge (h : Step.Filled steps) :
    Step.firstAssignment? after (Step.merge steps) = Step.firstAssignment? after steps ∧
      Step.bindingsAll after (Step.merge steps) = Step.bindingsAll after steps := by
  induction steps with
  | nil => exact ⟨rfl, rfl⟩
  | cons step others ih =>
    obtain ⟨hstep, hothers⟩ := List.forall_mem_cons.mp h
    obtain ⟨hfirst, hall⟩ := ih hothers
    rw [Step.merge_cons, Step.firstAssignment?_mergeOnto hstep, Step.bindingsAll_mergeOnto,
      Step.bindingsAll, Step.bindingsAll, hfirst, hall]
    refine ⟨?_, rfl⟩
    obtain ⟨label, action⟩ := step
    cases action with
    | _ => rfl

end

theorem Step.bindingsAll_raw {action : Action Unit} {after : Option (String × Expr)} :
    Step.bindingsAll after [action.raw] = action.bindings after := by
  rw [Step.bindingsAll, Step.bindingsAll, List.append_nil, Action.raw, Step.bindings,
    Step.firstAssignment?]

end Workflow
