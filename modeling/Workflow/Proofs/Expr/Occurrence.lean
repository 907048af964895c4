import Workflow.Program.Basic
import Workflow.Step.Walk

/-!
# The expressions of a program

All expressions that occur in a program: those that its steps hold, and those inside them. Merging
assignments keeps a property of the expressions that they hold.
-/

namespace Workflow

mutual

/-- An expression and the expressions inside it. -/
def Expr.parts : Expr → List Expr
  | .mk head tail => .mk head tail :: (head.parts ++ Expr.tailParts tail)

/-- The expressions inside a term. -/
def Term.parts : Term → List Expr
  | .mk _ operand => operand.parts

/-- The expressions inside an operand. -/
def Operand.parts : Operand → List Expr
  | .primitive _ => []
  | .list items => Expr.allParts items
  | .map entries => Expr.entryParts entries
  | .reference _ => []
  | .call _ args => Expr.allParts args
  | .paren inner => inner.parts

/-- The expressions inside terms behind operators. -/
def Expr.tailParts : List (BinaryOp × Term) → List Expr
  | [] => []
  | (_, term) :: rest => term.parts ++ Expr.tailParts rest

/-- Expressions and the expressions inside them. -/
def Expr.allParts : List Expr → List Expr
  | [] => []
  | e :: rest => e.parts ++ Expr.allParts rest

/-- The values of entries and the expressions inside them. -/
def Expr.entryParts : List (String × Expr) → List Expr
  | [] => []
  | (_, e) :: rest => e.parts ++ Expr.entryParts rest

end

variable {α : Type}

/-- The expression that a loop runs over. -/
def LoopHead.expressions (head : LoopHead) : List Expr :=
  match head.iterable with
  | .items e => [e]
  | .range _ _ => []

/-- The condition of a case. -/
def Case.condition : Case α → Expr
  | .mk condition _ _ => condition

/-- The expressions that an action holds itself, not in the steps inside it. -/
def Action.expressions : Action α → List Expr
  | .assign assignments => assignments.map Prod.snd
  | .call _ args _ => args.map Prod.snd
  | .loop head _ => head.expressions
  | .parallelLoop _ head _ => head.expressions
  | .raise value => [value]
  | .return value => value.toList
  | .switch cases _ => cases.map Case.condition
  | .next _ | .branches _ _ | .steps _ | .attempt _ _ _ _ => []

/-- All expressions that occur in steps. -/
def Step.expressions (steps : List (Step α)) : List Expr :=
  (Step.walkAll steps).flatMap fun step => step.action.expressions.flatMap Expr.parts

/-- All expressions that occur in a program. -/
def Program.expressions (program : Program α) : List Expr :=
  program.flatMap fun w => Step.expressions w.steps

/-! ## Properties of expressions -/

/-- Every expression that an action holds itself has a property. -/
abbrev Action.EachExpr (P : Expr → Prop) (action : Action α) : Prop :=
  ∀ e ∈ action.expressions, P e

/-- Assignments that are merged hold the expressions of both. -/
theorem Action.EachExpr.append {P : Expr → Prop} {xs ys : List (String × Expr)}
    (hx : (Action.assign xs : Action α).EachExpr P)
    (hy : (Action.assign ys : Action α).EachExpr P) :
    (Action.assign (xs ++ ys) : Action α).EachExpr P := by
  rw [Action.EachExpr, Action.expressions, List.map_append]
  exact List.forall_mem_append.mpr ⟨hx, hy⟩

end Workflow
