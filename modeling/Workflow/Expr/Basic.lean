import Workflow.Expr.Operator
import Workflow.Number.Basic
import Workflow.Text.Word

/-!
# Expressions

An expression is a flat row of terms with operators between them. Which operator binds closer is
not decided here: the text of an expression is handed on as it is.
-/

namespace Workflow

/-- A value without parts. -/
inductive Primitive where
  | null
  | bool (value : Bool)
  | number (value : Number)
  | string (value : String)
  deriving DecidableEq

mutual

/-- A term and further terms, each behind its operator. -/
inductive Expr where
  | mk (head : Term) (tail : List (BinaryOp × Term))

/-- An operand, perhaps behind an operator. -/
inductive Term where
  | mk (unary : Option UnaryOp) (operand : Operand)

inductive Operand where
  | primitive (value : Primitive)
  | list (items : List Expr)
  | map (entries : List (String × Expr))
  /-- A reference with all its subscripts, or the text of an expression literal. -/
  | reference (text : String)
  | call (name : String) (args : List Expr)
  | paren (inner : Expr)

end

namespace Expr

def head : Expr → Term
  | .mk head _ => head

def tail : Expr → List (BinaryOp × Term)
  | .mk _ tail => tail

def ofOperand (operand : Operand) : Expr := .mk (.mk none operand) []

def reference (text : String) : Expr := ofOperand (.reference text)

/-- The only term of an expression without operators between terms. -/
def single? : Expr → Option Term
  | .mk head [] => some head
  | _ => none

/-- The dotted name that an expression is, if it is nothing else. -/
def dottedName? (e : Expr) : Option String :=
  match e.single? with
  | some (.mk none (.reference text)) => if Text.isDottedName text then some text else none
  | _ => none

end Expr

end Workflow
