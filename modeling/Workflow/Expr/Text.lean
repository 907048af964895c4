import Workflow.Expr.Basic
import Workflow.Number.Layout
import Workflow.Text.Quoted

/-!
# The text of expressions

The text of an expression is what is evaluated later, so that it is written in the notation of
expressions: terms and operators with single spaces between them.
-/

namespace Workflow

/-- Floating-point numbers in expressions: never an exponent, and whole numbers have no point. Of
two equally near decimals the larger is taken. -/
def exprFloat : FloatLayout := ⟨.up, fun _ => true, false, false⟩

def Number.text : Number → String
  | .int n => Decimal.intText n.toInt
  | .float x =>
    if x.isFinite then String.ofList (exprFloat.chars x)
    else if x.isUndefined then "NaN"
    else if x.isNegative then "-inf"
    else "inf"

def Primitive.text : Primitive → String
  | .null => "null"
  | .bool b => if b then "true" else "false"
  | .number n => n.text
  | .string s => Text.quote s

def UnaryOp.leading : UnaryOp → String
  | .not => "not "
  | op => op.text

mutual

def Expr.text : Expr → String
  | .mk head tail => head.text ++ Expr.tailText tail

def Term.text : Term → String
  | .mk unary operand => (unary.map UnaryOp.leading).getD "" ++ operand.text

def Operand.text : Operand → String
  | .primitive p => p.text
  | .list items => "[" ++ ", ".intercalate (Expr.texts items) ++ "]"
  | .map entries => "\x7b" ++ ", ".intercalate (Expr.entryTexts entries) ++ "\x7d"
  | .reference text => text
  | .call name args => name ++ "(" ++ ", ".intercalate (Expr.texts args) ++ ")"
  | .paren inner => "(" ++ inner.text ++ ")"

def Expr.tailText : List (BinaryOp × Term) → String
  | [] => ""
  | (op, term) :: rest => " " ++ op.text ++ " " ++ term.text ++ Expr.tailText rest

def Expr.texts : List Expr → List String
  | [] => []
  | e :: rest => e.text :: Expr.texts rest

def Expr.entryTexts : List (String × Expr) → List String
  | [] => []
  | (key, value) :: rest => (Text.quote key ++ ": " ++ value.text) :: Expr.entryTexts rest

end

/-- The text that marks an expression for later evaluation. -/
def evaluated (text : String) : String := "$\x7b" ++ text ++ "\x7d"

end Workflow
