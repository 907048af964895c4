import Workflow.Document.Basic
import Workflow.Expr.Text

/-!
# Expressions in documents

A literal expression goes into a document as its value, and any other as the text that is evaluated
later. Lists and maps are lowered item by item, so that both kinds may stand side by side.
-/

namespace Workflow

def Primitive.toDocument : Primitive → Document
  | .null => .null
  | .bool b => .bool b
  | .number n => n.toDocument
  | .string s => .string s

/-- The number that an operand is behind a sign. -/
def Operand.signed? (op : UnaryOp) : Operand → Option Number
  | .primitive (.number n) =>
    match op with
    | .plus => some n
    | .minus => some n.neg
    | .not => none
  | _ => none

mutual

/-- Whether the value of an expression is known: it has no operators but the sign of a number, no
names and no parentheses. -/
def Expr.isLiteral : Expr → Bool
  | .mk head tail => tail.isEmpty && head.isLiteral

def Term.isLiteral : Term → Bool
  | .mk none operand => operand.isLiteral
  | .mk (some op) operand => (operand.signed? op).isSome

def Operand.isLiteral : Operand → Bool
  | .primitive _ => true
  | .list items => Expr.areLiteral items
  | .map entries => Expr.areLiteralEntries entries
  | .reference _ => false
  | .call _ _ => false
  | .paren _ => false

def Expr.areLiteral : List Expr → Bool
  | [] => true
  | e :: rest => e.isLiteral && Expr.areLiteral rest

def Expr.areLiteralEntries : List (String × Expr) → Bool
  | [] => true
  | (_, e) :: rest => e.isLiteral && Expr.areLiteralEntries rest

end

mutual

def Expr.toDocument : Expr → Document
  | .mk head [] => head.toDocument
  | e@(.mk _ (_ :: _)) => .string (evaluated e.text)

def Term.toDocument : Term → Document
  | .mk none operand => operand.toDocument
  | t@(.mk (some op) operand) =>
    match operand.signed? op with
    | some n => n.toDocument
    | none => .string (evaluated t.text)

def Operand.toDocument : Operand → Document
  | .primitive p => p.toDocument
  | .list items => .array (Expr.toDocuments items)
  | .map entries => .object (Fields.ofPairs (Expr.toFields entries))
  | .reference text => .string (evaluated text)
  | .call name args => .string (evaluated (Operand.call name args).text)
  | .paren inner => .string (evaluated (Operand.paren inner).text)

def Expr.toDocuments : List Expr → List Document
  | [] => []
  | e :: rest => e.toDocument :: Expr.toDocuments rest

def Expr.toFields : List (String × Expr) → List (String × Document)
  | [] => []
  | (key, e) :: rest => (key, e.toDocument) :: Expr.toFields rest

end

def Expr.literal? (e : Expr) : Option Document :=
  if e.isLiteral then some e.toDocument else none

end Workflow
