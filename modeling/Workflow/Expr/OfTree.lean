import Workflow.Expr.Lowering
import Workflow.Program.Defect

/-!
# Expressions of syntax trees

The trees may be malformed: every node is checked for its rule and every slot for its children,
and the first fault in reading order is the answer.
-/

namespace Workflow

def Primitive.ofNode (n : Node) : Except BuildError Primitive := do
  n.expectRule .literal
  let token ← n.requireToken .value
  match token.lexeme with
  | .string s => return .string s
  | .number x => return .number x
  | .keyword .true => return .bool true
  | .keyword .false => return .bool false
  | .keyword .null => return .null
  | other => throw (.malformed (.notLiteral other))

def BinaryOp.ofToken (t : Token) : Except BuildError BinaryOp :=
  match t.lexeme.binaryOp? with
  | some op => .ok op
  | none => .error (.malformed (.notBinaryOperator t.lexeme))

def UnaryOp.ofToken (t : Token) : Except BuildError UnaryOp :=
  match t.lexeme.unaryOp? with
  | some op => .ok op
  | none => .error (.malformed (.notUnaryOperator t.lexeme))

def UnaryOp.ofTerm (n : Node) : Except BuildError (Option UnaryOp) :=
  match n.token? .unaryOperator with
  | none => .ok none
  | some t => (UnaryOp.ofToken t).map some

def objectKey (t : Token) : String :=
  match t.lexeme with
  | .string s => s
  | _ => t.image

def dottedName (n : Node) : Except BuildError String := do
  n.expectRule .qualifiedName
  let names := (n.tokens .identifier).map (·.image)
  if names.isEmpty then throw (.malformed .emptyName)
  return ".".intercalate names

/-- The text of a subscript: an integer as it is, a string with its quotes, and anything that is
not literal as its expression. -/
def subscriptText (e : Expr) (position : Position) : Except BuildError String :=
  match e.literal? with
  | none => .ok e.text
  | some (.int n) => .ok (Decimal.intText n)
  | some (.float _) => .error (.defect .floatSubscript position)
  | some (.string s) => .ok (Text.quote s)
  | some _ => .error (.defect .subscriptKind position)

def expressionLiteral (t : Token) : Except BuildError String :=
  match t.lexeme with
  | .expression text => .ok text
  | other => .error (.malformed (.notExpressionLiteral other))

mutual

def Expr.ofNode (n : Node) : Except BuildError Expr := do
  n.expectRule .expression
  match h : n.nodes .term with
  | [] => throw (.malformed .noTerms)
  | first :: others =>
    have : sizeOf (first :: others) < sizeOf n := h ▸ n.sizeOf_nodes_lt .term
    let head ← Term.ofNode first
    let operators := n.tokens .binaryOperator
    if operators.length ≠ others.length then
      throw (.malformed (.operatorCount operators.length others.length))
    let tail ← Expr.tailOfNodes operators others
    return .mk head tail
termination_by 2 * sizeOf n
decreasing_by all_goals
  simp only [List.cons.sizeOf_spec] at this
  omega

def Expr.tailOfNodes : List Token → List Node → Except BuildError (List (BinaryOp × Term))
  | operator :: operators, n :: rest => do
    let op ← BinaryOp.ofToken operator
    let term ← Term.ofNode n
    let others ← Expr.tailOfNodes operators rest
    return (op, term) :: others
  | _, _ => return []
termination_by _ ns => 2 * sizeOf ns

def Term.ofNode (n : Node) : Except BuildError Term := do
  n.expectRule .term
  let unary ← UnaryOp.ofTerm n
  let operand ← Operand.ofNode n
  return .mk unary operand
termination_by 2 * sizeOf n + 1

/-- The operand of the node of a term. Of several children the first kind in this order counts. -/
def Operand.ofNode (n : Node) : Except BuildError Operand :=
  match n.node? .literal with
  | some literal => return .primitive (← Primitive.ofNode literal)
  | none =>
  match n.node? .array with
  | some ⟨array, _⟩ => do
    array.expectRule .array
    have := array.sizeOf_nodes_lt .expression
    return .list (← Expr.ofNodes (array.nodes .expression))
  | none =>
  match n.node? .object with
  | some ⟨object, _⟩ => do
    object.expectRule .object
    let keys := object.tokens .key
    have := object.sizeOf_nodes_lt .expression
    if keys.length ≠ (object.nodes .expression).length then throw (.malformed .objectCount)
    let pairs ← Expr.entriesOfNodes keys (object.nodes .expression)
    return .map (Fields.ofPairs pairs)
  | none =>
  if n.has .lparen then do
    let ⟨inner, _⟩ ← n.requireNode .expression
    return .paren (← Expr.ofNode inner)
  else
  match n.token? .expressionLiteral with
  | some token => return .reference (← expressionLiteral token)
  | none =>
  match n.node? .callExpression with
  | some ⟨call, _⟩ => do
    call.expectRule .callExpression
    let name ← dottedName (← call.requireNode .qualifiedName)
    match call.node? .actualParameterList with
    | none => return .call name []
    | some ⟨list, _⟩ =>
      list.expectRule .actualParameterList
      have := list.sizeOf_nodes_lt .expression
      return .call name (← Expr.ofNodes (list.nodes .expression))
  | none =>
  match n.node? .variableReference with
  | some ⟨reference, _⟩ => return .reference (← referenceText reference)
  | none => throw (.malformed .noValue)
termination_by 2 * sizeOf n

def Expr.ofNodes : List Node → Except BuildError (List Expr)
  | [] => return []
  | n :: rest => do
    let e ← Expr.ofNode n
    let others ← Expr.ofNodes rest
    return e :: others
termination_by ns => 2 * sizeOf ns

/-- The entries of an object, with the keys as often as they are written. -/
def Expr.entriesOfNodes : List Token → List Node → Except BuildError (List (String × Expr))
  | key :: keys, n :: rest => do
    let e ← Expr.ofNode n
    let others ← Expr.entriesOfNodes keys rest
    return (objectKey key, e) :: others
  | _, _ => return []
termination_by _ ns => 2 * sizeOf ns

def referenceText (n : Node) : Except BuildError String := do
  n.expectRule .variableReference
  have := n.sizeOf_nodes_lt .subscriptReference
  let parts ← referencePartTexts (n.nodes .subscriptReference)
  if parts.isEmpty then throw (.malformed .emptyReference)
  return ".".intercalate parts
termination_by 2 * sizeOf n

/-- The texts of the parts of a reference: each a name and its subscripts. -/
def referencePartTexts : List Node → Except BuildError (List String)
  | [] => return []
  | n :: rest => do
    n.expectRule .subscriptReference
    let name ← n.requireToken .identifier
    have := n.sizeOf_nodes_lt .subscript
    let subscripts ← subscriptTexts (n.nodes .subscript)
    let others ← referencePartTexts rest
    return (name.image ++ subscripts) :: others
termination_by ns => 2 * sizeOf ns

/-- The texts of subscripts between their brackets, joined. -/
def subscriptTexts : List Node → Except BuildError String
  | [] => return ""
  | n :: rest => do
    let e ← Expr.ofNode n
    let text ← subscriptText e n.position
    let others ← subscriptTexts rest
    return "[" ++ text ++ "]" ++ others
termination_by ns => 2 * sizeOf ns

end

def Expr.listOfNode (n : Node) : Except BuildError (List Expr) := do
  n.expectRule .actualParameterList
  Expr.ofNodes (n.nodes .expression)

structure NamedArgument where
  name : String
  value : Expr
  position : Position

namespace NamedArgument

def ofPairs : List Token → List Node → Except BuildError (List NamedArgument)
  | name :: names, n :: rest => do
    let value ← Expr.ofNode n
    let others ← ofPairs names rest
    return ⟨name.image, value, name.position⟩ :: others
  | _, _ => return []

def listOfNode (n : Node) : Except BuildError (List NamedArgument) := do
  n.expectRule .actualNamedParameterList
  let names := n.tokens .identifier
  let values := n.nodes .expression
  if names.length ≠ values.length then throw (.malformed .argumentCount)
  ofPairs names values

/-- The first argument whose name an earlier one has. -/
def repeated? (seen : List String) : List NamedArgument → Option NamedArgument
  | [] => none
  | arg :: rest => if seen.contains arg.name then some arg else repeated? (arg.name :: seen) rest

/-- The arguments of a call. A name may be given only once. -/
def callArguments (args : List NamedArgument) : Except BuildError (List (String × Expr)) :=
  match repeated? [] args with
  | some arg => .error (.defect (.repeatedArgument arg.name) arg.position)
  | none => .ok (args.map fun arg => (arg.name, arg.value))

end NamedArgument

end Workflow
