import Workflow.Grammar.Reading

/-!
# The grammar of expressions

```text
expression := term (binaryOperator term)*
term       := unaryOperator? operand
operand    := literal | "[" arguments? "]" | "{" entries? "}" | "(" expression ")"
            | expressionLiteral | reference | name "(" arguments? ")"
reference  := part ("." part)*
part       := identifier ("[" expression "]")*
arguments  := expression ("," expression)*
entries    := (string | identifier) ":" expression ("," ...)*
```

No operator binds closer than another: an expression is a flat row of terms.
-/

namespace Workflow.Grammar

def referenceNode (position : Position) (parts : List Node) : Node :=
  .mk .variableReference position (parts.map (.node .subscriptReference))

/-- The node of the plain name that the parts of a reference spell. -/
def nameNode (position : Position) (parts : List Node) : Node :=
  .mk .qualifiedName position
    (parts.flatMap fun part => (part.tokens .identifier).map (.token .identifier))

def isSubscripted (parts : List Node) : Bool :=
  parts.any (·.has .subscript)

def argumentChild (position : Position) : List Node → List Child
  | [] => []
  | args => [.node .actualParameterList
      (.mk .actualParameterList position (args.map (.node .expression)))]

mutual

def expression (stop : Position) (s : List Token) : Except ParseError (Read Node s) := do
  let ⟨first, r, h⟩ ← term stop s
  let ⟨others, r, h⟩ ← afterSome h (operations stop r)
  return ⟨.mk .expression (here stop s) (.node .term first :: others), r, h⟩
termination_by 8 * s.length + 5

/-- Reads the operators of an expression, each with the term after it. -/
def operations (stop : Position) (s : List Token) :
    Except ParseError (ReadSome (List Child) s) :=
  match accept? .binaryOperator s with
  | none => .ok ⟨[], s, notLonger_refl s⟩
  | some ⟨operator, r, h⟩ => do
    let ⟨next, r, h⟩ ← after h (term stop r)
    let ⟨others, r, h⟩ ← afterSome h (operations stop r)
    return ⟨.token .binaryOperator operator :: .node .term next :: others, r, h.notLonger⟩
termination_by 8 * s.length

def term (stop : Position) (s : List Token) : Except ParseError (Read Node s) :=
  match accept? .unaryOperator s with
  | none => do
    let ⟨value, r, h⟩ ← operand stop s
    return ⟨.mk .term (here stop s) value, r, h⟩
  | some ⟨operator, r, h⟩ => do
    let ⟨value, r, h⟩ ← after h (operand stop r)
    return ⟨.mk .term (here stop s) (.token .unaryOperator operator :: value), r, h⟩
termination_by 8 * s.length + 4

/-- Reads a term without its operator, as the children of the term's node. -/
def operand (stop : Position) : (s : List Token) → Except ParseError (Read (List Child) s)
  | [] => .error (unexpected stop .expression [])
  | t :: r =>
    if t.lexeme.isLiteral then
      .ok ⟨[.node .literal (.mk .literal t.position [.token .value t])], r, shorter_cons t r⟩
    else match t.lexeme with
      | .symbol .lbracket => do
        let ⟨items, r, h⟩ ← after (shorter_cons t r) (argumentsUpTo stop .rbracket r)
        return ⟨[.node .array (.mk .array t.position (items.map (.node .expression)))], r, h⟩
      | .symbol .lbrace => do
        let ⟨children, r, h⟩ ← after (shorter_cons t r) (entriesUpTo stop r)
        return ⟨[.node .object (.mk .object t.position children)], r, h⟩
      | .symbol .lparen => do
        let ⟨inner, r, h⟩ ← after (shorter_cons t r) (expression stop r)
        let ⟨_, r, h⟩ ← after h (expect stop (.symbol .rparen) r)
        return ⟨[.token .lparen t, .node .expression inner], r, h⟩
      | .expression _ => .ok ⟨[.token .expressionLiteral t], r, shorter_cons t r⟩
      | .identifier _ => do
        let ⟨parts, behind, h⟩ ← reference stop (t :: r)
        match after h (accept? (.symbol .lparen) behind) with
        | none =>
          return ⟨[.node .variableReference (referenceNode t.position parts)], behind, h⟩
        | some ⟨_, inside, h⟩ =>
          if isSubscripted parts then .error (unexpected stop .plainName behind)
          else do
            let ⟨args, r, h⟩ ← after h (argumentsUpTo stop .rparen inside)
            let call := Node.mk .callExpression t.position
              (.node .qualifiedName (nameNode t.position parts) ::
                argumentChild (here stop inside) args)
            return ⟨[.node .callExpression call], r, h⟩
      | _ => .error (unexpected stop .expression (t :: r))
termination_by s => 8 * s.length + 3
decreasing_by all_goals
  simp only [Shorter, List.length_cons] at *
  omega

def reference (stop : Position) (s : List Token) : Except ParseError (Read (List Node) s) := do
  let ⟨part, r, h⟩ ← referencePart stop s
  match after h (accept? (.symbol .dot) r) with
  | none => return ⟨[part], r, h⟩
  | some ⟨_, r, h⟩ => do
    let ⟨parts, r, h⟩ ← after h (reference stop r)
    return ⟨part :: parts, r, h⟩
termination_by 8 * s.length + 2

def referencePart (stop : Position) (s : List Token) : Except ParseError (Read Node s) := do
  let ⟨name, r, h⟩ ← expect stop .identifier s
  let ⟨found, r, h⟩ ← afterSome h (subscripts stop r)
  return ⟨.mk .subscriptReference (here stop s)
    (.token .identifier name :: found.map (.node .subscript)), r, h⟩
termination_by 8 * s.length + 1

def subscripts (stop : Position) (s : List Token) :
    Except ParseError (ReadSome (List Node) s) :=
  match accept? (.symbol .lbracket) s with
  | none => .ok ⟨[], s, notLonger_refl s⟩
  | some ⟨_, r, h⟩ => do
    let ⟨first, r, h⟩ ← after h (expression stop r)
    let ⟨_, r, h⟩ ← after h (expect stop (.symbol .rbracket) r)
    let ⟨others, r, h⟩ ← afterSome h (subscripts stop r)
    return ⟨first :: others, r, h.notLonger⟩
termination_by 8 * s.length

/-- Reads expressions with commas between them, at least one. -/
def arguments (stop : Position) (s : List Token) : Except ParseError (Read (List Node) s) := do
  let ⟨first, r, h⟩ ← expression stop s
  match after h (accept? (.symbol .comma) r) with
  | none => return ⟨[first], r, h⟩
  | some ⟨_, r, h⟩ => do
    let ⟨others, r, h⟩ ← after h (arguments stop r)
    return ⟨first :: others, r, h⟩
termination_by 8 * s.length + 6

/-- Reads expressions with commas between them, perhaps none, and a closing sign. -/
def argumentsUpTo (stop : Position) (close : Symbol) (s : List Token) :
    Except ParseError (Read (List Node) s) :=
  match accept? (.symbol close) s with
  | some ⟨_, r, h⟩ => .ok ⟨[], r, h⟩
  | none => do
    let ⟨args, r, h⟩ ← arguments stop s
    let ⟨_, r, h⟩ ← after h (expect stop (.symbol close) r)
    return ⟨args, r, h⟩
termination_by 8 * s.length + 7

def entries (stop : Position) (s : List Token) : Except ParseError (Read (List Child) s) := do
  let ⟨key, r, h⟩ ← expect stop .objectKey s
  let ⟨_, r, h⟩ ← after h (expect stop (.symbol .colon) r)
  let ⟨value, r, h⟩ ← after h (expression stop r)
  match after h (accept? (.symbol .comma) r) with
  | none => return ⟨[.token .key key, .node .expression value], r, h⟩
  | some ⟨_, r, h⟩ => do
    let ⟨others, r, h⟩ ← after h (entries stop r)
    return ⟨.token .key key :: .node .expression value :: others, r, h⟩
termination_by 8 * s.length

def entriesUpTo (stop : Position) (s : List Token) : Except ParseError (Read (List Child) s) :=
  match accept? (.symbol .rbrace) s with
  | some ⟨_, r, h⟩ => .ok ⟨[], r, h⟩
  | none => do
    let ⟨children, r, h⟩ ← entries stop s
    let ⟨_, r, h⟩ ← after h (expect stop (.symbol .rbrace) r)
    return ⟨children, r, h⟩
termination_by 8 * s.length + 1

end

/-- Reads named arguments with commas between them, at least one, as the children of their node. -/
def namedEntries (stop : Position) (s : List Token) :
    Except ParseError (Read (List Child) s) := do
  let ⟨name, r, h⟩ ← expect stop .identifier s
  let ⟨_, r, h⟩ ← after h (expect stop (.symbol .assign) r)
  let ⟨value, r, h⟩ ← after h (expression stop r)
  match after h (accept? (.symbol .comma) r) with
  | none => return ⟨[.token .identifier name, .node .expression value], r, h⟩
  | some ⟨_, r, h⟩ => do
    let ⟨others, r, h⟩ ← after h (namedEntries stop r)
    return ⟨.token .identifier name :: .node .expression value :: others, r, h⟩
termination_by s.length

def namedArguments (stop : Position) (s : List Token) : Except ParseError (Read Node s) := do
  let ⟨children, r, h⟩ ← namedEntries stop s
  return ⟨.mk .actualNamedParameterList (here stop s) children, r, h⟩

end Workflow.Grammar
