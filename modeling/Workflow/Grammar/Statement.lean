import Workflow.Grammar.Expression

/-!
# The grammar of statements

```text
block     := statement*
statement := reference "=" (namedCall | expression)
           | name "(" (namedArguments | arguments)? ")"
           | "if" condition ("else" "if" condition)* ("else" "{" block "}")?
           | "for" loop
           | "parallel" ("(" namedArguments ")")? ("for" loop | ("branch" "{" block "}")+)
           | "try" "{" block "}" ("retry" "(" namedArguments ")")?
               ("catch" "(" identifier ")" "{" block "}")?
           | "throw" expression | "break" | "continue" | "return" expression?
condition := "(" expression ")" "{" block "}"
loop      := "(" identifier "in" expression ")" "{" block "}"
namedCall := name "(" namedArguments? ")"
```

Behind `=` a call without arguments or with named ones is a call statement, and one with
positional arguments, or one that an operator follows, is part of an expression. A `try` needs a
`retry`, a `catch` or both.
-/

namespace Workflow.Grammar

/-- Whether a named argument comes next: a name and `=`. -/
def namedArgumentAhead : List Token → Bool
  | t :: u :: _ => t.lexeme.isIdentifier && u.lexeme = .symbol .assign
  | _ => false

/-- Whether no arguments or named ones come next, behind the opening parenthesis of a call. No
arguments count only where no operator follows the call. -/
def namedOrNoArgumentsAhead : List Token → Bool
  | [] => false
  | t :: rest =>
    if t.lexeme = .symbol .rparen then !rest.head?.any (·.lexeme.isBinaryOp)
    else namedArgumentAhead (t :: rest)

def namedCallAhead : List Token → Bool
  | t :: u :: rest =>
    t.lexeme.isIdentifier &&
      if u.lexeme = .symbol .dot then namedCallAhead rest
      else u.lexeme = .symbol .lparen && namedOrNoArgumentsAhead rest
  | _ => false

def nameTokens (stop : Position) (s : List Token) :
    Except ParseError (Read (List Token) s) := do
  let ⟨first, r, h⟩ ← expect stop .identifier s
  match after h (accept? (.symbol .dot) r) with
  | none => return ⟨[first], r, h⟩
  | some ⟨_, r, h⟩ => do
    let ⟨others, r, h⟩ ← after h (nameTokens stop r)
    return ⟨first :: others, r, h⟩
termination_by s.length

def namedArgumentsUpTo (stop : Position) (s : List Token) :
    Except ParseError (Read Child s) := do
  let ⟨list, r, h⟩ ← namedArguments stop s
  let ⟨_, r, h⟩ ← after h (expect stop (.symbol .rparen) r)
  return ⟨.node .actualNamedParameterList list, r, h⟩

/-- Reads named arguments, perhaps none, and the closing parenthesis, as the children of a call. -/
def namedOrNoArguments (stop : Position) (s : List Token) :
    Except ParseError (Read (List Child) s) :=
  match accept? (.symbol .rparen) s with
  | some ⟨_, r, h⟩ => .ok ⟨[], r, h⟩
  | none => do
    let ⟨child, r, h⟩ ← namedArgumentsUpTo stop s
    return ⟨[child], r, h⟩

/-- Reads a call with named arguments or none, which no operator may follow. -/
def namedCall (stop : Position) (s : List Token) : Except ParseError (Read Node s) := do
  let ⟨names, r, h⟩ ← nameTokens stop s
  let ⟨_, r, h⟩ ← after h (expect stop (.symbol .lparen) r)
  let ⟨args, r, h⟩ ← after h (namedOrNoArguments stop r)
  if (accept? .binaryOperator r).isSome then .error (unexpected stop .endOfStatement r)
  else
    let name := Node.mk .qualifiedName (here stop s) (names.map (.token .identifier))
    return ⟨.mk .namedCall (here stop s) (.node .qualifiedName name :: args), r, h⟩

def callArguments (stop : Position) (s : List Token) :
    Except ParseError (Read (List Child) s) :=
  if namedArgumentAhead s then do
    let ⟨child, r, h⟩ ← namedArgumentsUpTo stop s
    return ⟨[child], r, h⟩
  else do
    let ⟨args, r, h⟩ ← argumentsUpTo stop .rparen s
    return ⟨argumentChild (here stop s) args, r, h⟩

def callOrAssignment (stop : Position) (s : List Token) : Except ParseError (Read Node s) := do
  let position := here stop s
  let ⟨parts, behind, h⟩ ← reference stop s
  match after h (accept? (.symbol .assign) behind) with
  | some ⟨assign, r, h⟩ =>
    let target := [Child.node .variableReference (referenceNode position parts),
      Child.token .assign assign]
    if namedCallAhead r then do
      let ⟨call, r, h⟩ ← after h (namedCall stop r)
      return ⟨.mk .callOrAssignment position (target ++ [.node .namedCall call]), r, h⟩
    else do
      let ⟨value, r, h⟩ ← after h (expression stop r)
      return ⟨.mk .callOrAssignment position (target ++ [.node .expression value]), r, h⟩
  | none =>
    -- what was read as a place is the name of a call
    match after h (accept? (.symbol .lparen) behind) with
    | none => .error (unexpected stop .assignOrCall behind)
    | some ⟨_, r, h⟩ =>
      if isSubscripted parts then .error (unexpected stop .plainName behind)
      else do
        let ⟨args, r, h⟩ ← after h (callArguments stop r)
        return ⟨.mk .callOrAssignment position
          (.node .qualifiedName (nameNode position parts) :: args), r, h⟩

def clauseArguments (stop : Position) (s : List Token) :
    Except ParseError (Read Child s) := do
  let ⟨_, r, h⟩ ← expect stop (.symbol .lparen) s
  after h (namedArgumentsUpTo stop r)

def parallelArguments (stop : Position) (s : List Token) :
    Except ParseError (ReadSome (List Child) s) :=
  if (accept? (.symbol .lparen) s).isSome then do
    let ⟨child, r, h⟩ ← clauseArguments stop s
    return ⟨[child], r, h.notLonger⟩
  else .ok ⟨[], s, notLonger_refl s⟩

def retryClause (stop : Position) (s : List Token) :
    Except ParseError (ReadSome (List Child) s) :=
  match accept? (.keyword .retry) s with
  | none => .ok ⟨[], s, notLonger_refl s⟩
  | some ⟨retry, r, h⟩ => do
    let ⟨child, r, h⟩ ← after h (clauseArguments stop r)
    return ⟨[.token .retry retry, child], r, h.notLonger⟩

/-- Reads the name of the error that a `catch` binds, between parentheses. -/
def caughtName (stop : Position) (s : List Token) : Except ParseError (Read Token s) := do
  let ⟨_, r, h⟩ ← expect stop (.symbol .lparen) s
  let ⟨name, r, h⟩ ← after h (expect stop .identifier r)
  let ⟨_, r, h⟩ ← after h (expect stop (.symbol .rparen) r)
  return ⟨name, r, h⟩

mutual

/-- Reads statements up to a closing brace or the end of input. -/
def statements (stop : Position) (s : List Token) :
    Except ParseError (ReadSome (List Node) s) :=
  if s.isEmpty || (accept? (.symbol .rbrace) s).isSome then .ok ⟨[], s, notLonger_refl s⟩
  else do
    let ⟨first, r, h⟩ ← statement stop s
    let ⟨others, r, h⟩ ← afterSome h (statements stop r)
    return ⟨first :: others, r, h.notLonger⟩
termination_by 4 * s.length + 3

def block (stop : Position) (s : List Token) : Except ParseError (Read Node s) := do
  let ⟨_, inside, h⟩ ← expect stop (.symbol .lbrace) s
  let ⟨found, r, h⟩ ← afterSome h (statements stop inside)
  let ⟨_, r, h⟩ ← after h (expect stop (.symbol .rbrace) r)
  return ⟨.mk .statementBlock (here stop inside) (found.map (.node .statement)), r, h⟩
termination_by 4 * s.length

def statement (stop : Position) : (s : List Token) → Except ParseError (Read Node s)
  | [] => .error (unexpected stop .statement [])
  | t :: r =>
    match t.lexeme with
    | .identifier _ => callOrAssignment stop (t :: r)
    | .keyword .if => do
      let ⟨first, r, h⟩ ← after (shorter_cons t r) (condition stop r)
      let ⟨others, r, h⟩ ← afterSome h (elseClauses stop r)
      return ⟨.mk .ifStatement t.position (.token .if t :: (first ++ others)), r, h⟩
    | .keyword .for => after (shorter_cons t r) (loop stop t r)
    | .keyword .parallel => do
      let ⟨args, r, h⟩ ← afterSome (shorter_cons t r) (parallelArguments stop r)
      let ⟨body, r, h⟩ ← after h (parallelBody stop r)
      return ⟨.mk .parallelStatement t.position (.token .parallel t :: (args ++ body)), r, h⟩
    | .keyword .try => do
      let ⟨body, r, h⟩ ← after (shorter_cons t r) (block stop r)
      let ⟨retry, r, h⟩ ← afterSome h (retryClause stop r)
      let ⟨handler, r, h⟩ ← afterSome h (catchClause stop r)
      if retry.isEmpty && handler.isEmpty then .error (.bareTry t.position)
      else
        return ⟨.mk .tryStatement t.position
          (.token .try t :: .node .tryBlock body :: (retry ++ handler)), r, h⟩
    | .keyword .throw => do
      let ⟨value, r, h⟩ ← after (shorter_cons t r) (expression stop r)
      return ⟨.mk .throwStatement t.position [.token .throw t, .node .expression value], r, h⟩
    | .keyword .break =>
      .ok ⟨.mk .breakStatement t.position [.token .break t], r, shorter_cons t r⟩
    | .keyword .continue =>
      .ok ⟨.mk .continueStatement t.position [.token .continue t], r, shorter_cons t r⟩
    | .keyword .return =>
      if r.head?.any (·.lexeme.startsExpression) then do
        let ⟨value, r, h⟩ ← after (shorter_cons t r) (expression stop r)
        return ⟨.mk .returnStatement t.position [.token .return t, .node .expression value], r, h⟩
      else .ok ⟨.mk .returnStatement t.position [.token .return t], r, shorter_cons t r⟩
    | _ => .error (unexpected stop .statement (t :: r))
termination_by s => 4 * s.length + 2
decreasing_by all_goals
  simp only [Shorter, List.length_cons] at *
  omega

/-- Reads a condition between parentheses and the block it guards. -/
def condition (stop : Position) (s : List Token) : Except ParseError (Read (List Child) s) := do
  let ⟨_, r, h⟩ ← expect stop (.symbol .lparen) s
  let ⟨test, r, h⟩ ← after h (expression stop r)
  let ⟨_, r, h⟩ ← after h (expect stop (.symbol .rparen) r)
  let ⟨body, r, h⟩ ← after h (block stop r)
  return ⟨[.node .expression test, .node .statementBlock body], r, h⟩
termination_by 4 * s.length + 1

/-- Reads the `else` clauses of an `if`. One without a condition is the last. -/
def elseClauses (stop : Position) (s : List Token) :
    Except ParseError (ReadSome (List Child) s) :=
  match accept? (.keyword .else) s with
  | none => .ok ⟨[], s, notLonger_refl s⟩
  | some ⟨else_, behind, h⟩ =>
    match after h (accept? (.keyword .if) behind) with
    | some ⟨if_, r, h⟩ => do
      let ⟨first, r, h⟩ ← after h (condition stop r)
      let ⟨others, r, h⟩ ← afterSome h (elseClauses stop r)
      return ⟨.token .else else_ :: .token .if if_ :: (first ++ others), r, h.notLonger⟩
    | none => do
      let ⟨body, r, h⟩ ← after h (block stop behind)
      return ⟨[.token .else else_, .node .statementBlock body], r, h.notLonger⟩
termination_by 4 * s.length

def loop (stop : Position) (for_ : Token) (s : List Token) :
    Except ParseError (Read Node s) := do
  let ⟨_, r, h⟩ ← expect stop (.symbol .lparen) s
  let ⟨name, r, h⟩ ← after h (expect stop .identifier r)
  let ⟨_, r, h⟩ ← after h (expect stop (.keyword .in) r)
  let ⟨items, r, h⟩ ← after h (expression stop r)
  let ⟨_, r, h⟩ ← after h (expect stop (.symbol .rparen) r)
  let ⟨body, r, h⟩ ← after h (block stop r)
  return ⟨.mk .forStatement for_.position [.token .for for_, .token .identifier name,
    .node .expression items, .node .statementBlock body], r, h⟩
termination_by 4 * s.length + 1

def parallelBody (stop : Position) (s : List Token) :
    Except ParseError (Read (List Child) s) :=
  match accept? (.keyword .for) s with
  | some ⟨for_, r, h⟩ => do
    let ⟨node, r, h⟩ ← after h (loop stop for_ r)
    return ⟨[.node .forStatement node], r, h⟩
  | none =>
    match accept? (.keyword .branch) s with
    | none => .error (unexpected stop .branchOrFor s)
    | some ⟨branch, r, h⟩ => do
      let ⟨body, r, h⟩ ← after h (block stop r)
      let ⟨others, r, h⟩ ← afterSome h (branches stop r)
      return ⟨.token .branch branch :: .node .statementBlock body :: others, r, h⟩
termination_by 4 * s.length

def branches (stop : Position) (s : List Token) :
    Except ParseError (ReadSome (List Child) s) :=
  match accept? (.keyword .branch) s with
  | none => .ok ⟨[], s, notLonger_refl s⟩
  | some ⟨branch, r, h⟩ => do
    let ⟨body, r, h⟩ ← after h (block stop r)
    let ⟨others, r, h⟩ ← afterSome h (branches stop r)
    return ⟨.token .branch branch :: .node .statementBlock body :: others, r, h.notLonger⟩
termination_by 4 * s.length

def catchClause (stop : Position) (s : List Token) :
    Except ParseError (ReadSome (List Child) s) :=
  match accept? (.keyword .catch) s with
  | none => .ok ⟨[], s, notLonger_refl s⟩
  | some ⟨catch_, r, h⟩ => do
    let ⟨name, r, h⟩ ← after h (caughtName stop r)
    let ⟨body, r, h⟩ ← after h (block stop r)
    return ⟨[.token .catch catch_, .token .identifier name, .node .catchBlock body], r,
      h.notLonger⟩
termination_by 4 * s.length

end

end Workflow.Grammar
