import Workflow.Grammar.Statement

/-!
# The grammar of programs

```text
program    := definition*
definition := "workflow" identifier "(" parameters? ")" "{" block "}"
parameters := identifier ("=" literal)? ("," ...)*
```
-/

namespace Workflow

namespace Grammar

def parameter (stop : Position) (s : List Token) : Except ParseError (Read Node s) := do
  let ⟨name, r, h⟩ ← expect stop .identifier s
  match after h (accept? (.symbol .assign) r) with
  | none => return ⟨.mk .formalParameter (here stop s) [.token .identifier name], r, h⟩
  | some ⟨_, r, h⟩ => do
    let ⟨value, r, h⟩ ← after h (expect stop .literal r)
    let literal := Node.mk .literal value.position [.token .value value]
    return ⟨.mk .formalParameter (here stop s) [.token .identifier name, .node .literal literal],
      r, h⟩

def parameters (stop : Position) (s : List Token) : Except ParseError (Read (List Node) s) := do
  let ⟨first, r, h⟩ ← parameter stop s
  match after h (accept? (.symbol .comma) r) with
  | none => return ⟨[first], r, h⟩
  | some ⟨_, r, h⟩ => do
    let ⟨others, r, h⟩ ← after h (parameters stop r)
    return ⟨first :: others, r, h⟩
termination_by s.length

def parameterList (stop : Position) (s : List Token) : Except ParseError (Read Node s) :=
  match accept? (.symbol .rparen) s with
  | some ⟨_, r, h⟩ => .ok ⟨.mk .formalParameterList (here stop s) [], r, h⟩
  | none => do
    let ⟨found, r, h⟩ ← parameters stop s
    let ⟨_, r, h⟩ ← after h (expect stop (.symbol .rparen) r)
    return ⟨.mk .formalParameterList (here stop s) (found.map (.node .formalParameter)), r, h⟩

def definition (stop : Position) (s : List Token) : Except ParseError (Read Node s) := do
  let ⟨workflow, r, h⟩ ← expect stop (.keyword .workflow) s
  let ⟨name, r, h⟩ ← after h (expect stop .identifier r)
  let ⟨_, r, h⟩ ← after h (expect stop (.symbol .lparen) r)
  let ⟨list, r, h⟩ ← after h (parameterList stop r)
  let ⟨body, r, h⟩ ← after h (block stop r)
  return ⟨.mk .subworkflowDefinition (here stop s) [.token .workflow workflow,
    .token .identifier name, .node .formalParameterList list, .node .statementBlock body], r, h⟩

/-- Reads definitions up to the end of input. -/
def definitions (stop : Position) (s : List Token) : Except ParseError (List Node) :=
  if s.isEmpty then .ok []
  else do
    let ⟨first, r, _⟩ ← definition stop s
    let others ← definitions stop r
    return first :: others
termination_by s.length

end Grammar

/-- The syntax tree of a list of tokens. The list has to end with the end of input; what comes
before its first end of input is the program. -/
def Node.ofTokens (tokens : List Token) : Except Grammar.ParseError Node :=
  match tokens.getLast? with
  | none => .error .emptyStream
  | some last =>
    if last.lexeme ≠ .endOfInput then .error (.unendedStream last.position)
    else do
      let program := tokens.takeWhile (·.lexeme ≠ .endOfInput)
      let stop := Grammar.here last.position (tokens.dropWhile (·.lexeme ≠ .endOfInput))
      let found ← Grammar.definitions stop program
      return .mk .program (Grammar.here stop program)
        (found.map (.node .subworkflowDefinition))

end Workflow
