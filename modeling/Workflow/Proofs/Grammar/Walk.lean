import Workflow.Grammar.Program

/-!
# Walking over a stream of tokens

The grammar is read here with a cursor that walks over a whole stream, in which further ends of
input may stand before the last one. Nothing is cut off the stream and nothing is proved on the
way: a look behind the last token shows the last token, a move behind it stays on it, and a loop
goes on for as long as its test says. So it has to be shown that a walk ends.

A walk leaves a trail. It tells for each look where the cursor stood and which token was looked
at, also when the walk ends with a fault.
-/

namespace Workflow.Grammar

/-- A list of tokens that ends with the end of input. -/
structure Stream where
  front : List Token
  final : Token
  ended : final.lexeme = .endOfInput

namespace Stream

def tokens (S : Stream) : List Token := S.front ++ [S.final]

/-- The token with a number, or the last one where there are not so many. -/
def token (S : Stream) (n : Nat) : Token := S.front.getD n S.final

/-- The tokens before the first end of input. -/
def program (S : Stream) : List Token := S.tokens.takeWhile (·.lexeme ≠ .endOfInput)

/-- The number of the first end of input. -/
def firstEnd (S : Stream) : Nat := S.program.length

/-- The position of the first end of input. -/
def stop (S : Stream) : Position := (S.token S.firstEnd).position

end Stream

/-- A look at the token with a number from where the cursor stands. -/
structure Look where
  cursor : Nat
  number : Nat

/-- Where the cursor stands, and the looks so far. -/
structure Trail where
  cursor : Nat
  looks : List Look

namespace Trail

/-- The trail in front of the first token. -/
def start : Trail := ⟨0, []⟩

/-- One more look, some places ahead of the cursor. -/
def look (trail : Trail) (ahead : Nat) : Trail :=
  { trail with looks := trail.looks ++ [⟨trail.cursor, trail.cursor + ahead⟩] }

/-- The cursor moves to the next token of a stream, unless it stands on the last one. -/
def move (trail : Trail) (S : Stream) : Trail :=
  { trail with cursor := if trail.cursor < S.front.length then trail.cursor + 1 else trail.cursor }

end Trail

/-- The routines that a walk can call. Each stands for a loop of the grammar, or for a part that
holds itself. -/
inductive Routine : Type → Type where
  | expression : Routine Node
  | operations : Routine (List Child)
  | reference : Routine (List Node)
  | subscripts : Routine (List Node)
  | arguments : Routine (List Node)
  | entries : Routine (List Child)
  | namedEntries : Routine (List Child)
  | namedCallAhead (ahead : Nat) : Routine Bool
  | nameTokens : Routine (List Token)
  | statements : Routine (List Node)
  | elseClauses : Routine (List Child)
  | branches : Routine (List Child)
  | parameters : Routine (List Node)
  | definitions : Routine (List Node)

/-- What a reader with a cursor does, up to its result. -/
inductive Walk (α : Type) : Type 1 where
  | done (value : α)
  | fault (error : ParseError)
  /-- Looks at the token some places ahead. -/
  | look (ahead : Nat) (next : Token → Walk α)
  /-- Moves the cursor by one token. -/
  | move (next : Walk α)
  | call {β : Type} (routine : Routine β) (next : β → Walk α)

namespace Walk

/-- Goes on behind a walk. -/
def andThen {α β : Type} : Walk α → (α → Walk β) → Walk β
  | .done value, f => f value
  | .fault error, _ => .fault error
  | .look ahead next, f => .look ahead fun t => (next t).andThen f
  | .move next, f => .move (next.andThen f)
  | .call routine next, f => .call routine fun value => (next value).andThen f

instance : Monad Walk where
  pure := .done
  bind := andThen

/-- Calls a routine. -/
def callTo {β : Type} (routine : Routine β) : Walk β := .call routine .done

/-- The token that stands some places ahead of the cursor. -/
def lookAt (ahead : Nat) : Walk Token := .look ahead .done

/-- Moves to the next token, and gives the token left. -/
def advance : Walk Token := do
  let t ← lookAt 0
  .move (.done t)

/-- The position of the token at the cursor. -/
def here : Walk Position := do
  let t ← lookAt 0
  return t.position

/-- The fault that the token at the cursor is not what is needed. -/
def fail {α : Type} (expected : Expectation) : Walk α := do
  let t ← lookAt 0
  .fault (.unexpected expected (if t.lexeme = .endOfInput then none else some t.image) t.position)

/-- Reads a token of a class if there is one. -/
def accept? (terminal : Terminal) : Walk (Option Token) := do
  let t ← lookAt 0
  if terminal.accepts t.lexeme then
    let t ← advance
    return some t
  else return none

/-- Reads a token of a class. -/
def expect (terminal : Terminal) : Walk Token := do
  match ← accept? terminal with
  | some t => return t
  | none => fail (.terminal terminal)

/-! ## Expressions -/

def literal : Walk Node := do
  let start ← here
  let value ← expect .literal
  return .mk .literal start [.token .value value]

def subscripts : Walk (List Node) := do
  match ← accept? (.symbol .lbracket) with
  | none => return []
  | some _ =>
    let first ← callTo .expression
    let _ ← expect (.symbol .rbracket)
    let others ← callTo .subscripts
    return first :: others

def referencePart : Walk Node := do
  let start ← here
  let name ← expect .identifier
  let found ← subscripts
  return .mk .subscriptReference start (.token .identifier name :: found.map (.node .subscript))

def reference : Walk (List Node) := do
  let part ← referencePart
  match ← accept? (.symbol .dot) with
  | none => return [part]
  | some _ =>
    let parts ← callTo .reference
    return part :: parts

def arguments : Walk (List Node) := do
  let first ← callTo .expression
  match ← accept? (.symbol .comma) with
  | none => return [first]
  | some _ =>
    let others ← callTo .arguments
    return first :: others

def argumentsUpTo (close : Symbol) : Walk (List Node) := do
  match ← accept? (.symbol close) with
  | some _ => return []
  | none =>
    let args ← arguments
    let _ ← expect (.symbol close)
    return args

def entries : Walk (List Child) := do
  let key ← expect .objectKey
  let _ ← expect (.symbol .colon)
  let value ← callTo .expression
  match ← accept? (.symbol .comma) with
  | none => return [.token .key key, .node .expression value]
  | some _ =>
    let others ← callTo .entries
    return .token .key key :: .node .expression value :: others

def entriesUpTo : Walk (List Child) := do
  match ← accept? (.symbol .rbrace) with
  | some _ => return []
  | none =>
    let children ← entries
    let _ ← expect (.symbol .rbrace)
    return children

def operand : Walk (List Child) := do
  let t ← lookAt 0
  if t.lexeme.isLiteral then
    let value ← literal
    return [.node .literal value]
  else match t.lexeme with
    | .symbol .lbracket =>
      let start ← advance
      let items ← argumentsUpTo .rbracket
      return [.node .array (.mk .array start.position (items.map (.node .expression)))]
    | .symbol .lbrace =>
      let start ← advance
      let children ← entriesUpTo
      return [.node .object (.mk .object start.position children)]
    | .symbol .lparen =>
      let start ← advance
      let inner ← callTo .expression
      let _ ← expect (.symbol .rparen)
      return [.token .lparen start, .node .expression inner]
    | .expression _ =>
      let text ← advance
      return [.token .expressionLiteral text]
    | .identifier _ =>
      let parts ← reference
      let next ← lookAt 0
      if next.lexeme = .symbol .lparen then
        if isSubscripted parts then fail .plainName
        else
          let _ ← advance
          let inside ← here
          let args ← argumentsUpTo .rparen
          return [.node .callExpression (.mk .callExpression t.position
            (.node .qualifiedName (nameNode t.position parts) :: argumentChild inside args))]
      else return [.node .variableReference (referenceNode t.position parts)]
    | _ => fail .expression

def term : Walk Node := do
  let start ← here
  match ← accept? .unaryOperator with
  | none =>
    let value ← operand
    return .mk .term start value
  | some operator =>
    let value ← operand
    return .mk .term start (.token .unaryOperator operator :: value)

def operations : Walk (List Child) := do
  match ← accept? .binaryOperator with
  | none => return []
  | some operator =>
    let next ← term
    let others ← callTo .operations
    return .token .binaryOperator operator :: .node .term next :: others

def expression : Walk Node := do
  let start ← here
  let first ← term
  let others ← operations
  return .mk .expression start (.node .term first :: others)

/-! ## Named arguments and calls -/

def namedEntries : Walk (List Child) := do
  let name ← expect .identifier
  let _ ← expect (.symbol .assign)
  let value ← expression
  match ← accept? (.symbol .comma) with
  | none => return [.token .identifier name, .node .expression value]
  | some _ =>
    let others ← callTo .namedEntries
    return .token .identifier name :: .node .expression value :: others

def namedArgumentsUpTo : Walk Child := do
  let start ← here
  let children ← namedEntries
  let _ ← expect (.symbol .rparen)
  return .node .actualNamedParameterList (.mk .actualNamedParameterList start children)

/-- Whether a named argument stands some places ahead. -/
def namedArgumentAhead (ahead : Nat) : Walk Bool := do
  let t ← lookAt ahead
  if t.lexeme.isIdentifier then
    let u ← lookAt (ahead + 1)
    return u.lexeme = .symbol .assign
  else return false

/-- Whether no arguments or named ones stand some places ahead. -/
def namedOrNoArgumentsAhead (ahead : Nat) : Walk Bool := do
  let t ← lookAt ahead
  if t.lexeme = .symbol .rparen then
    let u ← lookAt (ahead + 1)
    return !u.lexeme.isBinaryOp
  else namedArgumentAhead ahead

/-- Whether a call with named arguments or none stands some places ahead. -/
def namedCallAhead (ahead : Nat) : Walk Bool := do
  let t ← lookAt ahead
  if t.lexeme.isIdentifier then
    let u ← lookAt (ahead + 1)
    if u.lexeme = .symbol .dot then callTo (.namedCallAhead (ahead + 2))
    else if u.lexeme = .symbol .lparen then namedOrNoArgumentsAhead (ahead + 2)
    else return false
  else return false

def nameTokens : Walk (List Token) := do
  let first ← expect .identifier
  match ← accept? (.symbol .dot) with
  | none => return [first]
  | some _ =>
    let others ← callTo .nameTokens
    return first :: others

def namedOrNoArguments : Walk (List Child) := do
  match ← accept? (.symbol .rparen) with
  | some _ => return []
  | none =>
    let child ← namedArgumentsUpTo
    return [child]

def namedCall : Walk Node := do
  let start ← here
  let names ← nameTokens
  let _ ← expect (.symbol .lparen)
  let args ← namedOrNoArguments
  let next ← lookAt 0
  if next.lexeme.isBinaryOp then fail .endOfStatement
  else
    return .mk .namedCall start
      (.node .qualifiedName (.mk .qualifiedName start (names.map (.token .identifier))) :: args)

/-- Reads the arguments of a call statement with both parentheses. Which kind they are of is decided
in front of the opening one. -/
def callArguments : Walk (List Child) := do
  let named ← namedArgumentAhead 1
  let _ ← advance
  if named then
    let child ← namedArgumentsUpTo
    return [child]
  else
    let inside ← here
    let args ← argumentsUpTo .rparen
    return argumentChild inside args

def callOrAssignment : Walk Node := do
  let start ← here
  let parts ← reference
  let next ← lookAt 0
  match next.lexeme with
  | .symbol .assign =>
    let assign ← advance
    let target := [Child.node .variableReference (referenceNode start parts),
      Child.token .assign assign]
    let named ← namedCallAhead 0
    if named then
      let call ← namedCall
      return .mk .callOrAssignment start (target ++ [.node .namedCall call])
    else
      let value ← expression
      return .mk .callOrAssignment start (target ++ [.node .expression value])
  | .symbol .lparen =>
    if isSubscripted parts then fail .plainName
    else
      let args ← callArguments
      return .mk .callOrAssignment start (.node .qualifiedName (nameNode start parts) :: args)
  | _ => fail .assignOrCall

/-! ## Statements -/

def clauseArguments : Walk Child := do
  let _ ← expect (.symbol .lparen)
  namedArgumentsUpTo

def parallelArguments : Walk (List Child) := do
  let next ← lookAt 0
  if next.lexeme = .symbol .lparen then
    let child ← clauseArguments
    return [child]
  else return []

def retryClause : Walk (List Child) := do
  match ← accept? (.keyword .retry) with
  | none => return []
  | some retry =>
    let child ← clauseArguments
    return [.token .retry retry, child]

def caughtName : Walk Token := do
  let _ ← expect (.symbol .lparen)
  let name ← expect .identifier
  let _ ← expect (.symbol .rparen)
  return name

def block : Walk Node := do
  let _ ← expect (.symbol .lbrace)
  let start ← here
  let found ← callTo .statements
  let _ ← expect (.symbol .rbrace)
  return .mk .statementBlock start (found.map (.node .statement))

def condition : Walk (List Child) := do
  let _ ← expect (.symbol .lparen)
  let test ← expression
  let _ ← expect (.symbol .rparen)
  let body ← block
  return [.node .expression test, .node .statementBlock body]

def elseClauses : Walk (List Child) := do
  match ← accept? (.keyword .else) with
  | none => return []
  | some else_ =>
    match ← accept? (.keyword .if) with
    | some if_ =>
      let first ← condition
      let others ← callTo .elseClauses
      return .token .else else_ :: .token .if if_ :: (first ++ others)
    | none =>
      let body ← block
      return [.token .else else_, .node .statementBlock body]

def loop (for_ : Token) : Walk Node := do
  let _ ← expect (.symbol .lparen)
  let name ← expect .identifier
  let _ ← expect (.keyword .in)
  let items ← expression
  let _ ← expect (.symbol .rparen)
  let body ← block
  return .mk .forStatement for_.position [.token .for for_, .token .identifier name,
    .node .expression items, .node .statementBlock body]

def branches : Walk (List Child) := do
  match ← accept? (.keyword .branch) with
  | none => return []
  | some branch =>
    let body ← block
    let others ← callTo .branches
    return .token .branch branch :: .node .statementBlock body :: others

def parallelBody : Walk (List Child) := do
  match ← accept? (.keyword .for) with
  | some for_ =>
    let node ← loop for_
    return [.node .forStatement node]
  | none =>
    match ← accept? (.keyword .branch) with
    | none => fail .branchOrFor
    | some branch =>
      let body ← block
      let others ← branches
      return .token .branch branch :: .node .statementBlock body :: others

def catchClause : Walk (List Child) := do
  match ← accept? (.keyword .catch) with
  | none => return []
  | some catch_ =>
    let name ← caughtName
    let body ← block
    return [.token .catch catch_, .token .identifier name, .node .catchBlock body]

def statement : Walk Node := do
  let next ← lookAt 0
  match next.lexeme with
  | .identifier _ => callOrAssignment
  | .keyword .if =>
    let if_ ← advance
    let first ← condition
    let others ← elseClauses
    return .mk .ifStatement if_.position (.token .if if_ :: (first ++ others))
  | .keyword .for =>
    let for_ ← advance
    loop for_
  | .keyword .parallel =>
    let parallel ← advance
    let args ← parallelArguments
    let body ← parallelBody
    return .mk .parallelStatement parallel.position (.token .parallel parallel :: (args ++ body))
  | .keyword .try =>
    let try_ ← advance
    let body ← block
    let retry ← retryClause
    let handler ← catchClause
    if retry.isEmpty && handler.isEmpty then .fault (.bareTry try_.position)
    else
      return .mk .tryStatement try_.position
        (.token .try try_ :: .node .tryBlock body :: (retry ++ handler))
  | .keyword .throw =>
    let throw_ ← advance
    let value ← expression
    return .mk .throwStatement throw_.position [.token .throw throw_, .node .expression value]
  | .keyword .break =>
    let break_ ← advance
    return .mk .breakStatement break_.position [.token .break break_]
  | .keyword .continue =>
    let continue_ ← advance
    return .mk .continueStatement continue_.position [.token .continue continue_]
  | .keyword .return =>
    let return_ ← advance
    let next ← lookAt 0
    if next.lexeme.startsExpression then
      let value ← expression
      return .mk .returnStatement return_.position
        [.token .return return_, .node .expression value]
    else return .mk .returnStatement return_.position [.token .return return_]
  | _ => fail .statement

def statements : Walk (List Node) := do
  let next ← lookAt 0
  if next.lexeme = .symbol .rbrace ∨ next.lexeme = .endOfInput then return []
  else
    let first ← statement
    let others ← callTo .statements
    return first :: others

/-! ## Programs -/

def parameter : Walk Node := do
  let start ← here
  let name ← expect .identifier
  match ← accept? (.symbol .assign) with
  | none => return .mk .formalParameter start [.token .identifier name]
  | some _ =>
    let value ← literal
    return .mk .formalParameter start [.token .identifier name, .node .literal value]

def parameters : Walk (List Node) := do
  let first ← parameter
  match ← accept? (.symbol .comma) with
  | none => return [first]
  | some _ =>
    let others ← callTo .parameters
    return first :: others

def parameterList : Walk Node := do
  let start ← here
  match ← accept? (.symbol .rparen) with
  | some _ => return .mk .formalParameterList start []
  | none =>
    let found ← parameters
    let _ ← expect (.symbol .rparen)
    return .mk .formalParameterList start (found.map (.node .formalParameter))

def definition : Walk Node := do
  let start ← here
  let workflow ← expect (.keyword .workflow)
  let name ← expect .identifier
  let _ ← expect (.symbol .lparen)
  let list ← parameterList
  let body ← block
  return .mk .subworkflowDefinition start [.token .workflow workflow, .token .identifier name,
    .node .formalParameterList list, .node .statementBlock body]

def definitions : Walk (List Node) := do
  let next ← lookAt 0
  if next.lexeme = .endOfInput then return []
  else
    let first ← definition
    let others ← callTo .definitions
    return first :: others

def program : Walk Node := do
  let start ← here
  let found ← definitions
  return .mk .program start (found.map (.node .subworkflowDefinition))

end Walk

/-- What a routine does. -/
def Routine.walk {α : Type} : Routine α → Walk α
  | .expression => Walk.expression
  | .operations => Walk.operations
  | .reference => Walk.reference
  | .subscripts => Walk.subscripts
  | .arguments => Walk.arguments
  | .entries => Walk.entries
  | .namedEntries => Walk.namedEntries
  | .namedCallAhead ahead => Walk.namedCallAhead ahead
  | .nameTokens => Walk.nameTokens
  | .statements => Walk.statements
  | .elseClauses => Walk.elseClauses
  | .branches => Walk.branches
  | .parameters => Walk.parameters
  | .definitions => Walk.definitions

/-- A walk over a stream from a trail ends with a result and a longer trail. -/
inductive Walk.Ends (S : Stream) : {α : Type} → Walk α → Trail → Except ParseError α → Trail → Prop
    where
  | done {α : Type} (value : α) (trail : Trail) : Ends S (.done value) trail (.ok value) trail
  | fault {α : Type} (error : ParseError) (trail : Trail) :
      Ends S (.fault error : Walk α) trail (.error error) trail
  | look {α : Type} {ahead : Nat} {next : Token → Walk α} {trail last : Trail}
      {result : Except ParseError α}
      (hnext : Ends S (next (S.token (trail.cursor + ahead))) (trail.look ahead) result last) :
      Ends S (.look ahead next) trail result last
  | move {α : Type} {next : Walk α} {trail last : Trail} {result : Except ParseError α}
      (hnext : Ends S next (trail.move S) result last) : Ends S (.move next) trail result last
  | call {α β : Type} {routine : Routine β} {next : β → Walk α} {value : β}
      {trail middle last : Trail} {result : Except ParseError α}
      (hwalk : Ends S routine.walk trail (.ok value) middle)
      (hnext : Ends S (next value) middle result last) :
      Ends S (.call routine next) trail result last
  | callFault {α β : Type} {routine : Routine β} {next : β → Walk α} {error : ParseError}
      {trail last : Trail} (hwalk : Ends S routine.walk trail (.error error) last) :
      Ends S (.call routine next) trail (.error error) last

end Workflow.Grammar
