import Workflow.Grammar.Program

/-!
# Phrases of the grammar

A phrase is a derivation of the grammar: each constructor is a production, and a phrase holds its
tokens, the punctuation among them. Nothing here depends on how tokens are read. A phrase writes
the tokens it derives and has the syntax tree that stands for it.

```text
program       := definition*
definition    := "workflow" identifier "(" (parameter ("," parameter)*)? ")" block
parameter     := identifier ("=" literal)?
block         := "{" statement* "}"
statement     := reference "=" (qualifiedName "(" named? ")" | expression)
               | qualifiedName "(" (named | expression ("," expression)*)? ")"
               | "if" condition ("else" "if" condition)* ("else" block)?
               | loop | "parallel" ("(" named ")")? (("branch" block)+ | loop)
               | "try" block ("retry" "(" named ")")? ("catch" "(" identifier ")" block)?
               | "throw" expression | "break" | "continue" | "return" expression?
condition     := "(" expression ")" block
loop          := "for" "(" identifier "in" expression ")" block
named         := identifier "=" expression ("," identifier "=" expression)*
expression    := term (binaryOperator term)*
term          := unaryOperator? operand
operand       := literal | "[" (expression ("," expression)*)? "]"
               | "{" (key ":" expression ("," key ":" expression)*)? "}" | "(" expression ")"
               | expressionLiteral | reference
               | qualifiedName "(" (expression ("," expression)*)? ")"
reference     := part ("." part)*
part          := identifier ("[" expression "]")*
qualifiedName := identifier ("." identifier)*
```
-/

namespace Workflow.Phrase

open Grammar

/-! ## Productions -/

/-- A token of a class. -/
abbrev Tok (k : Terminal) := { t : Token // k.accepts t.lexeme = true }

/-- A given sign. -/
abbrev Sign (s : Symbol) := Tok (.symbol s)

/-- A given reserved word. -/
abbrev Word (w : Keyword) := Tok (.keyword w)

theorem lexeme_sign {s : Symbol} (t : Sign s) : t.val.lexeme = .symbol s :=
  of_decide_eq_true t.property

theorem lexeme_word {w : Keyword} (t : Word w) : t.val.lexeme = .keyword w :=
  of_decide_eq_true t.property

/-- A token that is an expression literal. -/
abbrev ExpressionToken := { t : Token // ∃ text, t.lexeme = .expression text }

inductive QualifiedName where
  | last (name : Tok .identifier)
  | dotted (name : Tok .identifier) (dot : Sign .dot) (rest : QualifiedName)

mutual

inductive Expression where
  | mk (head : Term) (tail : Operations)

inductive Operations where
  | nil
  | cons (operator : Tok .binaryOperator) (term : Term) (rest : Operations)

inductive Term where
  | plain (operand : Operand)
  | unary (operator : Tok .unaryOperator) (operand : Operand)

inductive Operand where
  | literal (value : Tok .literal)
  | array (start : Sign .lbracket) (items : ArgumentsUpTo .rbracket)
  | object (start : Sign .lbrace) (entries : EntriesUpTo)
  | paren (start : Sign .lparen) (inner : Expression) (stop : Sign .rparen)
  | expression (token : ExpressionToken)
  | reference (reference : Reference)
  | call (name : QualifiedName) (start : Sign .lparen) (args : ArgumentsUpTo .rparen)

inductive Reference where
  | last (part : Part)
  | dotted (part : Part) (dot : Sign .dot) (rest : Reference)

inductive Part where
  | mk (name : Tok .identifier) (subscripts : Subscripts)

inductive Subscripts where
  | nil
  | cons (start : Sign .lbracket) (index : Expression) (stop : Sign .rbracket) (rest : Subscripts)

inductive Arguments where
  | last (value : Expression)
  | cons (value : Expression) (comma : Sign .comma) (rest : Arguments)

/-- Arguments, perhaps none, and the sign that closes them. -/
inductive ArgumentsUpTo : Symbol → Type where
  | none {close : Symbol} (stop : Sign close) : ArgumentsUpTo close
  | some {close : Symbol} (args : Arguments) (stop : Sign close) : ArgumentsUpTo close

inductive Entries where
  | last (key : Tok .objectKey) (colon : Sign .colon) (value : Expression)
  | cons (key : Tok .objectKey) (colon : Sign .colon) (value : Expression) (comma : Sign .comma)
      (rest : Entries)

/-- Entries, perhaps none, and the brace that closes them. -/
inductive EntriesUpTo where
  | none (stop : Sign .rbrace)
  | some (entries : Entries) (stop : Sign .rbrace)

end

inductive NamedArguments where
  | last (name : Tok .identifier) (assign : Sign .assign) (value : Expression)
  | cons (name : Tok .identifier) (assign : Sign .assign) (value : Expression)
      (comma : Sign .comma) (rest : NamedArguments)

/-- Named arguments and the parenthesis that closes them. -/
inductive NamedUpTo where
  | mk (args : NamedArguments) (stop : Sign .rparen)

/-- Named arguments between parentheses. -/
inductive Clause where
  | mk (start : Sign .lparen) (args : NamedUpTo)

/-- The arguments of a call whose result is assigned. -/
inductive NamedOrNone where
  | none (stop : Sign .rparen)
  | some (args : NamedUpTo)

/-- The arguments of a call statement. -/
inductive CallArguments where
  | named (args : NamedUpTo)
  | positional (args : ArgumentsUpTo .rparen)

inductive Options where
  | none
  | some (clause : Clause)

inductive Retry where
  | none
  | some (retry : Word .retry) (clause : Clause)

mutual

inductive Statement where
  | assignCall (target : Reference) (assign : Sign .assign) (name : QualifiedName)
      (start : Sign .lparen) (args : NamedOrNone)
  | assign (target : Reference) (assign : Sign .assign) (value : Expression)
  | call (name : QualifiedName) (start : Sign .lparen) (args : CallArguments)
  | conditional (if_ : Word .if) (first : Condition) (others : ElseClauses)
  | loop (loop : Loop)
  | parallel (parallel : Word .parallel) (options : Options) (body : ParallelBody)
  | attempt (try_ : Word .try) (body : Block) (retry : Retry) (handler : Handler)
  | throw (throw_ : Word .throw) (value : Expression)
  | break (break_ : Word .break)
  | continue (continue_ : Word .continue)
  | returnNothing (return_ : Word .return)
  | returnValue (return_ : Word .return) (value : Expression)

inductive Statements where
  | nil
  | cons (first : Statement) (rest : Statements)

inductive Block where
  | mk (start : Sign .lbrace) (statements : Statements) (stop : Sign .rbrace)

inductive Condition where
  | mk (start : Sign .lparen) (test : Expression) (stop : Sign .rparen) (body : Block)

inductive ElseClauses where
  | none
  | elseIf (else_ : Word .else) (if_ : Word .if) (condition : Condition) (rest : ElseClauses)
  | last (else_ : Word .else) (body : Block)

inductive Loop where
  | mk (for_ : Word .for) (start : Sign .lparen) (name : Tok .identifier) (in_ : Word .in)
      (items : Expression) (stop : Sign .rparen) (body : Block)

inductive ParallelBody where
  | loop (loop : Loop)
  | branches (branch : Word .branch) (body : Block) (rest : Branches)

inductive Branches where
  | nil
  | cons (branch : Word .branch) (body : Block) (rest : Branches)

inductive Handler where
  | none
  | some (catch_ : Word .catch) (start : Sign .lparen) (name : Tok .identifier)
      (stop : Sign .rparen) (body : Block)

end

inductive Parameter where
  | plain (name : Tok .identifier)
  | default (name : Tok .identifier) (assign : Sign .assign) (value : Tok .literal)

inductive Parameters where
  | last (parameter : Parameter)
  | cons (parameter : Parameter) (comma : Sign .comma) (rest : Parameters)

inductive ParametersUpTo where
  | none (stop : Sign .rparen)
  | some (parameters : Parameters) (stop : Sign .rparen)

inductive Definition where
  | mk (workflow : Word .workflow) (name : Tok .identifier) (start : Sign .lparen)
      (parameters : ParametersUpTo) (body : Block)

/-- A program is a row of definitions. -/
abbrev Program := List Definition

/-! ## The tokens of a phrase -/

def QualifiedName.tokens : QualifiedName → List Token
  | .last name => [name.val]
  | .dotted name dot rest => name.val :: dot.val :: rest.tokens

mutual

def Expression.tokens : Expression → List Token
  | .mk head tail => head.tokens ++ tail.tokens

def Operations.tokens : Operations → List Token
  | .nil => []
  | .cons operator term rest => operator.val :: (term.tokens ++ rest.tokens)

def Term.tokens : Term → List Token
  | .plain operand => operand.tokens
  | .unary operator operand => operator.val :: operand.tokens

def Operand.tokens : Operand → List Token
  | .literal value => [value.val]
  | .array start items => start.val :: items.tokens
  | .object start entries => start.val :: entries.tokens
  | .paren start inner stop => start.val :: (inner.tokens ++ [stop.val])
  | .expression token => [token.val]
  | .reference reference => reference.tokens
  | .call name start args => name.tokens ++ start.val :: args.tokens

def Reference.tokens : Reference → List Token
  | .last part => part.tokens
  | .dotted part dot rest => part.tokens ++ dot.val :: rest.tokens

def Part.tokens : Part → List Token
  | .mk name subscripts => name.val :: subscripts.tokens

def Subscripts.tokens : Subscripts → List Token
  | .nil => []
  | .cons start index stop rest => start.val :: (index.tokens ++ stop.val :: rest.tokens)

def Arguments.tokens : Arguments → List Token
  | .last value => value.tokens
  | .cons value comma rest => value.tokens ++ comma.val :: rest.tokens

def ArgumentsUpTo.tokens {close : Symbol} : ArgumentsUpTo close → List Token
  | .none stop => [stop.val]
  | .some args stop => args.tokens ++ [stop.val]

def Entries.tokens : Entries → List Token
  | .last key colon value => key.val :: colon.val :: value.tokens
  | .cons key colon value comma rest =>
    key.val :: colon.val :: (value.tokens ++ comma.val :: rest.tokens)

def EntriesUpTo.tokens : EntriesUpTo → List Token
  | .none stop => [stop.val]
  | .some entries stop => entries.tokens ++ [stop.val]

end

def NamedArguments.tokens : NamedArguments → List Token
  | .last name assign value => name.val :: assign.val :: value.tokens
  | .cons name assign value comma rest =>
    name.val :: assign.val :: (value.tokens ++ comma.val :: rest.tokens)

def NamedUpTo.tokens : NamedUpTo → List Token
  | .mk args stop => args.tokens ++ [stop.val]

def Clause.tokens : Clause → List Token
  | .mk start args => start.val :: args.tokens

def NamedOrNone.tokens : NamedOrNone → List Token
  | .none stop => [stop.val]
  | .some args => args.tokens

def CallArguments.tokens : CallArguments → List Token
  | .named args => args.tokens
  | .positional args => args.tokens

def Options.tokens : Options → List Token
  | .none => []
  | .some clause => clause.tokens

def Retry.tokens : Retry → List Token
  | .none => []
  | .some retry clause => retry.val :: clause.tokens

mutual

def Statement.tokens : Statement → List Token
  | .assignCall target assign name start args =>
    target.tokens ++ assign.val :: (name.tokens ++ start.val :: args.tokens)
  | .assign target assign value => target.tokens ++ assign.val :: value.tokens
  | .call name start args => name.tokens ++ start.val :: args.tokens
  | .conditional if_ first others => if_.val :: (first.tokens ++ others.tokens)
  | .loop loop => loop.tokens
  | .parallel parallel options body => parallel.val :: (options.tokens ++ body.tokens)
  | .attempt try_ body retry handler =>
    try_.val :: (body.tokens ++ (retry.tokens ++ handler.tokens))
  | .throw throw_ value => throw_.val :: value.tokens
  | .break break_ => [break_.val]
  | .continue continue_ => [continue_.val]
  | .returnNothing return_ => [return_.val]
  | .returnValue return_ value => return_.val :: value.tokens

def Statements.tokens : Statements → List Token
  | .nil => []
  | .cons first rest => first.tokens ++ rest.tokens

def Block.tokens : Block → List Token
  | .mk start statements stop => start.val :: (statements.tokens ++ [stop.val])

def Condition.tokens : Condition → List Token
  | .mk start test stop body => start.val :: (test.tokens ++ stop.val :: body.tokens)

def ElseClauses.tokens : ElseClauses → List Token
  | .none => []
  | .elseIf else_ if_ condition rest => else_.val :: if_.val :: (condition.tokens ++ rest.tokens)
  | .last else_ body => else_.val :: body.tokens

def Loop.tokens : Loop → List Token
  | .mk for_ start name in_ items stop body =>
    for_.val :: start.val :: name.val :: in_.val :: (items.tokens ++ stop.val :: body.tokens)

def ParallelBody.tokens : ParallelBody → List Token
  | .loop loop => loop.tokens
  | .branches branch body rest => branch.val :: (body.tokens ++ rest.tokens)

def Branches.tokens : Branches → List Token
  | .nil => []
  | .cons branch body rest => branch.val :: (body.tokens ++ rest.tokens)

def Handler.tokens : Handler → List Token
  | .none => []
  | .some catch_ start name stop body =>
    catch_.val :: start.val :: name.val :: stop.val :: body.tokens

end

def Parameter.tokens : Parameter → List Token
  | .plain name => [name.val]
  | .default name assign value => [name.val, assign.val, value.val]

def Parameters.tokens : Parameters → List Token
  | .last parameter => parameter.tokens
  | .cons parameter comma rest => parameter.tokens ++ comma.val :: rest.tokens

def ParametersUpTo.tokens : ParametersUpTo → List Token
  | .none stop => [stop.val]
  | .some parameters stop => parameters.tokens ++ [stop.val]

def Definition.tokens : Definition → List Token
  | .mk workflow name start parameters body =>
    workflow.val :: name.val :: start.val :: (parameters.tokens ++ body.tokens)

def Program.tokens (p : Program) : List Token := p.flatMap Definition.tokens

/-! ## The tree of a phrase

A phrase that has no node of its own in its parent's tree gives the children it contributes. -/

/-- The position of the first token. -/
abbrev place (tokens : List Token) : Position := here .nowhere tokens

def QualifiedName.names : QualifiedName → List Token
  | .last name => [name.val]
  | .dotted name _ rest => name.val :: rest.names

def QualifiedName.node (name : QualifiedName) : Node :=
  .mk .qualifiedName (place name.tokens) (name.names.map (.token .identifier))

def literalNode (value : Tok .literal) : Node :=
  .mk .literal value.val.position [.token .value value.val]

mutual

def Expression.node : Expression → Node
  | .mk head tail => .mk .expression (place head.tokens) (.node .term head.node :: tail.children)

def Operations.children : Operations → List Child
  | .nil => []
  | .cons operator term rest =>
    .token .binaryOperator operator.val :: .node .term term.node :: rest.children

def Term.node : Term → Node
  | .plain operand => .mk .term (place operand.tokens) operand.children
  | .unary operator operand =>
    .mk .term operator.val.position (.token .unaryOperator operator.val :: operand.children)

def Operand.children : Operand → List Child
  | .literal value => [.node .literal (literalNode value)]
  | .array start items =>
    [.node .array (.mk .array start.val.position (items.nodes.map (.node .expression)))]
  | .object start entries => [.node .object (.mk .object start.val.position entries.children)]
  | .paren start inner _ => [.token .lparen start.val, .node .expression inner.node]
  | .expression token => [.token .expressionLiteral token.val]
  | .reference reference =>
    [.node .variableReference (referenceNode (place reference.tokens) reference.nodes)]
  | .call name _ args =>
    [.node .callExpression (.mk .callExpression (place name.tokens)
      (.node .qualifiedName name.node :: argumentChild (place args.tokens) args.nodes))]

def Reference.nodes : Reference → List Node
  | .last part => [part.node]
  | .dotted part _ rest => part.node :: rest.nodes

def Part.node : Part → Node
  | .mk name subscripts =>
    .mk .subscriptReference name.val.position
      (.token .identifier name.val :: subscripts.nodes.map (.node .subscript))

def Subscripts.nodes : Subscripts → List Node
  | .nil => []
  | .cons _ index _ rest => index.node :: rest.nodes

def Arguments.nodes : Arguments → List Node
  | .last value => [value.node]
  | .cons value _ rest => value.node :: rest.nodes

def ArgumentsUpTo.nodes {close : Symbol} : ArgumentsUpTo close → List Node
  | .none _ => []
  | .some args _ => args.nodes

def Entries.children : Entries → List Child
  | .last key _ value => [.token .key key.val, .node .expression value.node]
  | .cons key _ value _ rest => .token .key key.val :: .node .expression value.node :: rest.children

def EntriesUpTo.children : EntriesUpTo → List Child
  | .none _ => []
  | .some entries _ => entries.children

end

def Reference.node (r : Reference) : Node := referenceNode (place r.tokens) r.nodes

def NamedArguments.children : NamedArguments → List Child
  | .last name _ value => [.token .identifier name.val, .node .expression value.node]
  | .cons name _ value _ rest =>
    .token .identifier name.val :: .node .expression value.node :: rest.children

def NamedUpTo.child : NamedUpTo → Child
  | .mk args _ => .node .actualNamedParameterList
      (.mk .actualNamedParameterList (place args.tokens) args.children)

def Clause.child : Clause → Child
  | .mk _ args => args.child

def NamedOrNone.children : NamedOrNone → List Child
  | .none _ => []
  | .some args => [args.child]

def CallArguments.children : CallArguments → List Child
  | .named args => [args.child]
  | .positional args => argumentChild (place args.tokens) args.nodes

def Options.children : Options → List Child
  | .none => []
  | .some clause => [clause.child]

def Retry.children : Retry → List Child
  | .none => []
  | .some retry clause => [.token .retry retry.val, clause.child]

mutual

def Statement.node : Statement → Node
  | .assignCall target assign name _ args =>
    .mk .callOrAssignment (place target.tokens)
      [.node .variableReference target.node, .token .assign assign.val,
       .node .namedCall (.mk .namedCall (place name.tokens)
         (.node .qualifiedName name.node :: args.children))]
  | .assign target assign value =>
    .mk .callOrAssignment (place target.tokens)
      [.node .variableReference target.node, .token .assign assign.val,
       .node .expression value.node]
  | .call name _ args =>
    .mk .callOrAssignment (place name.tokens) (.node .qualifiedName name.node :: args.children)
  | .conditional if_ first others =>
    .mk .ifStatement if_.val.position (.token .if if_.val :: (first.children ++ others.children))
  | .loop loop => loop.node
  | .parallel parallel options body =>
    .mk .parallelStatement parallel.val.position
      (.token .parallel parallel.val :: (options.children ++ body.children))
  | .attempt try_ body retry handler =>
    .mk .tryStatement try_.val.position
      (.token .try try_.val :: .node .tryBlock body.node :: (retry.children ++ handler.children))
  | .throw throw_ value =>
    .mk .throwStatement throw_.val.position
      [.token .throw throw_.val, .node .expression value.node]
  | .break break_ => .mk .breakStatement break_.val.position [.token .break break_.val]
  | .continue continue_ =>
    .mk .continueStatement continue_.val.position [.token .continue continue_.val]
  | .returnNothing return_ =>
    .mk .returnStatement return_.val.position [.token .return return_.val]
  | .returnValue return_ value =>
    .mk .returnStatement return_.val.position
      [.token .return return_.val, .node .expression value.node]

def Statements.nodes : Statements → List Node
  | .nil => []
  | .cons first rest => first.node :: rest.nodes

def Block.node : Block → Node
  | .mk _ statements stop =>
    .mk .statementBlock (place (statements.tokens ++ [stop.val]))
      (statements.nodes.map (.node .statement))

def Condition.children : Condition → List Child
  | .mk _ test _ body => [.node .expression test.node, .node .statementBlock body.node]

def ElseClauses.children : ElseClauses → List Child
  | .none => []
  | .elseIf else_ if_ condition rest =>
    .token .else else_.val :: .token .if if_.val :: (condition.children ++ rest.children)
  | .last else_ body => [.token .else else_.val, .node .statementBlock body.node]

def Loop.node : Loop → Node
  | .mk for_ _ name _ items _ body =>
    .mk .forStatement for_.val.position [.token .for for_.val, .token .identifier name.val,
      .node .expression items.node, .node .statementBlock body.node]

def ParallelBody.children : ParallelBody → List Child
  | .loop loop => [.node .forStatement loop.node]
  | .branches branch body rest =>
    .token .branch branch.val :: .node .statementBlock body.node :: rest.children

def Branches.children : Branches → List Child
  | .nil => []
  | .cons branch body rest =>
    .token .branch branch.val :: .node .statementBlock body.node :: rest.children

def Handler.children : Handler → List Child
  | .none => []
  | .some catch_ _ name _ body =>
    [.token .catch catch_.val, .token .identifier name.val, .node .catchBlock body.node]

end

def Parameter.node : Parameter → Node
  | .plain name => .mk .formalParameter name.val.position [.token .identifier name.val]
  | .default name _ value =>
    .mk .formalParameter name.val.position
      [.token .identifier name.val, .node .literal (literalNode value)]

def Parameters.nodes : Parameters → List Node
  | .last parameter => [parameter.node]
  | .cons parameter _ rest => parameter.node :: rest.nodes

def ParametersUpTo.nodes : ParametersUpTo → List Node
  | .none _ => []
  | .some parameters _ => parameters.nodes

def ParametersUpTo.node (list : ParametersUpTo) : Node :=
  .mk .formalParameterList (place list.tokens) (list.nodes.map (.node .formalParameter))

def Definition.node : Definition → Node
  | .mk workflow name _ parameters body =>
    .mk .subworkflowDefinition workflow.val.position
      [.token .workflow workflow.val, .token .identifier name.val,
       .node .formalParameterList parameters.node, .node .statementBlock body.node]

/-- The tree of a program that ends at `stop`. -/
def Program.node (stop : Position) (p : Program) : Node :=
  .mk .program (here stop p.tokens) ((p.map Definition.node).map (.node .subworkflowDefinition))

/-! ## Disambiguation -/

/-- Whether an expression is only a call without arguments. -/
def Expression.isEmptyCall : Expression → Bool
  | .mk (.plain (.call _ _ (.none _))) .nil => true
  | _ => false

/-- A token with which some expression starts. -/
def CanStartExpression (t : Token) : Prop :=
  ∃ e : Expression, e.tokens.head? = some t

mutual

/-- A statement that the token `next` follows is what the grammar settles on: a `return` has a
value if the next token can start one, an empty call behind `=` is a call statement if no operator
follows it and an expression if one does, and a `try` has a `retry` or a `catch`. -/
def Statement.Settled (next : Option Token) : Statement → Prop
  | .assignCall _ _ _ _ (.none _) =>
    ∀ t ∈ next, Terminal.binaryOperator.accepts t.lexeme = false
  | .assign _ _ value => value.isEmptyCall = false
  | .conditional _ first others => first.Settled ∧ others.Settled
  | .loop loop => loop.Settled
  | .parallel _ _ body => body.Settled
  | .attempt _ body retry handler =>
    body.Settled ∧ (retry ≠ .none ∨ handler ≠ .none) ∧ handler.Settled
  | .returnNothing _ => ∀ t ∈ next, ¬ CanStartExpression t
  | _ => True

def Statements.Settled (next : Option Token) : Statements → Prop
  | .nil => True
  | .cons first rest => first.Settled (rest.tokens.head?.or next) ∧ rest.Settled next

def Block.Settled : Block → Prop
  | .mk _ statements stop => statements.Settled (some stop.val)

def Condition.Settled : Condition → Prop
  | .mk _ _ _ body => body.Settled

def ElseClauses.Settled : ElseClauses → Prop
  | .none => True
  | .elseIf _ _ condition rest => condition.Settled ∧ rest.Settled
  | .last _ body => body.Settled

def Loop.Settled : Loop → Prop
  | .mk _ _ _ _ _ _ body => body.Settled

def ParallelBody.Settled : ParallelBody → Prop
  | .loop loop => loop.Settled
  | .branches _ body rest => body.Settled ∧ rest.Settled

def Branches.Settled : Branches → Prop
  | .nil => True
  | .cons _ body rest => body.Settled ∧ rest.Settled

def Handler.Settled : Handler → Prop
  | .none => True
  | .some _ _ _ _ body => body.Settled

end

def Definition.Settled : Definition → Prop
  | .mk _ _ _ _ body => body.Settled

def Program.Settled (p : Program) : Prop := ∀ d ∈ p, d.Settled

end Workflow.Phrase
