import Mathlib.Data.List.Forall2
import Workflow.Proofs.Grammar.Opening

/-!
# Writing trees

A tree keeps the tokens that matter and drops punctuation that the grammar fixes. `Node.write` puts
it back: for each rule a layout says in which order the slots of a node stand and which punctuation
stands between them. A layout sees the children by slot only. Writing the tree of a phrase spells
the tokens of the phrase.
-/

namespace Workflow

/-- What is written for a token: the token itself, or the lexeme that the grammar fixes. -/
inductive Piece where
  | kept (token : Token)
  | fixed (lexeme : Lexeme)

/-- A piece stands for the token it keeps, or for any token with its lexeme. -/
def Piece.Stands : Piece → Token → Prop
  | .kept t, u => u = t
  | .fixed l, u => u.lexeme = l

/-- Pieces spell a row of tokens if they stand for them all by all. -/
def Spells : List Piece → List Token → Prop := List.Forall₂ Piece.Stands

/-- Pieces between two signs. -/
def enclosed (first last : Symbol) (inner : List Piece) : List Piece :=
  .fixed (.symbol first) :: (inner ++ [.fixed (.symbol last)])

/-- Rows of pieces with a sign between neighbours. -/
def separated (sign : Symbol) (rows : List (List Piece)) : List Piece :=
  List.intercalate [.fixed (.symbol sign)] rows

/-- Pairs of rows with a sign inside each pair and a comma between pairs. -/
def pairs (sign : Symbol) (keys values : List (List Piece)) : List Piece :=
  separated .comma (List.zipWith (fun k v => k ++ .fixed (.symbol sign) :: v) keys values)

/-- The clauses of an `if`, each with what stands in front of its `if` or its block. -/
def clauses : (leads ifs tests blocks : List (List Piece)) → List Piece
  | lead :: leads, if_ :: ifs, test :: tests, block :: blocks =>
    lead ++ if_ ++ enclosed .lparen .rparen test ++ enclosed .lbrace .rbrace block ++
      clauses leads ifs tests blocks
  | lead :: _, [], _, block :: _ => lead ++ enclosed .lbrace .rbrace block
  | _, _, _, _ => []

/-- How a node of a rule is written from what its slots hold. -/
def Rule.layout (rule : Rule) (slot : Slot → List (List Piece)) : List Piece :=
  let all (s : Slot) : List Piece := (slot s).flatten
  let braced (s : Slot) : List Piece := (slot s).flatMap (enclosed .lbrace .rbrace)
  match rule with
  | .program => all .subworkflowDefinition
  | .subworkflowDefinition =>
    all .workflow ++ all .identifier ++ enclosed .lparen .rparen (all .formalParameterList) ++
      braced .statementBlock
  | .formalParameterList => separated .comma (slot .formalParameter)
  | .formalParameter =>
    all .identifier ++ (slot .literal).flatMap (.fixed (.symbol .assign) :: ·)
  | .statementBlock => all .statement
  | .callOrAssignment =>
    all .variableReference ++ all .assign ++ all .namedCall ++ all .expression ++
      (slot .qualifiedName).flatMap (· ++ enclosed .lparen .rparen
        (all .actualParameterList ++ all .actualNamedParameterList))
  | .namedCall =>
    all .qualifiedName ++ enclosed .lparen .rparen (all .actualNamedParameterList)
  | .ifStatement =>
    clauses ([] :: slot .else) (slot .if) (slot .expression) (slot .statementBlock)
  | .forStatement =>
    all .for ++ enclosed .lparen .rparen
      (all .identifier ++ .fixed (.keyword .in) :: all .expression) ++ braced .statementBlock
  | .parallelStatement =>
    all .parallel ++ (slot .actualNamedParameterList).flatMap (enclosed .lparen .rparen) ++
      all .forStatement ++
      (List.zipWith (fun branch block => branch ++ enclosed .lbrace .rbrace block) (slot .branch)
        (slot .statementBlock)).flatten
  | .tryStatement =>
    all .try ++ braced .tryBlock ++ all .retry ++
      (slot .actualNamedParameterList).flatMap (enclosed .lparen .rparen) ++ all .catch ++
      (slot .identifier).flatMap (enclosed .lparen .rparen) ++ braced .catchBlock
  | .throwStatement => all .throw ++ all .expression
  | .breakStatement => all .break
  | .continueStatement => all .continue
  | .returnStatement => all .return ++ all .expression
  | .expression =>
    ((slot .term).take 1).flatten ++
      (List.zipWith (· ++ ·) (slot .binaryOperator) ((slot .term).drop 1)).flatten
  | .term =>
    all .unaryOperator ++ all .literal ++ all .array ++ all .object ++
      (slot .lparen).flatMap (fun start => start ++ all .expression ++ [.fixed (.symbol .rparen)])
      ++ all .expressionLiteral ++ all .variableReference ++ all .callExpression
  | .literal => all .value
  | .array => enclosed .lbracket .rbracket (separated .comma (slot .expression))
  | .object => enclosed .lbrace .rbrace (pairs .colon (slot .key) (slot .expression))
  | .callExpression =>
    all .qualifiedName ++ enclosed .lparen .rparen (all .actualParameterList)
  | .qualifiedName => separated .dot (slot .identifier)
  | .variableReference => separated .dot (slot .subscriptReference)
  | .subscriptReference =>
    all .identifier ++ (slot .subscript).flatMap (enclosed .lbracket .rbracket)
  | .actualParameterList => separated .comma (slot .expression)
  | .actualNamedParameterList => pairs .assign (slot .identifier) (slot .expression)

/-- The rows of pieces in a slot. -/
def pick (written : List (Slot × List Piece)) (slot : Slot) : List (List Piece) :=
  written.filterMap fun w => if w.1 = slot then some w.2 else none

mutual

/-- A tree written back as tokens and fixed punctuation. -/
def Node.write : Node → List Piece
  | .mk rule _ children => rule.layout (pick (Child.writeAll children))

/-- The children of a node, each written, with its slot. -/
def Child.writeAll : List Child → List (Slot × List Piece)
  | [] => []
  | child :: rest => child.write :: Child.writeAll rest

/-- A child written, with its slot. -/
def Child.write : Child → Slot × List Piece
  | .node slot n => (slot, n.write)
  | .token slot t => (slot, [.kept t])

end

section

variable {slot s : Slot} {p : List Piece} {written more : List (Slot × List Piece)}

@[simp] theorem pick_nil : pick [] slot = [] := rfl

@[simp] theorem pick_cons_self : pick ((slot, p) :: written) slot = p :: pick written slot := by
  simp [pick]

@[simp] theorem pick_cons_of_ne (h : s ≠ slot) : pick ((s, p) :: written) slot = pick written slot := by
  simp [pick, h]

@[simp] theorem pick_append :
    pick (written ++ more) slot = pick written slot ++ pick more slot := by
  simp [pick]

@[simp] theorem writeAll_nil : Child.writeAll [] = [] := by rw [Child.writeAll]

@[simp] theorem writeAll_node (n : Node) (rest : List Child) :
    Child.writeAll (.node slot n :: rest) = (slot, n.write) :: Child.writeAll rest := by
  rw [Child.writeAll, Child.write]

@[simp] theorem writeAll_token (t : Token) (rest : List Child) :
    Child.writeAll (.token slot t :: rest) = (slot, [.kept t]) :: Child.writeAll rest := by
  rw [Child.writeAll, Child.write]

@[simp] theorem writeAll_append (children others : List Child) :
    Child.writeAll (children ++ others) = Child.writeAll children ++ Child.writeAll others := by
  induction children with
  | nil => simp
  | cons child rest ih => rw [List.cons_append, Child.writeAll, Child.writeAll, ih]; rfl

@[simp] theorem pick_nodes (nodes : List Node) :
    pick (Child.writeAll (nodes.map (.node slot))) slot = nodes.map Node.write := by
  induction nodes with
  | nil => simp
  | cons n rest ih => simp [ih]

@[simp] theorem pick_nodes_of_ne (h : s ≠ slot) (nodes : List Node) :
    pick (Child.writeAll (nodes.map (.node s))) slot = [] := by
  induction nodes with
  | nil => simp
  | cons n rest ih => simp [ih, pick_cons_of_ne h]

@[simp] theorem pick_tokens (tokens : List Token) :
    pick (Child.writeAll (tokens.map (.token slot))) slot = tokens.map fun t => [.kept t] := by
  induction tokens with
  | nil => simp
  | cons t rest ih => simp [ih]

end

namespace Phrase

open Grammar

section

variable {p p' : List Piece} {ts ts' : List Token}

theorem spells_nil : Spells [] [] := .nil

theorem spells_append (h : Spells p ts) (h' : Spells p' ts') : Spells (p ++ p') (ts ++ ts') :=
  List.rel_append h h'

theorem spells_kept (t : Token) (h : Spells p ts) : Spells (.kept t :: p) (t :: ts) :=
  .cons rfl h

theorem spells_sign {s : Symbol} (t : Sign s) (h : Spells p ts) :
    Spells (.fixed (.symbol s) :: p) (t.val :: ts) :=
  .cons (lexeme_sign t) h

theorem spells_word {w : Keyword} (t : Word w) (h : Spells p ts) :
    Spells (.fixed (.keyword w) :: p) (t.val :: ts) :=
  .cons (lexeme_word t) h

theorem spells_enclosed {a b : Symbol} (first : Sign a) (last : Sign b) (h : Spells p ts) :
    Spells (enclosed a b p) (first.val :: (ts ++ [last.val])) :=
  spells_sign first (spells_append h (spells_sign last spells_nil))

@[simp] theorem separated_nil (s : Symbol) : separated s [] = [] := by
  simp [separated]

@[simp] theorem separated_singleton (s : Symbol) (row : List Piece) :
    separated s [row] = row := by
  simp [separated]

theorem separated_cons (s : Symbol) (row : List Piece) {rows : List (List Piece)}
    (h : rows ≠ []) :
    separated s (row :: rows) = row ++ .fixed (.symbol s) :: separated s rows := by
  cases rows with
  | nil => exact absurd rfl h
  | cons next rows => simp [separated, List.intercalate]

theorem pairs_cons (s : Symbol) (key value : List Piece) {keys values : List (List Piece)}
    (hkeys : keys ≠ []) (hvalues : values ≠ []) :
    pairs s (key :: keys) (value :: values) =
      key ++ .fixed (.symbol s) :: (value ++ .fixed (.symbol .comma) :: pairs s keys values) := by
  have h : List.zipWith (fun k v => k ++ .fixed (.symbol s) :: v) keys values ≠ [] := by
    simp [hkeys, hvalues]
  rw [pairs, List.zipWith_cons_cons, separated_cons .comma _ h, pairs, List.append_assoc,
    List.cons_append]

end

/-! ## Expressions -/

theorem QualifiedName.names_ne_nil (name : QualifiedName) : name.names ≠ [] := by
  cases name with
  | last name => simp [QualifiedName.names]
  | dotted name dot rest => simp [QualifiedName.names]

theorem QualifiedName.spells_names (name : QualifiedName) :
    Spells (separated .dot (name.names.map fun t => [.kept t])) name.tokens := by
  induction name with
  | last name => exact spells_kept name.val spells_nil
  | dotted name dot rest ih =>
    rw [QualifiedName.names, List.map_cons,
      separated_cons .dot _ (by simpa using rest.names_ne_nil)]
    exact spells_kept name.val (spells_sign dot ih)

theorem QualifiedName.spelled (name : QualifiedName) : Spells name.node.write name.tokens := by
  simpa [QualifiedName.node, Node.write, Rule.layout] using name.spells_names

theorem literalNode_spelled (value : Tok .literal) :
    Spells (literalNode value).write [value.val] := by
  simpa [literalNode, Node.write, Rule.layout] using spells_kept value.val spells_nil

theorem Reference.nodes_ne_nil (d : Reference) : d.nodes ≠ [] := by
  cases d with
  | last part => simp [Reference.nodes]
  | dotted part dot rest => simp [Reference.nodes]

theorem Arguments.nodes_ne_nil (d : Arguments) : d.nodes ≠ [] := by
  cases d with
  | last value => simp [Arguments.nodes]
  | cons value comma rest => simp [Arguments.nodes]

theorem Entries.pick_key_ne_nil (d : Entries) :
    pick (Child.writeAll d.children) .key ≠ [] := by
  cases d <;> simp [Entries.children]

theorem Entries.pick_expression_ne_nil (d : Entries) :
    pick (Child.writeAll d.children) .expression ≠ [] := by
  cases d <;> simp [Entries.children]

/-- The arguments of a call are written from their own node, if they have one. -/
theorem pick_argumentChild (position : Position) (args : List Node) :
    (pick (Child.writeAll (argumentChild position args)) .actualParameterList).flatten =
      separated .comma (args.map Node.write) := by
  cases args with
  | nil => simp [argumentChild]
  | cons n rest =>
    simp only [argumentChild, writeAll_node, writeAll_nil, pick_cons_self, pick_nil,
      List.flatten_cons, List.flatten_nil, List.append_nil]
    rw [Node.write, Rule.layout, pick_nodes]

@[simp] theorem pick_argumentChild_of_ne {slot : Slot} (h : Slot.actualParameterList ≠ slot)
    (position : Position) (args : List Node) :
    pick (Child.writeAll (argumentChild position args)) slot = [] := by
  cases args with
  | nil => simp [argumentChild]
  | cons n rest => simp [argumentChild, h]

theorem Operand.pick_unaryOperator (d : Operand) :
    pick (Child.writeAll d.children) .unaryOperator = [] := by
  cases d <;> simp [Operand.children]

/-- An operator is written in front of what the rest of its term writes. -/
theorem write_unary (position place : Position) (operator : Token) {children : List Child}
    (h : pick (Child.writeAll children) .unaryOperator = []) :
    (Node.mk .term position (.token .unaryOperator operator :: children)).write =
      .kept operator :: (Node.mk .term place children).write := by
  simp [Node.write, Rule.layout, h]

theorem write_reference (position : Position) (parts : List Node) :
    (referenceNode position parts).write = separated .dot (parts.map Node.write) := by
  simp [referenceNode, Node.write, Rule.layout]

mutual

theorem Expression.spelled (d : Expression) : Spells d.node.write d.tokens := by
  obtain ⟨head, tail⟩ := d
  have h := spells_append head.spelled tail.spelled
  simpa [Expression.node, Node.write, Rule.layout, Expression.tokens] using h

theorem Operations.spelled (d : Operations) :
    Spells (List.zipWith (· ++ ·) (pick (Child.writeAll d.children) .binaryOperator)
      (pick (Child.writeAll d.children) .term)).flatten d.tokens := by
  cases d with
  | nil => exact spells_nil
  | cons operator term rest =>
    have h := spells_kept operator.val (spells_append term.spelled rest.spelled)
    simpa [Operations.children, Operations.tokens] using h

theorem Term.spelled (d : Term) : Spells d.node.write d.tokens := by
  cases d with
  | plain operand => exact operand.spelled _
  | unary operator operand =>
    rw [Term.node, write_unary _ .nowhere operator.val operand.pick_unaryOperator]
    exact spells_kept operator.val (operand.spelled _)

/-- An operand is written from the children it gives to its term. -/
theorem Operand.spelled (d : Operand) (position : Position) :
    Spells (Node.mk .term position d.children).write d.tokens := by
  cases d with
  | literal value =>
    simpa [Operand.children, Operand.tokens, Node.write, Rule.layout] using literalNode_spelled value
  | array start items =>
    have h := spells_sign start items.spelled
    simpa [Operand.children, Operand.tokens, Node.write, Rule.layout, enclosed] using h
  | object start entries =>
    have h := spells_sign start entries.spelled
    simpa [Operand.children, Operand.tokens, Node.write, Rule.layout, enclosed] using h
  | paren start inner stop =>
    have h := spells_kept start.val (spells_append inner.spelled (spells_sign stop spells_nil))
    simpa [Operand.children, Operand.tokens, Node.write, Rule.layout] using h
  | expression token =>
    simpa [Operand.children, Operand.tokens, Node.write, Rule.layout] using spells_kept token.val spells_nil
  | reference reference =>
    simpa [Operand.children, Operand.tokens, Node.write, Rule.layout, write_reference] using reference.spelled
  | call name start args =>
    have h := spells_append name.spelled (spells_sign start args.spelled)
    simpa [Operand.children, Operand.tokens, Node.write, Rule.layout, enclosed,
      pick_argumentChild] using h

theorem Reference.spelled (d : Reference) :
    Spells (separated .dot (d.nodes.map Node.write)) d.tokens := by
  cases d with
  | last part => simpa [Reference.nodes, Reference.tokens] using part.spelled
  | dotted part dot rest =>
    rw [Reference.nodes, List.map_cons,
      separated_cons .dot _ (by simpa using rest.nodes_ne_nil)]
    exact spells_append part.spelled (spells_sign dot rest.spelled)

theorem Part.spelled (d : Part) : Spells d.node.write d.tokens := by
  obtain ⟨name, subscripts⟩ := d
  have h := spells_kept name.val subscripts.spelled
  simpa [Part.node, Part.tokens, Node.write, Rule.layout] using h

theorem Subscripts.spelled (d : Subscripts) :
    Spells ((d.nodes.map Node.write).flatMap (enclosed .lbracket .rbracket)) d.tokens := by
  cases d with
  | nil => exact spells_nil
  | cons start index stop rest =>
    have h := spells_append (spells_enclosed start stop index.spelled) rest.spelled
    simpa [Subscripts.nodes, Subscripts.tokens] using h

theorem Arguments.spelled (d : Arguments) :
    Spells (separated .comma (d.nodes.map Node.write)) d.tokens := by
  cases d with
  | last value => simpa [Arguments.nodes, Arguments.tokens] using value.spelled
  | cons value comma rest =>
    rw [Arguments.nodes, List.map_cons,
      separated_cons .comma _ (by simpa using rest.nodes_ne_nil)]
    exact spells_append value.spelled (spells_sign comma rest.spelled)

theorem ArgumentsUpTo.spelled {close : Symbol} (d : ArgumentsUpTo close) :
    Spells (separated .comma (d.nodes.map Node.write) ++ [.fixed (.symbol close)]) d.tokens := by
  cases d with
  | none stop => exact spells_sign stop spells_nil
  | some args stop => exact spells_append args.spelled (spells_sign stop spells_nil)

theorem Entries.spelled (d : Entries) :
    Spells (pairs .colon (pick (Child.writeAll d.children) .key)
      (pick (Child.writeAll d.children) .expression)) d.tokens := by
  cases d with
  | last key colon value =>
    have h := spells_kept key.val (spells_sign colon value.spelled)
    simpa [Entries.children, Entries.tokens, pairs] using h
  | cons key colon value comma rest =>
    have h := spells_kept key.val (spells_sign colon (spells_append value.spelled
      (spells_sign comma rest.spelled)))
    simpa [Entries.children, Entries.tokens, pairs_cons, rest.pick_key_ne_nil,
      rest.pick_expression_ne_nil] using h

theorem EntriesUpTo.spelled (d : EntriesUpTo) :
    Spells (pairs .colon (pick (Child.writeAll d.children) .key)
      (pick (Child.writeAll d.children) .expression) ++ [.fixed (.symbol .rbrace)]) d.tokens := by
  cases d with
  | none stop => exact spells_sign stop spells_nil
  | some entries stop => exact spells_append entries.spelled (spells_sign stop spells_nil)

end

/-! ## Statements -/

theorem NamedArguments.pick_identifier_ne_nil (d : NamedArguments) :
    pick (Child.writeAll d.children) .identifier ≠ [] := by
  cases d <;> simp [NamedArguments.children]

theorem NamedArguments.pick_expression_ne_nil (d : NamedArguments) :
    pick (Child.writeAll d.children) .expression ≠ [] := by
  cases d <;> simp [NamedArguments.children]

theorem NamedArguments.spelled (d : NamedArguments) :
    Spells (pairs .assign (pick (Child.writeAll d.children) .identifier)
      (pick (Child.writeAll d.children) .expression)) d.tokens := by
  induction d with
  | last name assign value =>
    have h := spells_kept name.val (spells_sign assign value.spelled)
    simpa [NamedArguments.children, NamedArguments.tokens, pairs] using h
  | cons name assign value comma rest ih =>
    have h := spells_kept name.val (spells_sign assign (spells_append value.spelled
      (spells_sign comma ih)))
    simpa [NamedArguments.children, NamedArguments.tokens, pairs_cons,
      rest.pick_identifier_ne_nil, rest.pick_expression_ne_nil] using h

/-- Named arguments stand in one slot of their statement. -/
theorem NamedUpTo.exists_node (d : NamedUpTo) :
    ∃ n : Node, d.child = .node .actualNamedParameterList n ∧
      Spells (n.write ++ [.fixed (.symbol .rparen)]) d.tokens := by
  obtain ⟨args, stop⟩ := d
  refine ⟨_, rfl, ?_⟩
  have h := spells_append args.spelled (spells_sign stop spells_nil)
  simpa [Node.write, Rule.layout, NamedUpTo.tokens] using h

theorem Clause.exists_node (d : Clause) :
    ∃ n : Node, d.child = .node .actualNamedParameterList n ∧
      Spells (enclosed .lparen .rparen n.write) d.tokens := by
  obtain ⟨start, args⟩ := d
  obtain ⟨n, hchild, hspelled⟩ := args.exists_node
  exact ⟨n, hchild, spells_sign start hspelled⟩

theorem NamedOrNone.spelled (d : NamedOrNone) :
    Spells ((pick (Child.writeAll d.children) .actualNamedParameterList).flatten ++
      [.fixed (.symbol .rparen)]) d.tokens := by
  cases d with
  | none stop => exact spells_sign stop spells_nil
  | some args =>
    obtain ⟨n, hchild, hspelled⟩ := args.exists_node
    simpa [NamedOrNone.children, NamedOrNone.tokens, hchild] using hspelled

theorem NamedOrNone.pick_of_ne {slot : Slot} (h : Slot.actualNamedParameterList ≠ slot)
    (d : NamedOrNone) : pick (Child.writeAll d.children) slot = [] := by
  cases d with
  | none stop => simp [NamedOrNone.children]
  | some args =>
    obtain ⟨n, hchild, _⟩ := args.exists_node
    simp [NamedOrNone.children, hchild, h]

theorem CallArguments.spelled (d : CallArguments) :
    Spells ((pick (Child.writeAll d.children) .actualParameterList).flatten ++
      (pick (Child.writeAll d.children) .actualNamedParameterList).flatten ++
      [.fixed (.symbol .rparen)]) d.tokens := by
  cases d with
  | named args =>
    obtain ⟨n, hchild, hspelled⟩ := args.exists_node
    simpa [CallArguments.children, CallArguments.tokens, hchild] using hspelled
  | positional args =>
    simpa [CallArguments.children, CallArguments.tokens, pick_argumentChild] using args.spelled

theorem CallArguments.pick_of_ne {slot : Slot} (h : Slot.actualNamedParameterList ≠ slot)
    (h' : Slot.actualParameterList ≠ slot) (d : CallArguments) :
    pick (Child.writeAll d.children) slot = [] := by
  cases d with
  | named args =>
    obtain ⟨n, hchild, _⟩ := args.exists_node
    simp [CallArguments.children, hchild, h]
  | positional args => simp [CallArguments.children, h']

theorem Reference.spelled_node (d : Reference) : Spells d.node.write d.tokens := by
  rw [Reference.node, write_reference]
  exact d.spelled

theorem Options.spelled (d : Options) :
    Spells ((pick (Child.writeAll d.children) .actualNamedParameterList).flatMap
      (enclosed .lparen .rparen)) d.tokens := by
  cases d with
  | none => exact spells_nil
  | some clause =>
    obtain ⟨n, hchild, hspelled⟩ := clause.exists_node
    simpa [Options.children, Options.tokens, hchild] using hspelled

theorem Options.pick_of_ne {slot : Slot} (h : Slot.actualNamedParameterList ≠ slot)
    (d : Options) : pick (Child.writeAll d.children) slot = [] := by
  cases d with
  | none => simp [Options.children]
  | some clause =>
    obtain ⟨n, hchild, _⟩ := clause.exists_node
    simp [Options.children, hchild, h]

theorem Retry.spelled (d : Retry) :
    Spells ((pick (Child.writeAll d.children) .retry).flatten ++
      (pick (Child.writeAll d.children) .actualNamedParameterList).flatMap
        (enclosed .lparen .rparen)) d.tokens := by
  cases d with
  | none => exact spells_nil
  | some retry clause =>
    obtain ⟨n, hchild, hspelled⟩ := clause.exists_node
    simpa [Retry.children, Retry.tokens, hchild] using spells_kept retry.val hspelled

theorem Retry.pick_of_ne {slot : Slot} (h : Slot.actualNamedParameterList ≠ slot)
    (h' : Slot.retry ≠ slot) (d : Retry) : pick (Child.writeAll d.children) slot = [] := by
  cases d with
  | none => simp [Retry.children]
  | some retry clause =>
    obtain ⟨n, hchild, _⟩ := clause.exists_node
    simp [Retry.children, hchild, h, h']

theorem Handler.pick_of_ne {slot : Slot} (h : Slot.catch ≠ slot) (h' : Slot.identifier ≠ slot)
    (h'' : Slot.catchBlock ≠ slot) (d : Handler) :
    pick (Child.writeAll d.children) slot = [] := by
  cases d with
  | none => simp [Handler.children]
  | some catch_ start name stop body => simp [Handler.children, h, h', h'']

theorem Branches.pick_of_ne {slot : Slot} (h : Slot.branch ≠ slot)
    (h' : Slot.statementBlock ≠ slot) :
    (d : Branches) → pick (Child.writeAll d.children) slot = []
  | .nil => by simp [Branches.children]
  | .cons branch body rest => by simp [Branches.children, h, h', rest.pick_of_ne h h']

theorem ParallelBody.pick_of_ne {slot : Slot} (h : Slot.branch ≠ slot)
    (h' : Slot.statementBlock ≠ slot) (h'' : Slot.forStatement ≠ slot) (d : ParallelBody) :
    pick (Child.writeAll d.children) slot = [] := by
  cases d with
  | loop loop => simp [ParallelBody.children, h'']
  | branches branch body rest =>
    simp [ParallelBody.children, h, h', rest.pick_of_ne h h']

mutual

theorem Statement.spelled (d : Statement) : Spells d.node.write d.tokens := by
  cases d with
  | assignCall target assign name start args =>
    have h := spells_append target.spelled_node (spells_kept assign.val
      (spells_append name.spelled (spells_sign start args.spelled)))
    simpa [Statement.node, Statement.tokens, Node.write, Rule.layout, enclosed,
      args.pick_of_ne] using h
  | assign target assign value =>
    have h := spells_append target.spelled_node (spells_kept assign.val value.spelled)
    simpa [Statement.node, Statement.tokens, Node.write, Rule.layout] using h
  | call name start args =>
    have h := spells_append name.spelled (spells_sign start args.spelled)
    simpa [Statement.node, Statement.tokens, Node.write, Rule.layout, enclosed,
      args.pick_of_ne] using h
  | conditional if_ first others =>
    obtain ⟨open_, test, close, body⟩ := first
    have h := spells_kept if_.val (spells_append (spells_enclosed open_ close test.spelled)
      (spells_append body.spelled others.spelled))
    simpa [Statement.node, Statement.tokens, Condition.children, Condition.tokens, Node.write,
      Rule.layout, clauses] using h
  | loop loop => exact loop.spelled
  | parallel parallel options body =>
    have h := spells_kept parallel.val (spells_append options.spelled body.spelled)
    simpa [Statement.node, Statement.tokens, Node.write, Rule.layout, options.pick_of_ne,
      body.pick_of_ne] using h
  | attempt try_ body retry handler =>
    have h := spells_kept try_.val (spells_append body.spelled
      (spells_append retry.spelled handler.spelled))
    simpa [Statement.node, Statement.tokens, Node.write, Rule.layout, retry.pick_of_ne,
      handler.pick_of_ne] using h
  | throw throw_ value =>
    have h := spells_kept throw_.val value.spelled
    simpa [Statement.node, Statement.tokens, Node.write, Rule.layout] using h
  | «break» break_ =>
    simpa [Statement.node, Statement.tokens, Node.write, Rule.layout] using
      spells_kept break_.val spells_nil
  | «continue» continue_ =>
    simpa [Statement.node, Statement.tokens, Node.write, Rule.layout] using
      spells_kept continue_.val spells_nil
  | returnNothing return_ =>
    simpa [Statement.node, Statement.tokens, Node.write, Rule.layout] using
      spells_kept return_.val spells_nil
  | returnValue return_ value =>
    have h := spells_kept return_.val value.spelled
    simpa [Statement.node, Statement.tokens, Node.write, Rule.layout] using h

theorem Statements.spelled (d : Statements) :
    Spells (d.nodes.map Node.write).flatten d.tokens := by
  cases d with
  | nil => exact spells_nil
  | cons first rest => exact spells_append first.spelled rest.spelled

theorem Block.spelled (d : Block) :
    Spells (enclosed .lbrace .rbrace d.node.write) d.tokens := by
  obtain ⟨start, statements, stop⟩ := d
  have h := spells_enclosed start stop statements.spelled
  simpa [Block.node, Block.tokens, Node.write, Rule.layout] using h

theorem ElseClauses.spelled (d : ElseClauses) :
    Spells (clauses (pick (Child.writeAll d.children) .else) (pick (Child.writeAll d.children) .if)
      (pick (Child.writeAll d.children) .expression)
      (pick (Child.writeAll d.children) .statementBlock)) d.tokens := by
  cases d with
  | none => exact spells_nil
  | elseIf else_ if_ condition rest =>
    obtain ⟨open_, test, close, body⟩ := condition
    have h := spells_kept else_.val (spells_kept if_.val (spells_append
      (spells_enclosed open_ close test.spelled) (spells_append body.spelled rest.spelled)))
    simpa [ElseClauses.children, ElseClauses.tokens, Condition.children, Condition.tokens,
      clauses] using h
  | last else_ body =>
    have h := spells_kept else_.val body.spelled
    simpa [ElseClauses.children, ElseClauses.tokens, clauses] using h

theorem Loop.spelled (d : Loop) : Spells d.node.write d.tokens := by
  obtain ⟨for_, start, name, in_, items, stop, body⟩ := d
  have h := spells_kept for_.val (spells_append (spells_enclosed start stop
    (spells_kept name.val (spells_word in_ items.spelled))) body.spelled)
  simpa [Loop.node, Loop.tokens, Node.write, Rule.layout] using h

theorem ParallelBody.spelled (d : ParallelBody) :
    Spells ((pick (Child.writeAll d.children) .forStatement).flatten ++
      (List.zipWith (fun branch block => branch ++ enclosed .lbrace .rbrace block)
        (pick (Child.writeAll d.children) .branch)
        (pick (Child.writeAll d.children) .statementBlock)).flatten) d.tokens := by
  cases d with
  | loop loop => simpa [ParallelBody.children, ParallelBody.tokens] using loop.spelled
  | branches branch body rest =>
    have h := spells_kept branch.val (spells_append body.spelled rest.spelled)
    simpa [ParallelBody.children, ParallelBody.tokens, rest.pick_of_ne] using h

theorem Branches.spelled (d : Branches) :
    Spells (List.zipWith (fun branch block => branch ++ enclosed .lbrace .rbrace block)
      (pick (Child.writeAll d.children) .branch)
      (pick (Child.writeAll d.children) .statementBlock)).flatten d.tokens := by
  cases d with
  | nil => exact spells_nil
  | cons branch body rest =>
    have h := spells_kept branch.val (spells_append body.spelled rest.spelled)
    simpa [Branches.children, Branches.tokens] using h

theorem Handler.spelled (d : Handler) :
    Spells ((pick (Child.writeAll d.children) .catch).flatten ++
      ((pick (Child.writeAll d.children) .identifier).flatMap (enclosed .lparen .rparen) ++
      (pick (Child.writeAll d.children) .catchBlock).flatMap (enclosed .lbrace .rbrace)))
      d.tokens := by
  cases d with
  | none => exact spells_nil
  | some catch_ start name stop body =>
    have h := spells_kept catch_.val (spells_append
      (spells_enclosed start stop (spells_kept name.val spells_nil)) body.spelled)
    simpa [Handler.children, Handler.tokens] using h

end

/-! ## Programs -/

theorem Parameter.spelled (d : Parameter) : Spells d.node.write d.tokens := by
  cases d with
  | plain name =>
    simpa [Parameter.node, Parameter.tokens, Node.write, Rule.layout] using
      spells_kept name.val spells_nil
  | default name assign value =>
    have h := spells_kept name.val (spells_sign assign (literalNode_spelled value))
    simpa [Parameter.node, Parameter.tokens, Node.write, Rule.layout] using h

theorem Parameters.nodes_ne_nil (d : Parameters) : d.nodes ≠ [] := by
  cases d with
  | last parameter => simp [Parameters.nodes]
  | cons parameter comma rest => simp [Parameters.nodes]

theorem Parameters.spelled (d : Parameters) :
    Spells (separated .comma (d.nodes.map Node.write)) d.tokens := by
  induction d with
  | last parameter => simpa [Parameters.nodes, Parameters.tokens] using parameter.spelled
  | cons parameter comma rest ih =>
    rw [Parameters.nodes, List.map_cons,
      separated_cons .comma _ (by simpa using rest.nodes_ne_nil)]
    exact spells_append parameter.spelled (spells_sign comma ih)

theorem ParametersUpTo.spelled (d : ParametersUpTo) :
    Spells (d.node.write ++ [.fixed (.symbol .rparen)]) d.tokens := by
  have hnode : d.node.write = separated .comma (d.nodes.map Node.write) := by
    simp [ParametersUpTo.node, Node.write, Rule.layout]
  rw [hnode]
  cases d with
  | none stop => exact spells_sign stop spells_nil
  | some parameters stop => exact spells_append parameters.spelled (spells_sign stop spells_nil)

theorem Definition.spelled (d : Definition) : Spells d.node.write d.tokens := by
  obtain ⟨workflow, name, start, list, body⟩ := d
  have h := spells_kept workflow.val (spells_kept name.val (spells_sign start
    (spells_append list.spelled body.spelled)))
  simpa [Definition.node, Definition.tokens, Node.write, Rule.layout, enclosed] using h

theorem Program.spelled_definitions (p : Program) :
    Spells ((p.map Definition.node).map Node.write).flatten p.tokens := by
  induction p with
  | nil => exact spells_nil
  | cons d rest ih => exact spells_append d.spelled ih

theorem Program.spelled (stop : Position) (p : Program) : Spells (p.node stop).write p.tokens := by
  simp only [Program.node, Node.write, Rule.layout, pick_nodes]
  exact p.spelled_definitions

end Phrase

end Workflow
