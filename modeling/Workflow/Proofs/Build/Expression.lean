import Workflow.Proofs.Build.Lookup
import Workflow.Proofs.Grammar.Phrase
import Workflow.Proofs.Outcome

/-!
# Expressions of phrases

What the tree of a phrase is built into, said by recursion on the phrase: no slot is looked up, and
only a subscript can be at fault.
-/

namespace Workflow.Phrase

open Grammar

/-- The operator that a token is between two terms. -/
def binaryOpOf (t : Tok .binaryOperator) : BinaryOp := t.val.lexeme.binaryOp?.get t.property

/-- The operator that a token is in front of an operand. -/
def unaryOpOf (t : Tok .unaryOperator) : UnaryOp := t.val.lexeme.unaryOp?.get t.property

/-- The value of a literal. -/
def primitiveOf (t : Tok .literal) : Primitive :=
  match t.val.lexeme with
  | .string s => .string s
  | .number x => .number x
  | .keyword .true => .bool true
  | .keyword .false => .bool false
  | _ => .null

/-- The text between the braces of an expression literal. -/
def expressionText (t : ExpressionToken) : String :=
  match t.val.lexeme with
  | .expression text => text
  | _ => ""

/-- The names with dots between them. -/
def QualifiedName.text (q : QualifiedName) : String := ".".intercalate (q.names.map (·.image))

mutual

def Expression.built : Expression → Except BuildError Expr
  | .mk head tail => do
    let head ← head.built
    let tail ← tail.built
    return .mk head tail

def Operations.built : Operations → Except BuildError (List (BinaryOp × Workflow.Term))
  | .nil => return []
  | .cons operator term rest => do
    let term ← term.built
    let others ← rest.built
    return (binaryOpOf operator, term) :: others

def Term.built : Term → Except BuildError Workflow.Term
  | .plain operand => do
    let operand ← operand.built
    return .mk none operand
  | .unary operator operand => do
    let operand ← operand.built
    return .mk (some (unaryOpOf operator)) operand

def Operand.built : Operand → Except BuildError Workflow.Operand
  | .literal value => return .primitive (primitiveOf value)
  | .array _ items => do
    let items ← items.built
    return .list items
  | .object _ entries => do
    let pairs ← entries.built
    return .map (Fields.ofPairs pairs)
  | .paren _ inner _ => do
    let inner ← inner.built
    return .paren inner
  | .expression token => return .reference (expressionText token)
  | .reference reference => do
    let parts ← reference.partTexts
    return .reference (".".intercalate parts)
  | .call name _ args => do
    let args ← args.built
    return .call name.text args

def Reference.partTexts : Reference → Except BuildError (List String)
  | .last part => do
    let text ← part.text
    return [text]
  | .dotted part _ rest => do
    let text ← part.text
    let others ← rest.partTexts
    return text :: others

def Part.text : Part → Except BuildError String
  | .mk name subscripts => do
    let subscripts ← subscripts.text
    return name.val.image ++ subscripts

def Subscripts.text : Subscripts → Except BuildError String
  | .nil => return ""
  | .cons _ index _ rest => do
    let e ← index.built
    let text ← subscriptText e index.node.position
    let others ← rest.text
    return "[" ++ text ++ "]" ++ others

def Arguments.built : Arguments → Except BuildError (List Expr)
  | .last value => do
    let e ← value.built
    return [e]
  | .cons value _ rest => do
    let e ← value.built
    let others ← rest.built
    return e :: others

def ArgumentsUpTo.built {close : Symbol} : ArgumentsUpTo close → Except BuildError (List Expr)
  | .none _ => return []
  | .some args _ => args.built

def Entries.built : Entries → Except BuildError (List (String × Expr))
  | .last key _ value => do
    let e ← value.built
    return [(objectKey key.val, e)]
  | .cons key _ value _ rest => do
    let e ← value.built
    let others ← rest.built
    return (objectKey key.val, e) :: others

def EntriesUpTo.built : EntriesUpTo → Except BuildError (List (String × Expr))
  | .none _ => return []
  | .some entries _ => entries.built

end

/-- The parts with dots between them. -/
def Reference.text (d : Reference) : Except BuildError String := do
  let parts ← d.partTexts
  return ".".intercalate parts

/-! ## Tokens -/

theorem ofToken_binaryOpOf (t : Tok .binaryOperator) :
    BinaryOp.ofToken t.val = .ok (binaryOpOf t) := by
  have h : t.val.lexeme.binaryOp? = some (binaryOpOf t) := (Option.some_get t.property).symm
  rw [BinaryOp.ofToken, h]

theorem ofToken_unaryOpOf (t : Tok .unaryOperator) :
    UnaryOp.ofToken t.val = .ok (unaryOpOf t) := by
  have h : t.val.lexeme.unaryOp? = some (unaryOpOf t) := (Option.some_get t.property).symm
  rw [UnaryOp.ofToken, h]

theorem ofNode_literalNode (t : Tok .literal) :
    Primitive.ofNode (literalNode t) = .ok (primitiveOf t) := by
  obtain ⟨⟨l, image, p⟩, h⟩ := t
  cases l with
  | string s => rfl
  | number x => rfl
  | keyword w => cases w with
    | true | false | null => rfl
    | _ => cases h
  | _ => cases h

theorem expressionLiteral_expressionText (t : ExpressionToken) :
    expressionLiteral t.val = .ok (expressionText t) := by
  obtain ⟨t, text, h⟩ := t
  rw [expressionLiteral, expressionText, h]

theorem dottedName_node (q : QualifiedName) : dottedName q.node = .ok q.text := by
  have htokens : q.node.tokens .identifier = q.names := by simp [QualifiedName.node]
  rw [dottedName, htokens]
  cases q with
  | last name => rfl
  | dotted name dot rest => rfl

/-! ## Trees -/

theorem Arguments.exists_nodes (d : Arguments) : ∃ n rest, d.nodes = n :: rest := by
  cases d with
  | last value => exact ⟨_, _, rfl⟩
  | cons value comma rest => exact ⟨_, _, rfl⟩

theorem Operations.length_operators (d : Operations) :
    (tokensIn .binaryOperator d.children).length = (nodesIn .term d.children).length := by
  match d with
  | .nil => rfl
  | .cons operator term rest => simpa [Operations.children] using rest.length_operators

theorem Entries.length_keys (d : Entries) :
    (tokensIn .key d.children).length = (nodesIn .expression d.children).length := by
  match d with
  | .last key colon value => rfl
  | .cons key colon value comma rest => simpa [Entries.children] using rest.length_keys

theorem EntriesUpTo.length_keys (d : EntriesUpTo) :
    (tokensIn .key d.children).length = (nodesIn .expression d.children).length := by
  cases d with
  | none stop => rfl
  | some entries stop => exact entries.length_keys

theorem Operand.unaryOperator_children (d : Operand) :
    tokensIn .unaryOperator d.children = [] := by
  cases d with
  | _ => rfl

/-- The operand that the node of a call is built into. -/
def callOfNode (call : Node) : Except BuildError Workflow.Operand := do
  call.expectRule .callExpression
  let name ← dottedName (← call.requireNode .qualifiedName)
  match call.node? .actualParameterList with
  | none => return .call name []
  | some ⟨list, _⟩ =>
    list.expectRule .actualParameterList
    return .call name (← Expr.ofNodes (list.nodes .expression))

theorem callOfNode_mk (p q : Position) (name : QualifiedName) (args : List Node) :
    callOfNode (.mk .callExpression p (.node .qualifiedName name.node :: argumentChild q args)) =
      Expr.ofNodes args >>= fun args => return .call name.text args := by
  have hargs : (Node.mk .callExpression p
      (.node .qualifiedName name.node :: argumentChild q args)).nodes .actualParameterList =
        nodesIn .actualParameterList (argumentChild q args) := by
    simp
  have hnames : (Node.mk .callExpression p
      (.node .qualifiedName name.node :: argumentChild q args)).nodes .qualifiedName =
        name.node :: nodesIn .qualifiedName (argumentChild q args) := by
    simp
  obtain ⟨_, hname⟩ := Node.requireNode_of_nodes_cons hnames
  rw [callOfNode, hname]
  show (dottedName name.node >>= fun name => _) = _
  rw [dottedName_node, ok_bind]
  cases args with
  | nil =>
    rw [Node.node?_of_nodes_nil hargs, Expr.ofNodes]
    rfl
  | cons n rest =>
    obtain ⟨_, hlist⟩ := Node.node?_of_nodes_cons hargs
    rw [hlist]
    dsimp only
    rw [Node.nodes_mk, nodesIn_map_node, if_pos rfl]
    rfl

/-- The text of a reference is made of the texts of its parts. -/
theorem Reference.referenceText_of_parts {d : Reference}
    (h : referencePartTexts d.nodes = d.partTexts) : referenceText d.node = d.text := by
  rw [referenceText, Reference.node, referenceNode, Reference.text]
  dsimp only
  rw [Node.nodes_mk, nodesIn_map_node, if_pos rfl, h]
  match d with
  | .last part =>
    rw [Reference.partTexts]
    cases part.text with
    | error e => rfl
    | ok text => rfl
  | .dotted part dot rest =>
    rw [Reference.partTexts]
    cases part.text with
    | error e => rfl
    | ok text =>
      cases rest.partTexts with
      | error e => rfl
      | ok others => rfl

mutual

/-- Building the tree of an expression. -/
theorem Expression.ofNode_node (d : Expression) : Expr.ofNode d.node = d.built := by
  match d with
  | .mk head tail =>
    have hterms : (Expression.mk head tail).node.nodes .term =
        head.node :: nodesIn .term tail.children := by
      simp [Expression.node]
    have hoperators : (Expression.mk head tail).node.tokens .binaryOperator =
        tokensIn .binaryOperator tail.children := by
      simp [Expression.node]
    rw [Expr.ofNode_eq, Expression.built, hterms, hoperators]
    show (Term.ofNode head.node >>= fun head => _) = _
    rw [head.ofNode_node]
    congr 1
    funext head
    dsimp only
    rw [if_neg (by simpa using tail.length_operators), tail.tailOfNodes_children]

theorem Operations.tailOfNodes_children (d : Operations) :
    Expr.tailOfNodes (tokensIn .binaryOperator d.children) (nodesIn .term d.children) =
      d.built := by
  match d with
  | .nil =>
    rw [Operations.children, Operations.built]
    exact Expr.tailOfNodes_nil_left _
  | .cons operator term rest =>
    have ih := rest.tailOfNodes_children
    simp only [Operations.children, Operations.built, tokensIn_token, tokensIn_node, nodesIn_node,
      nodesIn_token, if_true]
    rw [Expr.tailOfNodes, ofToken_binaryOpOf, term.ofNode_node, ih]
    rfl

theorem Term.ofNode_node (d : Term) : Workflow.Term.ofNode d.node = d.built := by
  match d with
  | .plain operand =>
    have hunary : UnaryOp.ofTerm (Term.plain operand).node = .ok none := by
      rw [UnaryOp.ofTerm, Node.token?, Term.node, Node.tokens_mk, operand.unaryOperator_children]
      rfl
    have hoperand := operand.ofNode_term (Term.plain operand).node (fun _ => by rw [Term.node]; rfl)
      (by rw [Term.node]; rfl) (by rw [Term.node]; rfl)
    rw [Workflow.Term.ofNode, hunary, hoperand, Term.built, Term.node]
    rfl
  | .unary operator operand =>
    have hunary : UnaryOp.ofTerm (Term.unary operator operand).node =
        .ok (some (unaryOpOf operator)) := by
      have htoken : (Term.unary operator operand).node.token? .unaryOperator =
          some operator.val := by
        rw [Term.node]
        rfl
      rw [UnaryOp.ofTerm, htoken]
      dsimp only
      rw [ofToken_unaryOpOf]
      rfl
    have hoperand := operand.ofNode_term (Term.unary operator operand).node
      (fun _ => by rw [Term.node]; rfl) (by rw [Term.node]; rfl) (by rw [Term.node]; rfl)
    rw [Workflow.Term.ofNode, hunary, hoperand, Term.built, Term.node]
    rfl

/-- Building the operand of a term that has the children of a phrase. -/
theorem Operand.ofNode_term (d : Operand) (n : Node)
    (hnodes : ∀ slot, n.nodes slot = nodesIn slot d.children)
    (hhas : n.has .lparen = d.children.any (·.slot = .lparen))
    (htokens : n.tokens .expressionLiteral = tokensIn .expressionLiteral d.children) :
    Workflow.Operand.ofNode n = d.built := by
  have hnone : ∀ slot, nodesIn slot d.children = [] → n.node? slot = none :=
    fun slot h => Node.node?_of_nodes_nil ((hnodes slot).trans h)
  have hsome : ∀ slot c, nodesIn slot d.children = [c] → ∃ hc, n.node? slot = some ⟨c, hc⟩ :=
    fun slot c h => Node.node?_of_nodes_cons ((hnodes slot).trans h)
  match d with
  | .literal value =>
    obtain ⟨hc, h⟩ := hsome .literal _ rfl
    rw [Workflow.Operand.ofNode, h]
    show (Primitive.ofNode (literalNode value) >>= fun p => _) = _
    rw [ofNode_literalNode]
    rfl
  | .array start items =>
    obtain ⟨hc, h⟩ := hsome .array _ rfl
    rw [Workflow.Operand.ofNode, hnone .literal rfl, h]
    dsimp only
    rw [Node.nodes_mk, nodesIn_map_node, if_pos rfl, items.ofNodes_nodes, Operand.built]
    rfl
  | .object start entries =>
    obtain ⟨hc, h⟩ := hsome .object _ rfl
    rw [Workflow.Operand.ofNode, hnone .literal rfl, hnone .array rfl, h]
    dsimp only
    rw [Node.nodes_mk, Node.tokens_mk, if_neg (by simpa using entries.length_keys),
      entries.entriesOfNodes_children, Operand.built]
    rfl
  | .paren start inner stop =>
    obtain ⟨hc, h⟩ := Node.requireNode_of_nodes_cons (hnodes .expression)
    have hparen : n.has .lparen = true := hhas.trans rfl
    rw [Workflow.Operand.ofNode, hnone .literal rfl, hnone .array rfl, hnone .object rfl]
    dsimp only
    rw [hparen, if_pos rfl, h, Operand.built, ← inner.ofNode_node]
    rfl
  | .expression token =>
    have hparen : n.has .lparen = false := hhas.trans rfl
    have htoken : n.token? .expressionLiteral = some token.val := by
      rw [Node.token?, htokens]
      rfl
    rw [Workflow.Operand.ofNode, hnone .literal rfl, hnone .array rfl, hnone .object rfl]
    dsimp only
    rw [hparen, if_neg Bool.false_ne_true, htoken]
    dsimp only
    rw [expressionLiteral_expressionText]
    rfl
  | .reference reference =>
    obtain ⟨hc, h⟩ := hsome .variableReference _ rfl
    have hparen : n.has .lparen = false := hhas.trans rfl
    have htoken : n.token? .expressionLiteral = none := by
      rw [Node.token?, htokens]
      rfl
    rw [Workflow.Operand.ofNode, hnone .literal rfl, hnone .array rfl, hnone .object rfl]
    dsimp only
    rw [hparen, if_neg Bool.false_ne_true, htoken, hnone .callExpression rfl, h]
    dsimp only
    show (referenceText reference.node >>= fun text => _) = _
    rw [Reference.referenceText_of_parts reference.referencePartTexts_nodes, Operand.built,
      Reference.text]
    simp only [bind_assoc, pure_bind]
  | .call name start args =>
    obtain ⟨hc, h⟩ := hsome .callExpression _ rfl
    have hparen : n.has .lparen = false := hhas.trans rfl
    have htoken : n.token? .expressionLiteral = none := by
      rw [Node.token?, htokens]
      rfl
    rw [Workflow.Operand.ofNode, hnone .literal rfl, hnone .array rfl, hnone .object rfl]
    dsimp only
    rw [hparen, if_neg Bool.false_ne_true, htoken, h]
    show callOfNode _ = _
    rw [callOfNode_mk, Operand.built, args.ofNodes_nodes]

theorem Reference.referencePartTexts_nodes (d : Reference) :
    referencePartTexts d.nodes = d.partTexts := by
  match d with
  | .last part =>
    rw [Reference.nodes, part.referencePartTexts_cons, referencePartTexts, Reference.partTexts]
    rfl
  | .dotted part dot rest =>
    rw [Reference.nodes, part.referencePartTexts_cons, rest.referencePartTexts_nodes,
      Reference.partTexts]

theorem Part.referencePartTexts_cons (d : Part) (others : List Node) :
    referencePartTexts (d.node :: others) = do
      let text ← d.text
      let others ← referencePartTexts others
      return text :: others := by
  match d with
  | .mk name subscripts =>
    have hnodes : (Part.mk name subscripts).node.nodes .subscript = subscripts.nodes := by
      simp [Part.node]
    rw [referencePartTexts]
    dsimp only
    rw [hnodes, subscripts.subscriptTexts_nodes, Part.text, Part.node]
    cases subscripts.text with
    | error e => rfl
    | ok text => rfl

theorem Subscripts.subscriptTexts_nodes (d : Subscripts) : subscriptTexts d.nodes = d.text := by
  match d with
  | .nil =>
    rw [Subscripts.nodes, subscriptTexts, Subscripts.text]
  | .cons start index stop rest =>
    rw [Subscripts.nodes, subscriptTexts, index.ofNode_node, rest.subscriptTexts_nodes,
      Subscripts.text]

theorem Arguments.ofNodes_nodes (d : Arguments) : Expr.ofNodes d.nodes = d.built := by
  match d with
  | .last value =>
    rw [Arguments.nodes, Expr.ofNodes, value.ofNode_node, Expr.ofNodes, Arguments.built]
    rfl
  | .cons value comma rest =>
    rw [Arguments.nodes, Expr.ofNodes, value.ofNode_node, rest.ofNodes_nodes, Arguments.built]

theorem ArgumentsUpTo.ofNodes_nodes {close : Symbol} (d : ArgumentsUpTo close) :
    Expr.ofNodes d.nodes = d.built := by
  match d with
  | .none stop =>
    rw [ArgumentsUpTo.nodes, Expr.ofNodes, ArgumentsUpTo.built]
  | .some args stop => exact args.ofNodes_nodes

theorem Entries.entriesOfNodes_children (d : Entries) :
    Expr.entriesOfNodes (tokensIn .key d.children) (nodesIn .expression d.children) = d.built := by
  match d with
  | .last key colon value =>
    simp only [Entries.children, tokensIn_token, tokensIn_node, nodesIn_node, nodesIn_token, if_true,
      tokensIn_nil, nodesIn_nil]
    rw [Expr.entriesOfNodes, value.ofNode_node, Expr.entriesOfNodes_nil_left, Entries.built]
    rfl
  | .cons key colon value comma rest =>
    have ih := rest.entriesOfNodes_children
    simp only [Entries.children, tokensIn_token, tokensIn_node, nodesIn_node, nodesIn_token, if_true]
    rw [Expr.entriesOfNodes, value.ofNode_node, ih, Entries.built]

theorem EntriesUpTo.entriesOfNodes_children (d : EntriesUpTo) :
    Expr.entriesOfNodes (tokensIn .key d.children) (nodesIn .expression d.children) = d.built := by
  match d with
  | .none stop => exact Expr.entriesOfNodes_nil_left _
  | .some entries stop => exact entries.entriesOfNodes_children

end

theorem Reference.referenceText_node (d : Reference) : referenceText d.node = d.text :=
  Reference.referenceText_of_parts d.referencePartTexts_nodes

end Workflow.Phrase
