import Workflow.Proofs.Build.Checks
import Workflow.Proofs.Grammar.Phrase

/-!
# Trees without statements

Statements stand in blocks only: no node of the tree of an expression, of arguments, of options or
of parameters is a statement. So what is gathered from the statements of a tree comes from its
blocks.
-/

namespace Workflow

/-! ## Gathering -/

section

variable {α : Type} {f : Node → List α} {slot : Slot} {children others : List Child}

/-- What the nodes among children give, one after the other. -/
def Child.gather (f : Node → List α) (children : List Child) : List α :=
  children.flatMap fun
    | .node _ n => f n
    | .token _ _ => []

@[simp] theorem Child.gather_nil : Child.gather f [] = [] := rfl

@[simp] theorem Child.gather_node {n : Node} :
    Child.gather f (.node slot n :: children) = f n ++ Child.gather f children := rfl

@[simp] theorem Child.gather_token {t : Token} :
    Child.gather f (.token slot t :: children) = Child.gather f children := rfl

@[simp] theorem Child.gather_append :
    Child.gather f (children ++ others) = Child.gather f children ++ Child.gather f others :=
  List.flatMap_append

@[simp] theorem Child.gather_map_node {nodes : List Node} :
    Child.gather f (nodes.map (.node slot)) = nodes.flatMap f :=
  List.flatMap_map _ _ nodes

theorem Child.filterMap_gather {β : Type} {g : α → Option β} :
    (Child.gather f children).filterMap g =
      Child.gather (fun n => (f n).filterMap g) children := by
  induction children with
  | nil => rfl
  | cons child rest ih =>
    cases child with
    | node slot n => rw [Child.gather_node, Child.gather_node, List.filterMap_append, ih]
    | token slot t => exact ih

theorem Child.allNodes_eq_gather : Child.allNodes children = Child.gather Node.all children := by
  induction children with
  | nil => rw [Child.allNodes, Child.gather_nil]
  | cons child rest ih =>
    cases child with
    | node slot n => rw [Child.allNodes, Child.gather_node, ih]
    | token slot t => rw [Child.allNodes, Child.gather_token, ih]

end

/-! ## Statements -/

/-- Whether a rule is that of a statement. -/
def Rule.isStatement : Rule → Bool
  | .callOrAssignment | .ifStatement | .forStatement | .parallelStatement | .tryStatement
  | .throwStatement | .breakStatement | .continueStatement | .returnStatement => true
  | _ => false

/-- Neither a node nor any node below it is a statement. -/
def Node.StatementFree (n : Node) : Prop := ∀ m ∈ n.all, m.rule.isStatement = false

/-- No node among children or below them is a statement. -/
def Child.StatementFree (children : List Child) : Prop :=
  ∀ m ∈ Child.allNodes children, m.rule.isStatement = false

section

variable {slot : Slot} {children : List Child} {nodes : List Node}

theorem Node.statementFree_mk {rule : Rule} {p : Position} (h : Child.StatementFree children)
    (hrule : rule.isStatement = false) : (Node.mk rule p children).StatementFree := by
  rw [Node.StatementFree, Node.all, List.forall_mem_cons]
  exact ⟨hrule, h⟩

theorem Child.statementFree_nil : Child.StatementFree [] := by
  rw [Child.StatementFree, Child.allNodes]
  exact List.forall_mem_nil _

theorem Child.statementFree_node {n : Node} : Child.StatementFree (.node slot n :: children) ↔
    n.StatementFree ∧ Child.StatementFree children := by
  rw [Child.StatementFree, Child.allNodes, List.forall_mem_append, Node.StatementFree,
    Child.StatementFree]

theorem Child.statementFree_token {t : Token} :
    Child.StatementFree (.token slot t :: children) ↔ Child.StatementFree children := by
  rw [Child.StatementFree, Child.allNodes, Child.StatementFree]

theorem Child.statementFree_singleton {n : Node} (h : n.StatementFree) :
    Child.StatementFree [.node slot n] :=
  Child.statementFree_node.mpr ⟨h, Child.statementFree_nil⟩

theorem Child.statementFree_map_node (h : ∀ n ∈ nodes, n.StatementFree) :
    Child.StatementFree (nodes.map (.node slot)) := by
  induction nodes with
  | nil => exact Child.statementFree_nil
  | cons n rest ih =>
    obtain ⟨hn, hrest⟩ := List.forall_mem_cons.mp h
    exact Child.statementFree_node.mpr ⟨hn, ih hrest⟩

theorem Child.statementFree_map_token {tokens : List Token} :
    Child.StatementFree (tokens.map (.token slot)) := by
  induction tokens with
  | nil => exact Child.statementFree_nil
  | cons t rest ih => exact Child.statementFree_token.mpr ih

/-- Nothing is gathered without statements, if that is what things are gathered from. -/
theorem Child.StatementFree.gather_eq_nil {α : Type} {f : Node → List α}
    (h : Child.StatementFree children) (hf : ∀ n : Node, n.StatementFree → f n = []) :
    Child.gather f children = [] := by
  induction children with
  | nil => rfl
  | cons child rest ih =>
    cases child with
    | node slot n =>
      obtain ⟨hn, hrest⟩ := Child.statementFree_node.mp h
      rw [Child.gather_node, hf n hn, ih hrest, List.nil_append]
    | token slot t => exact ih (Child.statementFree_token.mp h)

end

namespace Phrase

open Grammar

/-! ## Expressions -/

theorem statementFree_argumentChild {p : Position} {nodes : List Node}
    (h : ∀ n ∈ nodes, n.StatementFree) : Child.StatementFree (argumentChild p nodes) := by
  cases nodes with
  | nil => exact Child.statementFree_nil
  | cons n rest =>
    rw [argumentChild]
    · exact Child.statementFree_singleton
        (Node.statementFree_mk (Child.statementFree_map_node h) rfl)
    · exact List.cons_ne_nil n rest

theorem QualifiedName.statementFree (d : QualifiedName) : d.node.StatementFree :=
  Node.statementFree_mk Child.statementFree_map_token rfl

theorem statementFree_literalNode (t : Tok .literal) : (literalNode t).StatementFree :=
  Node.statementFree_mk (Child.statementFree_token.mpr Child.statementFree_nil) rfl

theorem statementFree_referenceNode {p : Position} {nodes : List Node}
    (h : ∀ n ∈ nodes, n.StatementFree) : (referenceNode p nodes).StatementFree :=
  Node.statementFree_mk (Child.statementFree_map_node h) rfl

mutual

theorem Expression.statementFree (d : Expression) : d.node.StatementFree := by
  match d with
  | .mk head tail =>
    rw [Expression.node]
    refine Node.statementFree_mk (Child.statementFree_node.mpr ?_) rfl
    exact ⟨head.statementFree, tail.statementFree⟩

theorem Operations.statementFree (d : Operations) : Child.StatementFree d.children := by
  match d with
  | .nil =>
    rw [Operations.children]
    exact Child.statementFree_nil
  | .cons operator term rest =>
    rw [Operations.children, Child.statementFree_token, Child.statementFree_node]
    exact ⟨term.statementFree, rest.statementFree⟩

theorem Term.statementFree (d : Term) : d.node.StatementFree := by
  match d with
  | .plain operand =>
    rw [Term.node]
    exact Node.statementFree_mk operand.statementFree rfl
  | .unary operator operand =>
    rw [Term.node]
    exact Node.statementFree_mk (Child.statementFree_token.mpr operand.statementFree) rfl

theorem Operand.statementFree (d : Operand) : Child.StatementFree d.children := by
  match d with
  | .literal value =>
    rw [Operand.children]
    exact Child.statementFree_singleton (statementFree_literalNode value)
  | .array start items =>
    rw [Operand.children]
    exact Child.statementFree_singleton
      (Node.statementFree_mk (Child.statementFree_map_node items.statementFree) rfl)
  | .object start entries =>
    rw [Operand.children]
    exact Child.statementFree_singleton (Node.statementFree_mk entries.statementFree rfl)
  | .paren start inner stop =>
    rw [Operand.children, Child.statementFree_token]
    exact Child.statementFree_singleton inner.statementFree
  | .expression token =>
    rw [Operand.children, Child.statementFree_token]
    exact Child.statementFree_nil
  | .reference reference =>
    rw [Operand.children]
    exact Child.statementFree_singleton (statementFree_referenceNode reference.statementFree_nodes)
  | .call name start args =>
    rw [Operand.children]
    refine Child.statementFree_singleton
      (Node.statementFree_mk (Child.statementFree_node.mpr ⟨name.statementFree, ?_⟩) rfl)
    exact statementFree_argumentChild args.statementFree

theorem Reference.statementFree_nodes (d : Reference) : ∀ n ∈ d.nodes, n.StatementFree := by
  match d with
  | .last part =>
    rw [Reference.nodes, List.forall_mem_singleton]
    exact part.statementFree
  | .dotted part dot rest =>
    rw [Reference.nodes, List.forall_mem_cons]
    exact ⟨part.statementFree, rest.statementFree_nodes⟩

theorem Part.statementFree (d : Part) : d.node.StatementFree := by
  match d with
  | .mk name subscripts =>
    rw [Part.node]
    refine Node.statementFree_mk (Child.statementFree_token.mpr ?_) rfl
    exact Child.statementFree_map_node subscripts.statementFree

theorem Subscripts.statementFree (d : Subscripts) : ∀ n ∈ d.nodes, n.StatementFree := by
  match d with
  | .nil =>
    rw [Subscripts.nodes]
    exact List.forall_mem_nil _
  | .cons start index stop rest =>
    rw [Subscripts.nodes, List.forall_mem_cons]
    exact ⟨index.statementFree, rest.statementFree⟩

theorem Arguments.statementFree (d : Arguments) : ∀ n ∈ d.nodes, n.StatementFree := by
  match d with
  | .last value =>
    rw [Arguments.nodes, List.forall_mem_singleton]
    exact value.statementFree
  | .cons value comma rest =>
    rw [Arguments.nodes, List.forall_mem_cons]
    exact ⟨value.statementFree, rest.statementFree⟩

theorem ArgumentsUpTo.statementFree {close : Symbol} (d : ArgumentsUpTo close) :
    ∀ n ∈ d.nodes, n.StatementFree := by
  match d with
  | .none stop =>
    rw [ArgumentsUpTo.nodes]
    exact List.forall_mem_nil _
  | .some args stop =>
    rw [ArgumentsUpTo.nodes]
    exact args.statementFree

theorem Entries.statementFree (d : Entries) : Child.StatementFree d.children := by
  match d with
  | .last key colon value =>
    rw [Entries.children, Child.statementFree_token]
    exact Child.statementFree_singleton value.statementFree
  | .cons key colon value comma rest =>
    rw [Entries.children, Child.statementFree_token, Child.statementFree_node]
    exact ⟨value.statementFree, rest.statementFree⟩

theorem EntriesUpTo.statementFree (d : EntriesUpTo) : Child.StatementFree d.children := by
  match d with
  | .none stop =>
    rw [EntriesUpTo.children]
    exact Child.statementFree_nil
  | .some entries stop =>
    rw [EntriesUpTo.children]
    exact entries.statementFree

end

theorem Reference.statementFree (d : Reference) : d.node.StatementFree :=
  statementFree_referenceNode d.statementFree_nodes

/-! ## Arguments and parameters -/

theorem NamedArguments.statementFree (d : NamedArguments) : Child.StatementFree d.children := by
  induction d with
  | last name assign value =>
    rw [NamedArguments.children, Child.statementFree_token]
    exact Child.statementFree_singleton value.statementFree
  | cons name assign value comma rest ih =>
    rw [NamedArguments.children, Child.statementFree_token, Child.statementFree_node]
    exact ⟨value.statementFree, ih⟩

theorem NamedUpTo.statementFree (d : NamedUpTo) : Child.StatementFree [d.child] := by
  cases d with
  | mk args stop =>
    exact Child.statementFree_singleton (Node.statementFree_mk args.statementFree rfl)

theorem Clause.statementFree (d : Clause) : Child.StatementFree [d.child] := by
  cases d with
  | mk start args => exact args.statementFree

theorem NamedOrNone.statementFree (d : NamedOrNone) : Child.StatementFree d.children := by
  cases d with
  | none stop => exact Child.statementFree_nil
  | some args => exact args.statementFree

theorem CallArguments.statementFree (d : CallArguments) : Child.StatementFree d.children := by
  cases d with
  | named args => exact args.statementFree
  | positional args => exact statementFree_argumentChild args.statementFree

theorem Options.statementFree (d : Options) : Child.StatementFree d.children := by
  cases d with
  | none => exact Child.statementFree_nil
  | some clause => exact clause.statementFree

theorem Retry.statementFree (d : Retry) : Child.StatementFree d.children := by
  cases d with
  | none => exact Child.statementFree_nil
  | some retry clause => exact Child.statementFree_token.mpr clause.statementFree

theorem Parameter.statementFree (d : Parameter) : d.node.StatementFree := by
  cases d with
  | plain name =>
    exact Node.statementFree_mk (Child.statementFree_token.mpr Child.statementFree_nil) rfl
  | default name assign value =>
    refine Node.statementFree_mk (Child.statementFree_token.mpr ?_) rfl
    exact Child.statementFree_singleton (statementFree_literalNode value)

theorem Parameters.statementFree (d : Parameters) : ∀ n ∈ d.nodes, n.StatementFree := by
  induction d with
  | last parameter => exact List.forall_mem_singleton.mpr parameter.statementFree
  | cons parameter comma rest ih => exact List.forall_mem_cons.mpr ⟨parameter.statementFree, ih⟩

theorem ParametersUpTo.statementFree (d : ParametersUpTo) : d.node.StatementFree := by
  refine Node.statementFree_mk (Child.statementFree_map_node ?_) rfl
  cases d with
  | none stop => exact List.forall_mem_nil _
  | some parameters stop => exact parameters.statementFree

end Phrase

end Workflow
