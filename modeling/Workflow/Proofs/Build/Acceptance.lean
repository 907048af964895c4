import Workflow.Compile
import Workflow.Proofs.Build.Checks
import Workflow.Proofs.Build.Statement
import Workflow.Proofs.Grammar.Soundness

/-!
# Which programs are built

The tree of a program is built into a program exactly if each of its nodes passes its own check;
otherwise the answer is a defect with its position. A tree that was read from tokens is never
malformed.
-/

namespace Workflow

open Grammar

namespace Phrase

/-! ## Expressions -/

theorem pass_argumentChild {p : Position} {nodes : List Node} :
    Child.Pass (argumentChild p nodes) ↔ ∀ n ∈ nodes, n.Passes := by
  cases nodes with
  | nil => simp [argumentChild]
  | cons n rest =>
    rw [argumentChild, Child.pass_node, Node.passes_iff_of_checked (by trivial),
      Child.pass_map_node]
    · exact and_iff_left Child.pass_nil
    · exact List.cons_ne_nil n rest

theorem QualifiedName.passes_node (d : QualifiedName) : d.node.Passes := by
  rw [QualifiedName.node, Node.passes_mk]
  exact ⟨trivial, Child.pass_map_token⟩

theorem passes_literalNode (t : Tok .literal) : (literalNode t).Passes := by
  rw [literalNode, Node.passes_mk]
  exact ⟨trivial, by simp⟩

/-- Subscripts that are built have a text exactly if each is one. -/
def ChecksSubscripts (nodes : List Node) : Prop :=
  (∀ n ∈ nodes, n.Passes) ∧ ∀ n ∈ nodes, ∀ e, Expr.ofNode n = .ok e → e.IsSubscript

mutual

theorem Expression.decides (d : Expression) : Decides d.built d.node.Passes := by
  match d with
  | .mk head tail =>
    rw [Expression.built, Expression.node, Node.passes_iff_of_checked (by trivial), Child.pass_node]
    exact head.decides.bind fun _ _ => tail.decides.map

theorem Operations.decides (d : Operations) : Decides d.built (Child.Pass d.children) := by
  match d with
  | .nil =>
    rw [Operations.built, Operations.children]
    exact Child.pass_nil
  | .cons operator term rest =>
    rw [Operations.built, Operations.children, Child.pass_token, Child.pass_node]
    exact term.decides.bind fun _ _ => rest.decides.map

theorem Term.decides (d : Term) : Decides d.built d.node.Passes := by
  match d with
  | .plain operand =>
    rw [Term.built, Term.node, Node.passes_iff_of_checked (by trivial)]
    exact operand.decides.map
  | .unary operator operand =>
    rw [Term.built, Term.node, Node.passes_iff_of_checked (by trivial), Child.pass_token]
    exact operand.decides.map

theorem Operand.decides (d : Operand) : Decides d.built (Child.Pass d.children) := by
  match d with
  | .literal value =>
    rw [Operand.built, Operand.children, Child.pass_node]
    exact ⟨passes_literalNode value, Child.pass_nil⟩
  | .array start items =>
    rw [Operand.built, Operand.children, Child.pass_node, Node.passes_iff_of_checked (by trivial),
      Child.pass_map_node]
    exact Decides.congr items.decides.map (and_iff_left Child.pass_nil).symm
  | .object start entries =>
    rw [Operand.built, Operand.children, Child.pass_node, Node.passes_iff_of_checked (by trivial)]
    exact Decides.congr entries.decides.map (and_iff_left Child.pass_nil).symm
  | .paren start inner stop =>
    rw [Operand.built, Operand.children, Child.pass_token, Child.pass_node]
    exact Decides.congr inner.decides.map (and_iff_left Child.pass_nil).symm
  | .expression token =>
    rw [Operand.built, Operand.children, Child.pass_token]
    exact Child.pass_nil
  | .reference reference =>
    rw [Operand.built, Operand.children, Child.pass_node, referenceNode,
      Node.passes_iff_of_checked (by trivial), Child.pass_map_node]
    exact Decides.congr reference.decides.map (and_iff_left Child.pass_nil).symm
  | .call name start args =>
    rw [Operand.built, Operand.children, Child.pass_node, Node.passes_iff_of_checked (by trivial),
      Child.pass_node, pass_argumentChild]
    refine Decides.congr args.decides.map ?_
    simp [name.passes_node]

theorem Reference.decides (d : Reference) : Decides d.partTexts (∀ n ∈ d.nodes, n.Passes) := by
  match d with
  | .last part =>
    rw [Reference.partTexts, Reference.nodes, List.forall_mem_singleton]
    exact part.decides.map
  | .dotted part dot rest =>
    rw [Reference.partTexts, Reference.nodes, List.forall_mem_cons]
    exact part.decides.bind fun _ _ => rest.decides.map

theorem Part.decides (d : Part) : Decides d.text d.node.Passes := by
  match d with
  | .mk name subscripts =>
    rw [Part.text, Part.node, Node.passes_mk, Child.pass_token, Child.pass_map_node]
    refine Decides.congr subscripts.decides.map ?_
    simp [Node.Checked, Node.rule, ChecksSubscripts, and_comm]

theorem Subscripts.decides (d : Subscripts) : Decides d.text (ChecksSubscripts d.nodes) := by
  match d with
  | .nil =>
    rw [Subscripts.text, Subscripts.nodes]
    exact ⟨List.forall_mem_nil _, List.forall_mem_nil _⟩
  | .cons start index stop rest =>
    rw [Subscripts.nodes, ChecksSubscripts, List.forall_mem_cons, List.forall_mem_cons,
      index.ofNode_node]
    -- an index is checked once it is built, before the indices behind it are
    have hindex := index.decides.check fun e => decides_subscriptText e index.node.position
    rw [Subscripts.text, ← bind_assoc]
    exact Decides.congr (hindex.bind fun _ _ => rest.decides.map) and_and_and_comm

theorem Arguments.decides (d : Arguments) : Decides d.built (∀ n ∈ d.nodes, n.Passes) := by
  match d with
  | .last value =>
    rw [Arguments.built, Arguments.nodes, List.forall_mem_singleton]
    exact value.decides.map
  | .cons value comma rest =>
    rw [Arguments.built, Arguments.nodes, List.forall_mem_cons]
    exact value.decides.bind fun _ _ => rest.decides.map

theorem ArgumentsUpTo.decides {close : Symbol} (d : ArgumentsUpTo close) :
    Decides d.built (∀ n ∈ d.nodes, n.Passes) := by
  match d with
  | .none stop =>
    rw [ArgumentsUpTo.built, ArgumentsUpTo.nodes]
    exact List.forall_mem_nil _
  | .some args stop => exact args.decides

theorem Entries.decides (d : Entries) : Decides d.built (Child.Pass d.children) := by
  match d with
  | .last key colon value =>
    rw [Entries.built, Entries.children, Child.pass_token, Child.pass_node]
    exact Decides.congr value.decides.map (and_iff_left Child.pass_nil).symm
  | .cons key colon value comma rest =>
    rw [Entries.built, Entries.children, Child.pass_token, Child.pass_node]
    exact value.decides.bind fun _ _ => rest.decides.map

theorem EntriesUpTo.decides (d : EntriesUpTo) : Decides d.built (Child.Pass d.children) := by
  match d with
  | .none stop =>
    rw [EntriesUpTo.built, EntriesUpTo.children]
    exact Child.pass_nil
  | .some entries stop => exact entries.decides

end

theorem Reference.decides_node (d : Reference) : Decides d.text d.node.Passes := by
  rw [Reference.text, Reference.node, referenceNode, Node.passes_iff_of_checked (by trivial),
    Child.pass_map_node]
  exact d.decides.map

/-! ## Arguments -/

theorem NamedArguments.decides (d : NamedArguments) :
    Decides d.built (Child.Pass d.children) := by
  induction d with
  | last name assign value =>
    rw [NamedArguments.built, NamedArguments.children, Child.pass_token, Child.pass_node]
    exact Decides.congr value.decides.map (and_iff_left Child.pass_nil).symm
  | cons name assign value comma rest ih =>
    rw [NamedArguments.built, NamedArguments.children, Child.pass_token, Child.pass_node]
    exact value.decides.bind fun _ _ => ih.map

theorem NamedArguments.names_built (d : NamedArguments) {args : List NamedArgument}
    (h : d.built = .ok args) :
    args.map (·.name) = (tokensIn .identifier d.children).map (·.image) := by
  induction d generalizing args with
  | last name assign value =>
    rw [NamedArguments.built] at h
    obtain ⟨e, _, h⟩ := bind_eq_ok.mp h
    cases h
    rfl
  | cons name assign value comma rest ih =>
    rw [NamedArguments.built] at h
    obtain ⟨e, _, h⟩ := bind_eq_ok.mp h
    obtain ⟨others, hothers, h⟩ := bind_eq_ok.mp h
    cases h
    simp [NamedArguments.children, ih hothers]

/-- The node of a list of named arguments, with what it is built into. -/
theorem NamedUpTo.exists_decides (d : NamedUpTo) :
    ∃ n, d.child = .node .actualNamedParameterList n ∧ NamedArgument.listOfNode n = d.built ∧
      Decides d.built n.Passes ∧
      ∀ args, d.built = .ok args → args.map (·.name) = (n.tokens .identifier).map (·.image) := by
  obtain ⟨n, hchild, hlist⟩ := d.exists_listOfNode
  cases d with
  | mk args stop =>
    cases hchild
    refine ⟨_, rfl, hlist, ?_, fun built hbuilt => ?_⟩
    · rw [Node.passes_iff_of_checked (by trivial)]
      exact args.decides
    · rw [Node.tokens_mk]
      exact args.names_built hbuilt

/-- No list of arguments among children repeats a name. -/
def DistinctNames (children : List Child) : Prop :=
  ∀ m ∈ nodesIn .actualNamedParameterList children, ((m.tokens .identifier).map (·.image)).Nodup

theorem NamedUpTo.decides_callArguments (d : NamedUpTo) :
    Decides (d.built >>= NamedArgument.callArguments)
      (Child.Pass [d.child] ∧ DistinctNames [d.child]) := by
  obtain ⟨n, hchild, _, hpasses, hnames⟩ := d.exists_decides
  have hdecides : Decides (d.built >>= NamedArgument.callArguments)
      (n.Passes ∧ ((n.tokens .identifier).map (·.image)).Nodup) := by
    refine hpasses.bind fun args hargs => ?_
    rw [← hnames args hargs]
    exact Workflow.decides_callArguments args
  exact hdecides.congr (by simp [hchild, DistinctNames])

theorem NamedOrNone.decides (d : NamedOrNone) :
    Decides d.built (Child.Pass d.children ∧ DistinctNames d.children) := by
  cases d with
  | none stop =>
    rw [NamedOrNone.built, NamedOrNone.children]
    exact ⟨Child.pass_nil, List.forall_mem_nil _⟩
  | some args => exact args.decides_callArguments

theorem CallArguments.decides (d : CallArguments) (name : String) :
    Decides (d.built name) (Child.Pass d.children ∧ DistinctNames d.children) := by
  match d with
  | .named args =>
    rw [CallArguments.built, ← bind_assoc]
    exact args.decides_callArguments.map
  | .positional (.none stop) =>
    rw [CallArguments.built, CallArguments.children, ArgumentsUpTo.nodes]
    exact ⟨Child.pass_nil, List.forall_mem_nil _⟩
  | .positional (.some args stop) =>
    obtain ⟨n, rest, hnodes⟩ := args.exists_nodes
    rw [CallArguments.built, CallArguments.children, ArgumentsUpTo.nodes, pass_argumentChild]
    refine Decides.congr args.decides.map (and_iff_left ?_).symm
    simp [DistinctNames, hnodes, argumentChild]

theorem Options.decides (d : Options) :
    Decides d.built (Child.Pass d.children ∧
      ∀ m ∈ nodesIn .actualNamedParameterList d.children, ∀ args,
        NamedArgument.listOfNode m = .ok args →
          ∃ options, ParallelOptions.ofArguments args = .ok options) := by
  match d with
  | .none =>
    rw [Options.built, Options.children]
    exact ⟨Child.pass_nil, List.forall_mem_nil _⟩
  | .some (.mk start args) =>
    obtain ⟨n, hchild, hlist, hpasses, _⟩ := args.exists_decides
    refine Decides.congr (hpasses.check fun args =>
      (ParallelOptions.onlyDefects_ofArguments args).decides) ?_
    simp [Options.children, Clause.child, hchild, hlist]

theorem Retry.decides (d : Retry) :
    Decides d.built (Child.Pass d.children ∧
      ∀ m ∈ nodesIn .actualNamedParameterList d.children, ∀ args,
        NamedArgument.listOfNode m = .ok args → ∀ retry ∈ tokensIn .retry d.children,
          ∃ policy, RetryPolicy.ofArguments args retry.position = .ok policy) := by
  match d with
  | .none =>
    rw [Retry.built, Retry.children]
    exact ⟨Child.pass_nil, List.forall_mem_nil _⟩
  | .some retry (.mk start args) =>
    obtain ⟨n, hchild, hlist, hpasses, _⟩ := args.exists_decides
    refine Decides.congr (hpasses.check fun args =>
      (RetryPolicy.onlyDefects_ofArguments args retry.val.position).decides.map) ?_
    simp [Retry.children, Clause.child, hchild, hlist]

theorem Handler.nodesIn_named (d : Handler) :
    nodesIn .actualNamedParameterList d.children = [] := by
  cases d with
  | none => rfl
  | some catch_ start name stop body => rfl

theorem Handler.tokensIn_retry (d : Handler) : tokensIn .retry d.children = [] := by
  cases d with
  | none => rfl
  | some catch_ start name stop body => rfl

theorem decides_loopHead (name : Tok .identifier) (items : Expression) :
    Decides (loopHead name items)
      (items.node.Passes ∧ ∀ e, items.built = .ok e → e.IsIterable) := by
  rw [loopHead]
  refine items.decides.check fun e => ?_
  rw [Expr.literal?, Expr.IsIterable]
  by_cases h : e.isLiteral = true
  · rw [if_pos h, Option.any_some]
    cases hd : e.toDocument.isArray with
    | true => exact fun _ => rfl
    | false => exact Decides.defect _ _ fun harray => absurd (harray h) Bool.false_ne_true
  · rw [if_neg h]
    exact fun hl => absurd hl h

/-! ## Statements -/

mutual

theorem Statement.decides (d : Statement) : DecidesFrom d.built d.node.Passes := by
  match d with
  | .assignCall target assign name start args =>
    rw [Statement.built, Statement.node,
      Node.passes_iff_of_checked (by exact List.forall_mem_nil _), Child.pass_node,
      Child.pass_token, Child.pass_node, Node.passes_mk, Child.pass_node]
    refine DecidesFrom.congr (target.decides_node.lift.bind fun target =>
      args.decides.lift.bind fun args => (?_ : DecidesFrom _ True)) ?_
    · split
      · exact .pure _
      · exact fun n => trivial
    · simp [name.passes_node, Node.Checked, Node.rule, DistinctNames, and_comm]
  | .assign target assign value =>
    rw [Statement.built, Statement.node,
      Node.passes_iff_of_checked (by exact List.forall_mem_nil _), Child.pass_node,
      Child.pass_token, Child.pass_node]
    refine DecidesFrom.congr (target.decides_node.lift.bind fun target => value.decides.lift.map) ?_
    simp
  | .call name start args =>
    rw [Statement.built, Statement.node, Node.passes_mk, Child.pass_node]
    refine DecidesFrom.congr (args.decides name.text).lift.map ?_
    simp [name.passes_node, Node.Checked, Node.rule, DistinctNames, and_comm]
  | .conditional if_ first others =>
    rw [Statement.built, Statement.node, Node.passes_iff_of_checked (by trivial), Child.pass_token,
      Child.pass_append]
    exact first.decides.bind fun case => others.decides.map
  | .loop loop =>
    rw [Statement.built, Statement.node]
    exact loop.decides.map
  | .parallel parallel options body =>
    rw [Statement.built, Statement.node, Node.passes_mk, Child.pass_token, Child.pass_append]
    refine DecidesFrom.congr (options.decides.lift.bind fun options => body.decides.map) ?_
    simp [Node.Checked, Node.rule, body.nodesIn_named, and_assoc, and_left_comm]
  | .attempt try_ body retry handler =>
    rw [Statement.built, Statement.node, Node.passes_mk, Child.pass_token, Child.pass_node,
      Child.pass_append]
    refine DecidesFrom.congr (body.decides.bind fun body => retry.decides.lift.bind fun retry =>
      handler.decides.map) ?_
    simp [Node.Checked, Node.rule, handler.nodesIn_named, handler.tokensIn_retry, and_assoc,
      and_left_comm]
  | .throw throw_ value =>
    rw [Statement.built, Statement.node, Node.passes_iff_of_checked (by trivial), Child.pass_token,
      Child.pass_node]
    exact DecidesFrom.congr value.decides.lift.map (and_iff_left Child.pass_nil).symm
  | .break break_ =>
    rw [Statement.built, Statement.node, Node.passes_iff_of_checked (by trivial), Child.pass_token]
    exact fun _ => Child.pass_nil
  | .continue continue_ =>
    rw [Statement.built, Statement.node, Node.passes_iff_of_checked (by trivial), Child.pass_token]
    exact fun _ => Child.pass_nil
  | .returnNothing return_ =>
    rw [Statement.built, Statement.node, Node.passes_iff_of_checked (by trivial), Child.pass_token]
    exact fun _ => Child.pass_nil
  | .returnValue return_ value =>
    rw [Statement.built, Statement.node, Node.passes_iff_of_checked (by trivial), Child.pass_token,
      Child.pass_node]
    exact DecidesFrom.congr value.decides.lift.map (and_iff_left Child.pass_nil).symm

theorem Statements.decides (d : Statements) :
    DecidesFrom d.built (∀ n ∈ d.nodes, n.Passes) := by
  match d with
  | .nil =>
    rw [Statements.built, Statements.nodes]
    exact fun _ => List.forall_mem_nil _
  | .cons first rest =>
    rw [Statements.built, Statements.nodes, List.forall_mem_cons]
    exact first.decides.bind fun _ => rest.decides.map

theorem Block.decides (d : Block) : DecidesFrom d.built d.node.Passes := by
  match d with
  | .mk start statements stop =>
    rw [Block.built, Block.node, Node.passes_iff_of_checked (by trivial), Child.pass_map_node]
    exact statements.decides.map

theorem Condition.decides (d : Condition) : DecidesFrom d.built (Child.Pass d.children) := by
  match d with
  | .mk start test stop body =>
    rw [Condition.built, Condition.children, Child.pass_node, Child.pass_node]
    refine DecidesFrom.congr (test.decides.lift.bind fun _ => body.decides.map) ?_
    simp

theorem ElseClauses.decides (d : ElseClauses) : DecidesFrom d.built (Child.Pass d.children) := by
  match d with
  | .none =>
    rw [ElseClauses.built, ElseClauses.children]
    exact fun _ => Child.pass_nil
  | .elseIf else_ if_ condition rest =>
    rw [ElseClauses.built, ElseClauses.children, Child.pass_token, Child.pass_token,
      Child.pass_append]
    exact condition.decides.bind fun _ => rest.decides.map
  | .last else_ body =>
    rw [ElseClauses.built, ElseClauses.children, Child.pass_token, Child.pass_node]
    exact DecidesFrom.congr body.decides.map (and_iff_left Child.pass_nil).symm

theorem Loop.decides (d : Loop) : DecidesFrom d.built d.node.Passes := by
  match d with
  | .mk for_ start name in_ items stop body =>
    rw [Loop.built, Loop.node, Node.passes_mk, Child.pass_token, Child.pass_token,
      Child.pass_node, Child.pass_node]
    refine DecidesFrom.congr ((decides_loopHead name items).lift.bind fun _ =>
      body.decides.map) ?_
    simp [Node.Checked, Node.rule, items.ofNode_node, and_assoc, and_left_comm]

theorem ParallelBody.decides (d : ParallelBody) :
    DecidesFrom d.built (Child.Pass d.children) := by
  match d with
  | .loop loop =>
    rw [ParallelBody.built, ParallelBody.children, Child.pass_node]
    exact DecidesFrom.congr loop.decides.map (and_iff_left Child.pass_nil).symm
  | .branches branch body rest =>
    rw [ParallelBody.built, ParallelBody.children, Child.pass_token, Child.pass_node]
    exact body.decides.bind fun _ => rest.decides.map

theorem Branches.decides (d : Branches) : DecidesFrom d.built (Child.Pass d.children) := by
  match d with
  | .nil =>
    rw [Branches.built, Branches.children]
    exact fun _ => Child.pass_nil
  | .cons branch body rest =>
    rw [Branches.built, Branches.children, Child.pass_token, Child.pass_node]
    exact body.decides.bind fun _ => rest.decides.map

theorem Handler.decides (d : Handler) : DecidesFrom d.built (Child.Pass d.children) := by
  match d with
  | .none =>
    rw [Handler.built, Handler.children]
    exact fun _ => Child.pass_nil
  | .some catch_ start name stop body =>
    rw [Handler.built, Handler.children, Child.pass_token, Child.pass_token, Child.pass_node]
    exact DecidesFrom.congr body.decides.map (and_iff_left Child.pass_nil).symm

end

/-! ## Programs -/

theorem Parameter.passes_node (d : Parameter) : d.node.Passes := by
  cases d with
  | plain name =>
    rw [Parameter.node, Node.passes_iff_of_checked (by trivial), Child.pass_token]
    exact Child.pass_nil
  | default name assign value =>
    rw [Parameter.node, Node.passes_iff_of_checked (by trivial), Child.pass_token,
      Child.pass_node]
    exact ⟨passes_literalNode value, Child.pass_nil⟩

theorem Parameters.passes_nodes (d : Parameters) : ∀ n ∈ d.nodes, n.Passes := by
  induction d with
  | last parameter => exact List.forall_mem_singleton.mpr parameter.passes_node
  | cons parameter comma rest ih => exact List.forall_mem_cons.mpr ⟨parameter.passes_node, ih⟩

theorem ParametersUpTo.passes_node (d : ParametersUpTo) : d.node.Passes := by
  rw [ParametersUpTo.node, Node.passes_iff_of_checked (by trivial), Child.pass_map_node]
  cases d with
  | none stop => exact List.forall_mem_nil _
  | some parameters stop => exact parameters.passes_nodes

theorem Definition.decides (d : Definition) : DecidesFrom d.built d.node.Passes := by
  cases d with
  | mk workflow name start parameters body =>
    rw [Definition.built, Definition.node, Node.passes_iff_of_checked (by trivial),
      Child.pass_token, Child.pass_token, Child.pass_node, Child.pass_node]
    refine DecidesFrom.congr body.decides.map ?_
    simp [parameters.passes_node]

theorem Program.decides (p : Program) :
    DecidesFrom (Program.built p) (∀ d ∈ p, d.node.Passes) := by
  induction p with
  | nil => exact fun _ => List.forall_mem_nil _
  | cons d rest ih =>
    rw [Program.built, List.forall_mem_cons]
    exact d.decides.bind fun _ => ih.map

/-- The tree of a program is built exactly if each of its nodes is checked. -/
theorem Program.decides_node (p : Program) (stop : Position) :
    Decides (Workflow.Program.ofTree (Program.node stop p)) (Program.node stop p).Passes := by
  have hpasses : (Program.node stop p).Passes ↔ ∀ d ∈ p, d.node.Passes := by
    rw [Program.node, Node.passes_iff_of_checked (by trivial), Child.pass_map_node,
      List.forall_mem_map]
  have hdecides := p.decides 0
  rw [Program.ofTree_node, hpasses]
  cases hbuilt : Program.built p 0 with
  | error e =>
    rw [hbuilt] at hdecides
    exact hdecides
  | ok result =>
    rw [hbuilt] at hdecides
    exact hdecides

end Phrase

/-- A tree that is read from tokens is that of a settled program of the tokens in front of the end
of input. -/
theorem exists_program_of_ofTokens {tokens : List Token} {tree : Node}
    (h : Node.ofTokens tokens = .ok tree) :
    ∃ (p : Phrase.Program) (stop : Position), p.Settled ∧ p.node stop = tree ∧
      p.tokens = tokens.takeWhile (·.lexeme ≠ .endOfInput) := by
  rw [Node.ofTokens] at h
  split at h
  · cases h
  · split at h
    · cases h
    · obtain ⟨found, hfound, h⟩ := bind_eq_ok.mp h
      cases h
      obtain ⟨p, hp, rfl, hsettled⟩ := exists_definitions hfound
      rw [hp]
      exact ⟨p, _, hsettled, rfl, rfl⟩

theorem decides_ofTree {tokens : List Token} {tree : Node}
    (h : parseTokens tokens = .ok tree) : Decides (Program.ofTree tree) tree.Passes := by
  obtain ⟨p, stop, _, rfl, _⟩ := exists_program_of_ofTokens (mapError_eq_ok.mp h)
  exact p.decides_node stop

/-- A tree that is read from tokens is not malformed. -/
theorem report_buildProgram {tokens : List Token} {tree : Node} {failure : Failure}
    (h : parseTokens tokens = .ok tree) (hf : buildProgram tree = .error failure) :
    (Report.ofFailure failure).kind = .postParsing ∧
      (Report.ofFailure failure).position.isSome = true := by
  obtain ⟨e, he, rfl⟩ := mapError_eq_error hf
  obtain ⟨defect, position, rfl⟩ := (decides_ofTree h).onlyDefects e he
  exact ⟨rfl, rfl⟩

theorem report_parse {source : String} {failure : Failure} (h : parse source = .error failure) :
    (Report.ofFailure failure).kind ≠ .internal := by
  obtain h | ⟨tokens, _, h⟩ := bind_eq_error.mp h
  · obtain ⟨e, _, rfl⟩ := mapError_eq_error h
    exact ReportKind.noConfusion
  · obtain ⟨e, _, rfl⟩ := mapError_eq_error h
    cases e with
    | _ => exact ReportKind.noConfusion

/-- A tree that is read from tokens is built into a program exactly if every node of it passes its
own check, and any other is reported with a position; so no source text has a tree that is
malformed. -/
theorem buildProgram_checks :
    (∀ tokens tree, parseTokens tokens = .ok tree →
      ((∃ program, buildProgram tree = .ok program) ↔ ∀ n ∈ tree.all, n.Checked) ∧
      ∀ failure, buildProgram tree = .error failure →
        (Report.ofFailure failure).kind = .postParsing ∧
          (Report.ofFailure failure).position.isSome = true) ∧
    ∀ disabled source failure, compile disabled source = .error failure →
      (Report.ofFailure failure).kind ≠ .internal := by
  refine ⟨fun tokens tree h => ⟨?_, fun failure => report_buildProgram h⟩, ?_⟩
  · simp only [buildProgram, mapError_eq_ok]
    exact (decides_ofTree h).exists_ok_iff
  · intro disabled source failure h
    obtain hbuild | ⟨program, _, h⟩ := bind_eq_error.mp h
    · obtain hparse | ⟨tree, hparse, hbuild⟩ := bind_eq_error.mp hbuild
      · exact report_parse hparse
      · obtain ⟨tokens, _, hparse⟩ := bind_eq_ok.mp hparse
        rw [(report_buildProgram hparse hbuild).1]
        decide
    · obtain hissues | ⟨_, _, h⟩ := bind_eq_error.mp h
      · rw [validate] at hissues
        split at hissues
        · cases hissues
        · cases hissues
          exact ReportKind.noConfusion
      · cases h

/-- A call that repeats the name of an argument, and one that does not. -/
theorem buildProgram_checks_sample :
    (∃ tree, parse "workflow w() \x7b f(a = x[0], a = 2) \x7d" = .ok tree ∧
      (∃ n ∈ tree.all, ¬ n.Checked) ∧
      ∃ failure, buildProgram tree = .error failure ∧
        (Report.ofFailure failure).kind = .postParsing) ∧
    ∃ tree, parse "workflow w() \x7b f(a = x[0], b = 2) \x7d" = .ok tree ∧
      ∀ n ∈ tree.all, n.Checked := by
  have hread : ∀ {source : String}, (parse source).toOption.isSome = true →
      ∃ tokens tree, parseTokens tokens = .ok tree ∧ parse source = .ok tree := by
    intro source hsome
    obtain ⟨tree, htree⟩ := Option.isSome_iff_exists.mp hsome
    obtain ⟨tokens, _, hparse⟩ := bind_eq_ok.mp (eq_ok_of_toOption htree)
    exact ⟨tokens, tree, hparse, eq_ok_of_toOption htree⟩
  constructor
  · obtain ⟨tokens, tree, hparse, htree⟩ : ∃ tokens tree, parseTokens tokens = .ok tree ∧
        parse "workflow w() \x7b f(a = x[0], a = 2) \x7d" = .ok tree := hread (by decide +kernel)
    have hfails : (build "workflow w() \x7b f(a = x[0], a = 2) \x7d").toOption.isSome = false := by
      decide +kernel
    have hchecks := buildProgram_checks.1 tokens tree hparse
    rw [build, htree] at hfails
    cases hbuild : buildProgram tree with
    | ok program =>
      rw [ok_bind, hbuild] at hfails
      cases hfails
    | error failure =>
      refine ⟨tree, htree, ?_, failure, hbuild, (hchecks.2 failure hbuild).1⟩
      by_contra hnone
      have hall : ∀ n ∈ tree.all, n.Checked :=
        fun n hn => by_contra fun hfault => hnone ⟨n, hn, hfault⟩
      obtain ⟨program, hprogram⟩ := hchecks.1.mpr hall
      cases hprogram.symm.trans hbuild
  · obtain ⟨tokens, tree, hparse, htree⟩ : ∃ tokens tree, parseTokens tokens = .ok tree ∧
        parse "workflow w() \x7b f(a = x[0], b = 2) \x7d" = .ok tree := hread (by decide +kernel)
    have hbuilds : (build "workflow w() \x7b f(a = x[0], b = 2) \x7d").toOption.isSome = true := by
      decide +kernel
    rw [build, htree] at hbuilds
    obtain ⟨program, hprogram⟩ := Option.isSome_iff_exists.mp hbuilds
    exact ⟨tree, htree, (buildProgram_checks.1 tokens tree hparse).1.mp
      ⟨program, eq_ok_of_toOption hprogram⟩⟩

end Workflow
