import Workflow.Program.OfTree
import Workflow.Proofs.Build.Expression

/-!
# Programs of phrases

What the tree of a program is built into, said by recursion on the phrase.
-/

namespace Workflow.Phrase

open Grammar

/-! ## Arguments -/

def NamedArguments.built : NamedArguments → Except BuildError (List NamedArgument)
  | .last name _ value => do
    let e ← value.built
    return [⟨name.val.image, e, name.val.position⟩]
  | .cons name _ value _ rest => do
    let e ← value.built
    let others ← rest.built
    return ⟨name.val.image, e, name.val.position⟩ :: others

def NamedUpTo.built : NamedUpTo → Except BuildError (List NamedArgument)
  | .mk args _ => args.built

def Clause.built : Clause → Except BuildError (List NamedArgument)
  | .mk _ args => args.built

def NamedOrNone.built : NamedOrNone → Except BuildError (List (String × Expr))
  | .none _ => return []
  | .some args => do NamedArgument.callArguments (← args.built)

/-- The step of a call statement. -/
def CallArguments.built (name : String) : CallArguments → Except BuildError RawStep
  | .named args => do
    let args ← NamedArgument.callArguments (← args.built)
    return (Action.call name args none).raw
  | .positional (.none _) => return (Action.call name [] none).raw
  | .positional (.some args _) => do
    let args ← args.built
    return (Action.assign [("", Expr.ofOperand (.call name args))]).raw

def Options.built : Options → Except BuildError ParallelOptions
  | .none => return .empty
  | .some clause => do ParallelOptions.ofArguments (← clause.built)

def Retry.built : Retry → Except BuildError (Option RetryPolicy)
  | .none => return Option.none
  | .some retry clause => do
    let args ← clause.built
    return Option.some (← RetryPolicy.ofArguments args retry.val.position)

/-- The head of a loop over some items. -/
def loopHead (name : Tok .identifier) (items : Expression) : Except BuildError LoopHead := do
  let e ← items.built
  if e.literal?.any fun d => !d.isArray then throw (.defect .notIterable items.node.position)
  return ⟨name.val.image, none, .items e⟩

/-! ## Statements -/

mutual

def Statement.built : Statement → Build (List RawStep)
  | .assignCall target _ name _ args => do
    let target ← target.text
    let args ← args.built
    if Text.isSimpleName target then return [(Action.call name.text args (some target)).raw]
    let temporary ← freshTemporary
    return [(Action.call name.text args (some temporary)).raw,
      (Action.assign [(target, Expr.reference temporary)]).raw]
  | .assign target _ value => do
    let target ← target.text
    let value ← value.built
    return [(Action.assign [(target, value)]).raw]
  | .call name _ args => do
    let step ← args.built name.text
    return [step]
  | .conditional _ first others => do
    let case ← first.built
    let cases ← others.built
    return [(Action.switch (case :: cases) none).raw]
  | .loop loop => do
    let (head, body) ← loop.built
    return [(Action.loop head body).raw]
  | .parallel _ options body => do
    let options ← options.built
    let action ← body.built
    return [(action options).raw]
  | .attempt _ body retry handler => do
    let body ← body.built
    let retry ← retry.built
    let (name, handler) ← handler.built
    return [(Action.attempt body retry name handler).raw]
  | .throw _ value => do
    let value ← value.built
    return [(Action.raise value).raw]
  | .break _ => return [(Action.next "break").raw]
  | .continue _ => return [(Action.next "continue").raw]
  | .returnNothing _ => return [(Action.return none).raw]
  | .returnValue _ value => do
    let value ← value.built
    return [(Action.return (some value)).raw]

def Statements.built : Statements → Build (List RawStep)
  | .nil => return []
  | .cons first rest => do
    let steps ← first.built
    let others ← rest.built
    return steps ++ others

def Block.built : Block → Build (List RawStep)
  | .mk _ statements _ => do
    let steps ← statements.built
    return Step.merge steps

def Condition.built : Condition → Build (Case Unit)
  | .mk _ test _ body => do
    let condition ← test.built
    let body ← body.built
    return .mk condition body none

def ElseClauses.built : ElseClauses → Build (List (Case Unit))
  | .none => return []
  | .elseIf _ _ condition rest => do
    let case ← condition.built
    let others ← rest.built
    return case :: others
  | .last _ body => do
    let body ← body.built
    return [.mk (Expr.ofOperand (.primitive (.bool true))) body none]

def Loop.built : Loop → Build (LoopHead × List RawStep)
  | .mk _ _ name _ items _ body => do
    let head ← loopHead name items
    let body ← body.built
    return (head, body)

/-- What a parallel statement does, for its options. -/
def ParallelBody.built : ParallelBody → Build (ParallelOptions → Action Unit)
  | .loop loop => do
    let (head, body) ← loop.built
    return fun options => .parallelLoop options head body
  | .branches _ body rest => do
    let body ← body.built
    let others ← rest.built
    return fun options => .branches options ((Action.steps body).raw :: others)

def Branches.built : Branches → Build (List RawStep)
  | .nil => return []
  | .cons _ body rest => do
    let body ← body.built
    let others ← rest.built
    return (Action.steps body).raw :: others

def Handler.built : Handler → Build (Option String × List RawStep)
  | .none => return (none, [])
  | .some _ _ name _ body => do
    let body ← body.built
    return (some name.val.image, body)

end

def Parameter.built : Parameter → Workflow.Parameter
  | .plain name => ⟨name.val.image, none⟩
  | .default name _ value => ⟨name.val.image, some (primitiveOf value)⟩

def Parameters.built : Parameters → List Workflow.Parameter
  | .last parameter => [parameter.built]
  | .cons parameter _ rest => parameter.built :: rest.built

def ParametersUpTo.built : ParametersUpTo → List Workflow.Parameter
  | .none _ => []
  | .some parameters _ => parameters.built

def Definition.built : Definition → Build (Subworkflow Unit)
  | .mk _ name _ parameters body => do
    let steps ← body.built
    return ⟨name.val.image, parameters.built, steps⟩

def Program.built : Program → Build (Workflow.Program Unit)
  | [] => return []
  | d :: rest => do
    let w ← d.built
    let others ← Program.built rest
    return w :: others

/-! ## Trees -/

theorem NamedArguments.length_names (d : NamedArguments) :
    (tokensIn .identifier d.children).length = (nodesIn .expression d.children).length := by
  induction d with
  | last name assign value => rfl
  | cons name assign value comma rest ih => simpa [NamedArguments.children] using ih

theorem NamedArguments.ofPairs_children (d : NamedArguments) :
    NamedArgument.ofPairs (tokensIn .identifier d.children) (nodesIn .expression d.children) =
      d.built := by
  induction d with
  | last name assign value =>
    simp only [NamedArguments.children, tokensIn_token, tokensIn_node, nodesIn_node, nodesIn_token,
      if_true, tokensIn_nil, nodesIn_nil]
    rw [NamedArgument.ofPairs, value.ofNode_node]
    rfl
  | cons name assign value comma rest ih =>
    simp only [NamedArguments.children, tokensIn_token, tokensIn_node, nodesIn_node, nodesIn_token,
      if_true]
    rw [NamedArgument.ofPairs, value.ofNode_node, ih]
    rfl

theorem NamedUpTo.exists_listOfNode (d : NamedUpTo) :
    ∃ n, d.child = .node .actualNamedParameterList n ∧ NamedArgument.listOfNode n = d.built := by
  cases d with
  | mk args stop =>
    refine ⟨_, rfl, ?_⟩
    rw [NamedArgument.listOfNode]
    dsimp only
    rw [Node.tokens_mk, Node.nodes_mk, if_neg (by simpa using args.length_names),
      args.ofPairs_children]
    rfl

theorem Clause.exists_listOfNode (d : Clause) :
    ∃ n, d.child = .node .actualNamedParameterList n ∧ NamedArgument.listOfNode n = d.built := by
  cases d with
  | mk start args => exact args.exists_listOfNode

theorem NamedOrNone.argumentsOf_children (d : NamedOrNone) :
    argumentsOf (nodesIn .actualNamedParameterList d.children).head? = d.built := by
  cases d with
  | none stop => rfl
  | some args =>
    obtain ⟨n, hchild, hlist⟩ := args.exists_listOfNode
    rw [NamedOrNone.children, hchild, nodesIn_node, if_pos rfl, NamedOrNone.built, ← hlist]
    rfl

theorem Options.ofNode_children (d : Options) (n : Node)
    (h : n.nodes .actualNamedParameterList = nodesIn .actualNamedParameterList d.children) :
    ParallelOptions.ofNode n = d.built := by
  rw [ParallelOptions.ofNode, Node.child?_eq, h]
  cases d with
  | none => rfl
  | some clause =>
    obtain ⟨n, hchild, hlist⟩ := clause.exists_listOfNode
    rw [Options.children, hchild, nodesIn_node, if_pos rfl, Options.built, ← hlist]
    rfl

theorem Retry.ofNode_children (d : Retry) (n : Node)
    (h : n.nodes .actualNamedParameterList = nodesIn .actualNamedParameterList d.children)
    (ht : n.tokens .retry = tokensIn .retry d.children) : RetryPolicy.ofNode n = d.built := by
  rw [RetryPolicy.ofNode, Node.token?, ht]
  cases d with
  | none => rfl
  | some retry clause =>
    obtain ⟨c, hchild, hlist⟩ := clause.exists_listOfNode
    rw [Retry.children, hchild] at h
    obtain ⟨_, hnode⟩ := Node.requireNode_of_nodes_cons h
    rw [Retry.children, tokensIn_token, if_pos rfl, Retry.built, ← hlist]
    dsimp only [List.head?_cons]
    rw [hnode]
    rfl

/-- A lookup that succeeds. -/
theorem lookup_ok_bind {α β : Type} (a : α) (f : α → Build β) :
    ((liftM (Except.ok a : Except Malformation α) : Build α) >>= f) = f a := rfl

/-- The node of a call statement. -/
abbrev callStatement (name : QualifiedName) (args : CallArguments) : Node :=
  .mk .callOrAssignment (place name.tokens) (.node .qualifiedName name.node :: args.children)

theorem CallArguments.ofBareCall (d : CallArguments) (name : QualifiedName) :
    Step.ofBareCall (callStatement name d) = d.built name.text := by
  have hnames : (callStatement name d).nodes .qualifiedName =
      name.node :: nodesIn .qualifiedName d.children := by
    simp
  obtain ⟨_, hname⟩ := Node.requireNode_of_nodes_cons hnames
  rw [Step.ofBareCall, hname]
  show (dottedName name.node >>= fun name => _) = _
  rw [dottedName_node, ok_bind, Node.child?_eq, Node.child?_eq]
  match d with
  | .named args =>
    obtain ⟨n, hchild, hlist⟩ := args.exists_listOfNode
    have hnone : (callStatement name (.named args)).nodes .actualParameterList = [] := by
      simp [CallArguments.children, hchild]
    have hsome : (callStatement name (.named args)).nodes .actualNamedParameterList = [n] := by
      simp [CallArguments.children, hchild]
    rw [hnone, hsome, CallArguments.built, ← hlist]
    dsimp only [List.head?_nil, List.head?_cons]
    rw [argumentsOf, bind_assoc]
  | .positional (.none stop) => rfl
  | .positional (.some args stop) =>
    obtain ⟨n, rest, hnodes⟩ := args.exists_nodes
    have hsome : (callStatement name (.positional (.some args stop))).nodes .actualParameterList =
        [.mk .actualParameterList (place (ArgumentsUpTo.some args stop).tokens)
          (args.nodes.map (.node .expression))] := by
      simp [CallArguments.children, ArgumentsUpTo.nodes, hnodes, argumentChild]
    rw [hsome, CallArguments.built, ← args.ofNodes_nodes]
    dsimp only [List.head?_cons]
    rw [Expr.listOfNode, Node.nodes_mk, nodesIn_map_node, if_pos rfl]
    rfl

theorem CallArguments.variableReference_children (d : CallArguments) :
    nodesIn .variableReference d.children = [] := by
  match d with
  | .named args =>
    obtain ⟨n, hchild, -⟩ := args.exists_listOfNode
    simp [CallArguments.children, hchild]
  | .positional (.none stop) => rfl
  | .positional (.some args stop) =>
    obtain ⟨n, rest, hnodes⟩ := args.exists_nodes
    simp [CallArguments.children, ArgumentsUpTo.nodes, hnodes, argumentChild]

/-- The node of a call whose result is assigned. -/
abbrev namedCallNode (name : QualifiedName) (args : NamedOrNone) : Node :=
  .mk .namedCall (place name.tokens) (.node .qualifiedName name.node :: args.children)

theorem NamedOrNone.argumentsOf_namedCallNode (d : NamedOrNone) (name : QualifiedName) :
    argumentsOf ((namedCallNode name d).child? .actualNamedParameterList) = d.built := by
  rw [Node.child?_eq, Node.nodes_mk, nodesIn_node, if_neg (by decide), d.argumentsOf_children]

theorem exists_namedCallNode (name : QualifiedName) (args : NamedOrNone) :
    ∃ h, (namedCallNode name args).requireNode .qualifiedName = .ok ⟨name.node, h⟩ := by
  have hnames : (namedCallNode name args).nodes .qualifiedName =
      name.node :: nodesIn .qualifiedName args.children := by
    simp
  exact Node.requireNode_of_nodes_cons hnames

theorem loopHead_node (for_ : Word .for) (start : Sign .lparen) (name : Tok .identifier)
    (in_ : Word .in) (items : Expression) (stop : Sign .rparen) (body : Block) :
    LoopHead.ofNode (Loop.mk for_ start name in_ items stop body).node = loopHead name items := by
  have hitems : (Loop.mk for_ start name in_ items stop body).node.nodes .expression =
      [items.node] := by
    simp [Loop.node]
  obtain ⟨_, hnode⟩ := Node.requireNode_of_nodes_cons hitems
  rw [LoopHead.ofNode, hnode, loopHead, ← items.ofNode_node]
  rfl

theorem ofNodes_cons_cons (condition n : Node) (conditions rest : List Node) :
    Case.ofNodes (condition :: conditions) (n :: rest) = (do
      let condition ← (liftM (Expr.ofNode condition) : Build Expr)
      let body ← Step.ofBlock n
      let others ← Case.ofNodes conditions rest
      return .mk condition body none :: others) := by
  rw [Case.ofNodes.eq_def]
  rfl

theorem ofNodes_nil_cons (n : Node) (rest : List Node) :
    Case.ofNodes [] (n :: rest) = (do
      let body ← Step.ofBlock n
      let others ← Case.ofNodes [] rest
      return .mk (Expr.ofOperand (.primitive (.bool true))) body none :: others) := by
  rw [Case.ofNodes.eq_def]
  rfl

theorem ofNodes_nil_right (conditions : List Node) :
    Case.ofNodes conditions [] = return [] := by
  rw [Case.ofNodes.eq_def]

theorem ElseClauses.length_blocks (d : ElseClauses) :
    (nodesIn .statementBlock d.children).length = (nodesIn .expression d.children).length ∨
      (nodesIn .statementBlock d.children).length =
        (nodesIn .expression d.children).length + 1 := by
  match d with
  | .none => exact .inl rfl
  | .elseIf else_ if_ (.mk start test stop body) rest =>
    have ih := rest.length_blocks
    simp [ElseClauses.children, Condition.children]
    omega
  | .last else_ body => exact .inr rfl

theorem Options.nodesIn_of_ne (d : Options) {slot : Slot}
    (h : Slot.actualNamedParameterList ≠ slot) : nodesIn slot d.children = [] := by
  cases d with
  | none => rfl
  | some clause =>
    obtain ⟨n, hchild, -⟩ := clause.exists_listOfNode
    simp [Options.children, hchild, h]

theorem Retry.nodesIn_of_ne (d : Retry) {slot : Slot}
    (h : Slot.actualNamedParameterList ≠ slot) : nodesIn slot d.children = [] := by
  cases d with
  | none => rfl
  | some retry clause =>
    obtain ⟨n, hchild, -⟩ := clause.exists_listOfNode
    simp [Retry.children, hchild, h]

theorem Retry.tokensIn_of_ne (d : Retry) {slot : Slot} (h : Slot.retry ≠ slot) :
    tokensIn slot d.children = [] := by
  cases d with
  | none => rfl
  | some retry clause =>
    obtain ⟨n, hchild, -⟩ := clause.exists_listOfNode
    simp [Retry.children, hchild, h]

theorem Branches.nodesIn_of_ne (d : Branches) {slot : Slot} (h : Slot.statementBlock ≠ slot) :
    nodesIn slot d.children = [] := by
  match d with
  | .nil => rfl
  | .cons branch body rest => simpa [Branches.children, h] using rest.nodesIn_of_ne h

theorem ParallelBody.nodesIn_named (d : ParallelBody) :
    nodesIn .actualNamedParameterList d.children = [] := by
  cases d with
  | loop loop => rfl
  | branches branch body rest =>
    simpa [ParallelBody.children] using rest.nodesIn_of_ne (by decide)

mutual

theorem Statement.ofNode_node (d : Statement) : Step.ofNode d.node = d.built := by
  match d with
  | .assignCall target assign name start args =>
    rw [Statement.node, Step.ofNode]
    show Step.ofCallOrAssignment _ = _
    have htarget : (Statement.assignCall target assign name start args).node.child?
        .variableReference = some target.node := by
      rw [Node.child?_eq, Statement.node]
      rfl
    have hcall : (Statement.assignCall target assign name start args).node.child? .namedCall =
        some (namedCallNode name args) := by
      rw [Node.child?_eq, Statement.node]
      rfl
    rw [Statement.node] at htarget hcall
    rw [Step.ofCallOrAssignment, htarget]
    dsimp only
    rw [hcall]
    dsimp only
    obtain ⟨_, hname⟩ := exists_namedCallNode name args
    rw [hname, args.argumentsOf_namedCallNode, target.referenceText_node, Statement.built]
    simp only [lookup_ok_bind, dottedName_node]
    rfl
  | .assign target assign value =>
    rw [Statement.node, Step.ofNode]
    show Step.ofCallOrAssignment _ = _
    rw [Step.ofCallOrAssignment, Statement.built, ← target.referenceText_node, ← value.ofNode_node]
    rfl
  | .call name start args =>
    rw [Statement.node, Step.ofNode]
    show Step.ofCallOrAssignment (callStatement name args) = _
    have hnone : (callStatement name args).child? .variableReference = none := by
      rw [Node.child?_eq, Node.nodes_mk, nodesIn_node, if_neg (by decide),
        args.variableReference_children]
      rfl
    rw [Step.ofCallOrAssignment, hnone, Statement.built, ← args.ofBareCall name]
    rfl
  | .conditional if_ (.mk start test stop body) others =>
    have hconditions : (Statement.conditional if_ (.mk start test stop body) others).node.nodes
        .expression = test.node :: nodesIn .expression others.children := by
      simp [Statement.node, Condition.children]
    have hblocks : (Statement.conditional if_ (.mk start test stop body) others).node.nodes
        .statementBlock = body.node :: nodesIn .statementBlock others.children := by
      simp [Statement.node, Condition.children]
    rw [Statement.node] at hconditions hblocks ⊢
    rw [Step.ofNode]
    dsimp only [Node.rule]
    rw [hconditions, hblocks, if_neg]
    · rw [ofNodes_cons_cons, test.ofNode_node, body.ofBlock_node, others.ofNodes_children,
        Statement.built, Condition.built]
      simp only [bind_assoc, pure_bind]
    · have := others.length_blocks
      simp only [List.length_cons]
      omega
  | .loop loop =>
    have hrule : loop.node.rule = .forStatement := by
      cases loop
      rfl
    rw [Statement.node, Step.ofNode, hrule]
    exact loop.bind_node fun head body => return [(Action.loop head body).raw]
  | .parallel parallel options body =>
    have hnamed : (Statement.parallel parallel options body).node.nodes
        .actualNamedParameterList = nodesIn .actualNamedParameterList options.children := by
      simp [Statement.node, body.nodesIn_named]
    have hnodes : ∀ slot, Slot.actualNamedParameterList ≠ slot →
        (Statement.parallel parallel options body).node.nodes slot =
          nodesIn slot body.children := by
      intro slot h
      simp [Statement.node, options.nodesIn_of_ne h]
    rw [Statement.node] at hnamed hnodes ⊢
    rw [Step.ofNode]
    dsimp only [Node.rule]
    rw [options.ofNode_children _ hnamed, Statement.built]
    congr 1
    funext options
    match body with
    | .loop loop =>
      obtain ⟨_, hloop⟩ := Node.node?_of_nodes_cons (hnodes .forStatement (by decide))
      rw [hloop, ParallelBody.built, bind_assoc]
      refine (loop.bind_node fun head body =>
        return [(Action.parallelLoop options head body).raw]).trans ?_
      simp only [pure_bind]
    | .branches branch body rest =>
      have hfor : nodesIn .forStatement (ParallelBody.branches branch body rest).children = [] := by
        simpa [ParallelBody.children] using rest.nodesIn_of_ne (by decide)
      have hblocks : nodesIn .statementBlock (ParallelBody.branches branch body rest).children =
          body.node :: nodesIn .statementBlock rest.children := by
        simp [ParallelBody.children]
      rw [Node.node?_of_nodes_nil ((hnodes .forStatement (by decide)).trans hfor)]
      dsimp only
      rw [hnodes .statementBlock (by decide), hblocks, Step.ofBranches, body.ofBlock_node,
        rest.ofBranches_children, ParallelBody.built]
      simp only [bind_assoc, pure_bind]
      rfl
  | .attempt try_ body retry handler =>
    have htry : (Statement.attempt try_ body retry handler).node.nodes .tryBlock =
        body.node :: nodesIn .tryBlock handler.children := by
      simp [Statement.node, retry.nodesIn_of_ne]
    have hnamed : (Statement.attempt try_ body retry handler).node.nodes
        .actualNamedParameterList = nodesIn .actualNamedParameterList retry.children := by
      cases handler with
      | none => simp [Statement.node, Handler.children]
      | some catch_ start name stop body => simp [Statement.node, Handler.children]
    have hretry : (Statement.attempt try_ body retry handler).node.tokens .retry =
        tokensIn .retry retry.children := by
      cases handler with
      | none => simp [Statement.node, Handler.children]
      | some catch_ start name stop body => simp [Statement.node, Handler.children]
    have hcatch : (Statement.attempt try_ body retry handler).node.nodes .catchBlock =
        nodesIn .catchBlock handler.children := by
      simp [Statement.node, retry.nodesIn_of_ne]
    have hname : (Statement.attempt try_ body retry handler).node.tokens .identifier =
        tokensIn .identifier handler.children := by
      simp [Statement.node, retry.tokensIn_of_ne]
    rw [Statement.node] at htry hnamed hretry hcatch hname ⊢
    obtain ⟨_, hblock⟩ := Node.requireNode_of_nodes_cons htry
    rw [Step.ofNode]
    dsimp only [Node.rule]
    rw [hblock, lookup_ok_bind]
    dsimp only
    rw [body.ofBlock_node, retry.ofNode_children _ hnamed hretry, Statement.built]
    congr 1
    funext body
    congr 1
    funext retry
    match handler with
    | .none =>
      rw [Node.node?_of_nodes_nil hcatch]
      rfl
    | .some catch_ start name stop body =>
      obtain ⟨_, hcatch⟩ := Node.node?_of_nodes_cons hcatch
      rw [hcatch]
      dsimp only
      rw [Node.requireToken, Node.token?, hname, body.ofBlock_node, Handler.built]
      simp only [bind_assoc, pure_bind]
      rfl
  | .throw throw_ value =>
    rw [Statement.node, Step.ofNode, Statement.built, ← value.ofNode_node]
    rfl
  | .break break_ =>
    rw [Statement.node, Step.ofNode]
    rfl
  | .continue continue_ =>
    rw [Statement.node, Step.ofNode]
    rfl
  | .returnNothing return_ =>
    rw [Statement.node, Step.ofNode]
    rfl
  | .returnValue return_ value =>
    rw [Statement.node, Step.ofNode, Statement.built, ← value.ofNode_node]
    rfl

theorem Loop.bind_node {α : Type} (d : Loop) (f : LoopHead → List RawStep → Build α) :
    (do
      let head ← LoopHead.ofNode d.node
      let block ← d.node.requireNode .statementBlock
      let body ← Step.ofBlock block.val
      f head body) = (do
      let (head, body) ← d.built
      f head body) := by
  match d with
  | .mk for_ start name in_ items stop body =>
    have hblock : (Loop.mk for_ start name in_ items stop body).node.nodes .statementBlock =
        [body.node] := by
      simp [Loop.node]
    obtain ⟨_, hnode⟩ := Node.requireNode_of_nodes_cons hblock
    rw [loopHead_node, hnode, Loop.built, ← body.ofBlock_node]
    simp only [bind_assoc, pure_bind, lookup_ok_bind]

theorem Branches.ofBranches_children (d : Branches) :
    Step.ofBranches (nodesIn .statementBlock d.children) = d.built := by
  match d with
  | .nil =>
    rw [Branches.built]
    exact Step.ofBranches.eq_1
  | .cons branch body rest =>
    have ih := rest.ofBranches_children
    simp only [Branches.children, nodesIn_token, nodesIn_node, if_true]
    rw [Step.ofBranches, body.ofBlock_node, ih, Branches.built]

theorem ElseClauses.ofNodes_children (d : ElseClauses) :
    Case.ofNodes (nodesIn .expression d.children) (nodesIn .statementBlock d.children) =
      d.built := by
  match d with
  | .none =>
    rw [ElseClauses.built]
    exact ofNodes_nil_right _
  | .elseIf else_ if_ (.mk start test stop body) rest =>
    have ih := rest.ofNodes_children
    simp only [ElseClauses.children, Condition.children, List.cons_append, List.nil_append,
      nodesIn_token, nodesIn_node, if_true, reduceCtorEq, if_false]
    rw [ofNodes_cons_cons, test.ofNode_node, body.ofBlock_node, ih, ElseClauses.built,
      Condition.built]
    simp only [bind_assoc, pure_bind]
  | .last else_ body =>
    simp only [ElseClauses.children, nodesIn_token, nodesIn_node, if_true, reduceCtorEq, if_false,
      nodesIn_nil]
    rw [ofNodes_nil_cons, body.ofBlock_node, ofNodes_nil_right, ElseClauses.built]
    rfl

theorem Statements.ofNodes_nodes (d : Statements) : Step.ofNodes d.nodes = d.built := by
  match d with
  | .nil =>
    rw [Statements.nodes, Step.ofNodes, Statements.built]
  | .cons first rest =>
    rw [Statements.nodes, Step.ofNodes, first.ofNode_node, rest.ofNodes_nodes, Statements.built]

theorem Block.ofBlock_node (d : Block) : Step.ofBlock d.node = d.built := by
  match d with
  | .mk start statements stop =>
    rw [Block.node, Step.ofBlock, Block.built]
    dsimp only
    rw [Node.nodes_mk, nodesIn_map_node, if_pos rfl, statements.ofNodes_nodes]
    rfl

end

theorem Parameter.ofNodes_cons (d : Parameter) (rest : List Node) :
    Parameter.ofNodes (d.node :: rest) = (do
      let others ← Parameter.ofNodes rest
      return d.built :: others) := by
  cases d with
  | plain name =>
    rw [Parameter.ofNodes, Node.child?_eq]
    rfl
  | default name assign value =>
    rw [Parameter.ofNodes, Node.child?_eq]
    show ((Primitive.ofNode (literalNode value) >>= fun p => _) >>= fun default => _) = _
    rw [ofNode_literalNode]
    rfl

theorem Parameters.ofNodes_nodes (d : Parameters) : Parameter.ofNodes d.nodes = .ok d.built := by
  induction d with
  | last parameter =>
    rw [Parameters.nodes, parameter.ofNodes_cons, Parameter.ofNodes]
    rfl
  | cons parameter comma rest ih =>
    rw [Parameters.nodes, parameter.ofNodes_cons, ih]
    rfl

theorem ParametersUpTo.ofNodes_nodes (d : ParametersUpTo) :
    Parameter.ofNodes d.nodes = .ok d.built := by
  cases d with
  | none stop => rfl
  | some parameters stop => exact parameters.ofNodes_nodes

theorem Definition.ofNode_node (d : Definition) : Subworkflow.ofNode d.node = d.built := by
  cases d with
  | mk workflow name start parameters body =>
    have hlist : (Definition.mk workflow name start parameters body).node.nodes
        .formalParameterList = [parameters.node] := by
      simp [Definition.node]
    have hblock : (Definition.mk workflow name start parameters body).node.nodes
        .statementBlock = [body.node] := by
      simp [Definition.node]
    obtain ⟨_, hlist⟩ := Node.requireNode_of_nodes_cons hlist
    obtain ⟨_, hblock⟩ := Node.requireNode_of_nodes_cons hblock
    have hnodes : parameters.node.nodes .formalParameter = parameters.nodes := by
      simp [ParametersUpTo.node]
    rw [Subworkflow.ofNode, hlist, hblock]
    simp only [lookup_ok_bind]
    rw [hnodes, parameters.ofNodes_nodes, body.ofBlock_node]
    rfl

theorem Program.ofNodes_nodes (p : Program) :
    Subworkflow.ofNodes (p.map Definition.node) = Program.built p := by
  induction p with
  | nil => rfl
  | cons d rest ih =>
    rw [List.map_cons, Subworkflow.ofNodes, d.ofNode_node, ih]
    rfl

theorem Program.nodes_node (p : Program) (stop : Position) :
    (Program.node stop p).nodes .subworkflowDefinition = p.map Definition.node := by
  rw [Program.node, Node.nodes_mk, nodesIn_map_node, if_pos rfl]

/-- Building the tree of a program. -/
theorem Program.ofTree_node (p : Program) (stop : Position) :
    Workflow.Program.ofTree (Program.node stop p) = (Program.built p 0).map Prod.fst := by
  rw [Workflow.Program.ofTree, Program.nodes_node, Program.ofNodes_nodes]
  show (Program.built p 0 >>= fun result => _) = _
  cases Program.built p 0 with
  | error e => rfl
  | ok result => rfl

end Workflow.Phrase
