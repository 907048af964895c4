import Workflow.Proofs.Build.Blocks
import Workflow.Proofs.Build.StatementFree
import Workflow.Proofs.Program.Places
import Workflow.Proofs.Step.Bindings

/-!
# Calls and their places

A call that is written with a place for its result becomes a call step. Where the place is a bare
name this is its result. Any other place gets a temporary, the next one in source order, and the
step right behind the call assigns this temporary to the place before it does anything else. All
other names that steps bind are written in the source, so that there are no further temporaries.
-/

namespace Workflow

/-! ## What statements bind -/

/-- Whether a statement of this rule can bind something. -/
def Rule.isBinder : Rule → Bool
  | .callOrAssignment | .forStatement | .tryStatement => true
  | _ => false

/-- The statements of a syntax tree that can bind something, in source order. -/
def Node.binders (tree : Node) : List Node := tree.all.filter (·.rule.isBinder)

/-- The target and the arguments of the call that a statement makes for a place. -/
def Node.calledWith (statement : Node) : Except BuildError (String × List (String × Expr)) := do
  let call ← statement.requireNode .namedCall
  let target ← dottedName (← call.val.requireNode .qualifiedName)
  let args ← argumentsOf (call.val.child? .actualNamedParameterList)
  return (target, args)

/-- The names that a statement binds, unless it does so as the result of a call: the place of an
assignment, which is empty where the value of a call is dropped, and what a loop or a `catch`
brings. -/
def Node.otherNames (statement : Node) : List String :=
  match statement.rule with
  | .callOrAssignment =>
    match (statement.nodes .variableReference).head? with
    | some place =>
      if statement.callPlace?.isSome && place.bareName?.isSome then []
      else (referenceText place).toOption.toList
    | none => if statement.has .actualParameterList then [""] else []
  | .forStatement | .tryStatement => statement.variable?.toList
  | _ => []

/-- What a statement binds itself, with the temporaries from one number up to another. -/
inductive Node.Binds (statement : Node) : Nat → List Binding → Nat → Prop
  | bare {count : Nat} {place : Node} {name target : String} {args : List (String × Expr)}
      {copy : Option (String × Expr)} (hplace : statement.callPlace? = some place)
      (hname : place.bareName? = some name) (hcall : statement.calledWith = .ok (target, args)) :
      Binds statement count [.inl ⟨target, args, name, copy⟩] count
  | other {count : Nat} {place : Node} {text target : String} {args : List (String × Expr)}
      (hplace : statement.callPlace? = some place) (hname : place.bareName? = none)
      (hcall : statement.calledWith = .ok (target, args)) (htext : referenceText place = .ok text) :
      Binds statement count [.inl ⟨target, args, temporary count,
        some (text, Expr.reference (temporary count))⟩, .inr text] (count + 1)
  | names {count : Nat} (hplace : statement.callPlace? = none) :
      Binds statement count (statement.otherNames.map .inr) count

theorem Node.Binds.of_otherNames {statement : Node} {count : Nat} {row : List Binding}
    (hplace : statement.callPlace? = none) (hrow : statement.otherNames.map .inr = row) :
    statement.Binds count row count :=
  hrow ▸ .names hplace

/-- What statements bind, one after the other. -/
inductive BindsAll : Nat → List Node → List Binding → Nat → Prop
  | nil (count : Nat) : BindsAll count [] [] count
  | cons {count next after : Nat} {statement : Node} {statements : List Node}
      {row rest : List Binding} (h : statement.Binds count row next)
      (hrest : BindsAll next statements rest after) :
      BindsAll count (statement :: statements) (row ++ rest) after

theorem BindsAll.append {count next after : Nat} {statements others : List Node}
    {bindings rest : List Binding} (h : BindsAll count statements bindings next)
    (h' : BindsAll next others rest after) :
    BindsAll count (statements ++ others) (bindings ++ rest) after := by
  induction h with
  | nil count => exact h'
  | cons hrow _ ih =>
    rw [List.append_assoc]
    exact .cons hrow (ih h')

theorem BindsAll.singleton {count after : Nat} {statement : Node} {row : List Binding}
    (h : statement.Binds count row after) : BindsAll count [statement] row after := by
  have hall := BindsAll.cons h (.nil after)
  rwa [List.append_nil] at hall

section

variable {rule : Rule} {p : Position} {children : List Child}

theorem Node.StatementFree.binders {n : Node} (h : n.StatementFree) : n.binders = [] := by
  refine List.filter_eq_nil_iff.mpr fun m hm hbinder => ?_
  have hfree := h m hm
  cases hrule : m.rule <;> rw [hrule] at hbinder hfree <;> cases hbinder <;> cases hfree

theorem Child.StatementFree.binders (h : Child.StatementFree children) :
    Child.gather Node.binders children = [] :=
  h.gather_eq_nil fun _ hn => hn.binders

theorem Node.binders_eq :
    (Node.mk rule p children).binders =
      (if rule.isBinder then [.mk rule p children] else []) ++
        Child.gather Node.binders children := by
  have hgather : (Child.allNodes children).filter (·.rule.isBinder) =
      Child.gather Node.binders children := by
    rw [Child.allNodes_eq_gather]
    induction children with
    | nil => rfl
    | cons child rest ih =>
      cases child with
      | node slot n =>
        rw [Child.gather_node, Child.gather_node, List.filter_append, ih, Node.binders]
      | token slot t => exact ih
  rw [Node.binders, Node.all, List.filter_cons, hgather]
  show (if rule.isBinder = true then _ else _) = _
  split
  · rfl
  · rfl

theorem Node.binders_mk (h : rule.isBinder = false) :
    (Node.mk rule p children).binders = Child.gather Node.binders children := by
  rw [Node.binders_eq, if_neg (by simp [h]), List.nil_append]

theorem Node.binders_binder (h : rule.isBinder = true) :
    (Node.mk rule p children).binders =
      .mk rule p children :: Child.gather Node.binders children := by
  rw [Node.binders_eq, if_pos h]
  rfl

end

/-- Statements are built into steps that assign something where they assign. -/
theorem Node.BuiltInto.filled {n : Node} {count after : Nat} {steps : List RawStep}
    (h : n.BuiltInto count steps after) : Step.Filled steps := by
  rcases h with ⟨_, hplain⟩ | ⟨action, rfl, hassign, _⟩
  · intro step hstep hempty
    have hstep := hplain step hstep
    rw [hempty] at hstep
    exact hstep rfl
  · refine List.forall_mem_singleton.mpr fun hempty => ?_
    have haction : action = .assign [] := hempty
    rw [haction] at hassign
    cases hassign

namespace Phrase

open Grammar

/-! ## Statements -/

theorem Statements.filled_built (d : Statements) {n m : Nat} {steps : List RawStep}
    (hb : d.built n = .ok (steps, m)) : Step.Filled steps := by
  match d with
  | .nil =>
    rw [Statements.built] at hb
    cases hb
    exact List.forall_mem_nil _
  | .cons first rest =>
    rw [Statements.built] at hb
    obtain ⟨⟨firsts, k⟩, hfirst, hb⟩ := bind_eq_ok.mp hb
    obtain ⟨⟨others, l⟩, hrest, hb⟩ := bind_eq_ok.mp hb
    cases hb
    rw [← first.ofNode_node] at hfirst
    exact List.forall_mem_append.mpr
      ⟨(Step.builtInto_ofNode hfirst).filled, rest.filled_built hrest⟩

/-- The call that a statement makes for a place, as it is built. -/
theorem calledWith_assignCall (target : Reference) (assign : Sign .assign) (name : QualifiedName)
    (start : Sign .lparen) (args : NamedOrNone) {pairs : List (String × Expr)}
    (h : args.built = .ok pairs) :
    (Statement.assignCall target assign name start args).node.calledWith =
      .ok (name.text, pairs) := by
  have hcalls : (Statement.assignCall target assign name start args).node.nodes .namedCall =
      [namedCallNode name args] := by
    simp [Statement.node]
  obtain ⟨_, hcall⟩ := Node.requireNode_of_nodes_cons hcalls
  obtain ⟨_, hname⟩ := exists_namedCallNode name args
  rw [Node.calledWith, hcall]
  show ((liftM ((namedCallNode name args).requireNode .qualifiedName) : Except BuildError _) >>=
    fun found => _) = _
  rw [hname]
  show (dottedName name.node >>= fun target => _) = _
  rw [dottedName_node, ok_bind, args.argumentsOf_namedCallNode, h]
  rfl

theorem callPlace?_assignCall (target : Reference) (assign : Sign .assign) (name : QualifiedName)
    (start : Sign .lparen) (args : NamedOrNone) :
    (Statement.assignCall target assign name start args).node.callPlace? = some target.node := rfl

theorem Statement.binds_assignCall {target : Reference} {assign : Sign .assign}
    {name : QualifiedName} {start : Sign .lparen} {args : NamedOrNone} {n m : Nat}
    {steps : List RawStep} (h : NamedTokens target.tokens)
    (hb : (Statement.assignCall target assign name start args).built n = .ok (steps, m))
    (after : Option (String × Expr)) :
    (Statement.assignCall target assign name start args).node.Binds n
      (Step.bindingsAll after steps) m := by
  rw [Statement.built] at hb
  obtain ⟨text, htext, hb⟩ := lift_bind_eq_ok hb
  obtain ⟨pairs, hpairs, hb⟩ := lift_bind_eq_ok hb
  have hcall := calledWith_assignCall target assign name start args hpairs
  have hbare := target.bareName?_node h htext
  split at hb
  · rename_i hsimple
    rw [if_pos hsimple] at hbare
    cases hb
    exact .bare (callPlace?_assignCall ..) hbare hcall
  · rename_i hsimple
    rw [if_neg hsimple] at hbare
    cases hb
    exact .other (callPlace?_assignCall ..) hbare hcall (target.referenceText_node.trans htext)

theorem CallArguments.bindings_built (d : CallArguments) {name : QualifiedName} {step : RawStep}
    (hb : d.built name.text = .ok step) (after : Option (String × Expr)) :
    Step.bindingsAll after [step] = (callStatement name d).otherNames.map .inr := by
  have hnone : ((callStatement name d).nodes .variableReference).head? = none := by
    simp [d.variableReference_children]
  simp only [Node.otherNames, Node.rule, hnone]
  match d with
  | .named args =>
    obtain ⟨found, _, hb⟩ := bind_eq_ok.mp hb
    obtain ⟨pairs, _, hb⟩ := bind_eq_ok.mp hb
    cases hb
    obtain ⟨n, hchild, _⟩ := args.exists_listOfNode
    have hhas : (callStatement name (.named args)).has .actualParameterList = false := by
      simp [Node.has, Node.children, CallArguments.children, hchild, Child.slot]
    rw [hhas]
    rfl
  | .positional (.none stop) =>
    cases hb
    rfl
  | .positional (.some args stop) =>
    obtain ⟨found, _, hb⟩ := bind_eq_ok.mp hb
    cases hb
    obtain ⟨n, rest, hnodes⟩ := args.exists_nodes
    have hhas : (callStatement name (.positional (.some args stop))).has .actualParameterList =
        true := by
      simp [Node.has, Node.children, CallArguments.children, ArgumentsUpTo.nodes, hnodes,
        argumentChild, Child.slot]
    rw [hhas]
    rfl

theorem loopHead_bindings {name : Tok .identifier} {items : Expression} {head : LoopHead}
    (h : loopHead name items = .ok head) : head.bindings = [.inr name.val.image] := by
  rw [loopHead] at h
  obtain ⟨e, _, h⟩ := bind_eq_ok.mp h
  split at h
  · cases h
  · cases h
    rfl

theorem Retry.identifier_children (d : Retry) : tokensIn .identifier d.children = [] := by
  cases d with
  | none => rfl
  | some retry clause =>
    obtain ⟨n, hchild, _⟩ := clause.exists_listOfNode
    rw [Retry.children, hchild]
    rfl

theorem otherNames_assign {target : Reference} (assign : Sign .assign) (value : Expression)
    {text : String} (h : target.text = .ok text) :
    (Statement.assign target assign value).node.otherNames = [text] := by
  show (referenceText target.node).toOption.toList = [text]
  rw [target.referenceText_node, h]
  rfl

/-- The variable of a statement that catches is named by its handler. -/
theorem caughtVariable_attempt (try_ : Word .try) (body : Block) (retry : Retry)
    (handler : Handler) :
    Node.variable? (Statement.attempt try_ body retry handler).node =
      (tokensIn .identifier handler.children).head?.map (·.image) := by
  rw [Statement.node]
  show (tokensIn .identifier (retry.children ++ handler.children)).head?.map _ = _
  rw [tokensIn_append, retry.identifier_children, List.nil_append]

mutual

theorem Statement.binds_built (d : Statement) (h : NamedTokens d.tokens) {n m : Nat}
    {steps : List RawStep} (hb : d.built n = .ok (steps, m)) (after : Option (String × Expr)) :
    BindsAll n d.node.binders (Step.bindingsAll after steps) m := by
  match d with
  | .assignCall target assign_ name start args =>
    rw [Statement.tokens, namedTokens_append] at h
    have hcall : (namedCallNode name args).binders = [] := by
      rw [Node.binders_mk rfl, Child.gather_node, name.statementFree.binders,
        args.statementFree.binders, List.nil_append]
    have hbinds := Statement.binds_assignCall h.1 hb after
    rw [Statement.node] at hbinds ⊢
    rw [Node.binders_binder rfl, Child.gather_node, target.statementFree.binders,
      Child.gather_token, Child.gather_node, hcall, Child.gather_nil]
    exact .singleton hbinds
  | .assign target assign_ value =>
    rw [Statement.built] at hb
    obtain ⟨text, htext, hb⟩ := lift_bind_eq_ok hb
    obtain ⟨e, _, hb⟩ := lift_bind_eq_ok hb
    cases hb
    have hnames := otherNames_assign assign_ value htext
    rw [Statement.node] at hnames ⊢
    rw [Node.binders_binder rfl, Child.gather_node, target.statementFree.binders,
      Child.gather_token, Child.gather_node, value.statementFree.binders, Child.gather_nil]
    exact .singleton (.of_otherNames rfl (congrArg (List.map _) hnames))
  | .call name start args =>
    rw [Statement.built] at hb
    obtain ⟨step, hstep, hb⟩ := lift_bind_eq_ok hb
    cases hb
    rw [Statement.node, Node.binders_binder rfl, Child.gather_node, name.statementFree.binders,
      args.statementFree.binders]
    exact .singleton (.of_otherNames (callPlace?_callStatement name args)
      (args.bindings_built hstep after).symm)
  | .conditional if_ first others =>
    rw [Statement.tokens, namedTokens_cons, namedTokens_append] at h
    rw [Statement.built] at hb
    obtain ⟨⟨case, k⟩, hcase, hb⟩ := bind_eq_ok.mp hb
    obtain ⟨⟨cases, l⟩, hcases, hb⟩ := bind_eq_ok.mp hb
    cases hb
    rw [Statement.node, Node.binders_mk rfl, Child.gather_token, Child.gather_append,
      Step.bindingsAll_raw, Action.bindings, ← List.singleton_append, Case.bindingsAll_append]
    exact (first.binds_built h.2.1 hcase).append (others.binds_built h.2.2 hcases)
  | .loop loop =>
    rw [Statement.tokens] at h
    rw [Statement.built] at hb
    obtain ⟨⟨⟨head, body⟩, k⟩, hloop, hb⟩ := bind_eq_ok.mp hb
    cases hb
    rw [Statement.node, Step.bindingsAll_raw, Action.bindings]
    exact loop.binds_built h hloop
  | .parallel parallel_ options body =>
    rw [Statement.tokens, namedTokens_cons, namedTokens_append] at h
    rw [Statement.built] at hb
    obtain ⟨found, _, hb⟩ := lift_bind_eq_ok hb
    obtain ⟨⟨action, k⟩, haction, hb⟩ := bind_eq_ok.mp hb
    cases hb
    rw [Statement.node, Node.binders_mk rfl, Child.gather_token, Child.gather_append,
      options.statementFree.binders, List.nil_append, Step.bindingsAll_raw]
    exact body.binds_built h.2.2 haction found after
  | .attempt try_ body retry handler =>
    rw [Statement.tokens, namedTokens_cons, namedTokens_append, namedTokens_append] at h
    rw [Statement.built] at hb
    obtain ⟨⟨steps, k⟩, hsteps, hb⟩ := bind_eq_ok.mp hb
    obtain ⟨policy, _, hb⟩ := lift_bind_eq_ok hb
    obtain ⟨⟨⟨name, others⟩, l⟩, hothers, hb⟩ := bind_eq_ok.mp hb
    cases hb
    obtain ⟨hname, hothers⟩ := handler.binds_built h.2.2.2 hothers
    have hvariable := (caughtVariable_attempt try_ body retry handler).trans hname
    rw [Statement.node] at hvariable ⊢
    rw [Node.binders_binder rfl, Child.gather_token, Child.gather_node, Child.gather_append,
      retry.statementFree.binders, List.nil_append, Step.bindingsAll_raw, Action.bindings]
    refine .cons (.of_otherNames rfl ?_) ((body.binds_built h.2.1 hsteps none).append hothers)
    rw [← hvariable]
    rfl
  | .throw throw_ value =>
    rw [Statement.built] at hb
    obtain ⟨e, _, hb⟩ := lift_bind_eq_ok hb
    cases hb
    rw [Statement.node, Node.binders_mk rfl, Child.gather_token,
      Child.gather_node, value.statementFree.binders, Child.gather_nil]
    exact .nil n
  | .break break_ =>
    rw [Statement.built] at hb
    cases hb
    rw [Statement.node, Node.binders_mk rfl, Child.gather_token, Child.gather_nil]
    exact .nil n
  | .continue continue_ =>
    rw [Statement.built] at hb
    cases hb
    rw [Statement.node, Node.binders_mk rfl, Child.gather_token, Child.gather_nil]
    exact .nil n
  | .returnNothing return_ =>
    rw [Statement.built] at hb
    cases hb
    rw [Statement.node, Node.binders_mk rfl, Child.gather_token, Child.gather_nil]
    exact .nil n
  | .returnValue return_ value =>
    rw [Statement.built] at hb
    obtain ⟨e, _, hb⟩ := lift_bind_eq_ok hb
    cases hb
    rw [Statement.node, Node.binders_mk rfl, Child.gather_token,
      Child.gather_node, value.statementFree.binders, Child.gather_nil]
    exact .nil n

theorem Statements.binds_built (d : Statements) (h : NamedTokens d.tokens) {n m : Nat}
    {steps : List RawStep} (hb : d.built n = .ok (steps, m)) (after : Option (String × Expr)) :
    BindsAll n (d.nodes.flatMap Node.binders) (Step.bindingsAll after steps) m := by
  match d with
  | .nil =>
    rw [Statements.built] at hb
    cases hb
    exact .nil n
  | .cons first rest =>
    rw [Statements.tokens, namedTokens_append] at h
    rw [Statements.built] at hb
    obtain ⟨⟨firsts, k⟩, hfirst, hb⟩ := bind_eq_ok.mp hb
    obtain ⟨⟨others, l⟩, hrest, hb⟩ := bind_eq_ok.mp hb
    cases hb
    rw [Statements.nodes, List.flatMap_cons, Step.bindingsAll_append]
    exact (first.binds_built h.1 hfirst _).append (rest.binds_built h.2 hrest after)

theorem Block.binds_built (d : Block) (h : NamedTokens d.tokens) {n m : Nat}
    {steps : List RawStep} (hb : d.built n = .ok (steps, m)) (after : Option (String × Expr)) :
    BindsAll n d.node.binders (Step.bindingsAll after steps) m := by
  match d with
  | .mk start statements stop =>
    rw [Block.tokens, namedTokens_cons, namedTokens_append] at h
    rw [Block.built] at hb
    obtain ⟨⟨found, k⟩, hfound, hb⟩ := bind_eq_ok.mp hb
    cases hb
    rw [Block.node, Node.binders_mk rfl, Child.gather_map_node,
      (Step.bindingsAll_merge (statements.filled_built hfound)).2]
    exact statements.binds_built h.2.1 hfound after

theorem Condition.binds_built (d : Condition) (h : NamedTokens d.tokens) {n m : Nat}
    {case : Case Unit} (hb : d.built n = .ok (case, m)) :
    BindsAll n (Child.gather Node.binders d.children) (Case.bindingsAll [case]) m := by
  match d with
  | .mk start test stop body =>
    rw [Condition.tokens, namedTokens_cons, namedTokens_append, namedTokens_cons] at h
    rw [Condition.built] at hb
    obtain ⟨e, _, hb⟩ := lift_bind_eq_ok hb
    obtain ⟨⟨steps, k⟩, hsteps, hb⟩ := bind_eq_ok.mp hb
    cases hb
    simp only [Condition.children, Child.gather_node, test.statementFree.binders,
      Child.gather_nil, List.nil_append, List.append_nil, Case.bindingsAll]
    exact body.binds_built h.2.2.2 hsteps none

theorem ElseClauses.binds_built (d : ElseClauses) (h : NamedTokens d.tokens) {n m : Nat}
    {cases : List (Case Unit)} (hb : d.built n = .ok (cases, m)) :
    BindsAll n (Child.gather Node.binders d.children) (Case.bindingsAll cases) m := by
  match d with
  | .none =>
    rw [ElseClauses.built] at hb
    cases hb
    rw [ElseClauses.children, Child.gather_nil]
    exact .nil n
  | .elseIf else_ if_ condition rest =>
    rw [ElseClauses.tokens, namedTokens_cons, namedTokens_cons, namedTokens_append] at h
    rw [ElseClauses.built] at hb
    obtain ⟨⟨case, k⟩, hcase, hb⟩ := bind_eq_ok.mp hb
    obtain ⟨⟨others, l⟩, hothers, hb⟩ := bind_eq_ok.mp hb
    cases hb
    rw [ElseClauses.children, Child.gather_token, Child.gather_token,
      Child.gather_append, ← List.singleton_append, Case.bindingsAll_append]
    exact (condition.binds_built h.2.2.1 hcase).append (rest.binds_built h.2.2.2 hothers)
  | .last else_ body =>
    rw [ElseClauses.tokens, namedTokens_cons] at h
    rw [ElseClauses.built] at hb
    obtain ⟨⟨steps, k⟩, hsteps, hb⟩ := bind_eq_ok.mp hb
    cases hb
    rw [ElseClauses.children, Child.gather_token, Child.gather_node, Child.gather_nil,
      List.append_nil, Case.bindingsAll, Case.bindingsAll, List.append_nil]
    exact body.binds_built h.2 hsteps none

theorem Loop.binds_built (d : Loop) (h : NamedTokens d.tokens) {n m : Nat} {head : LoopHead}
    {body : List RawStep} (hb : d.built n = .ok ((head, body), m)) :
    BindsAll n d.node.binders (head.bindings ++ Step.bindingsAll none body) m := by
  match d with
  | .mk for_ start name in_ items stop block =>
    rw [Loop.tokens, namedTokens_cons, namedTokens_cons, namedTokens_cons, namedTokens_cons,
      namedTokens_append, namedTokens_cons] at h
    obtain ⟨_, _, _, _, _, _, hblock⟩ := h
    rw [Loop.built] at hb
    obtain ⟨found, hfound, hb⟩ := lift_bind_eq_ok hb
    obtain ⟨⟨steps, k⟩, hsteps, hb⟩ := bind_eq_ok.mp hb
    cases hb
    rw [Loop.node, Node.binders_binder rfl, Child.gather_token, Child.gather_token,
      Child.gather_node, items.statementFree.binders, List.nil_append, Child.gather_node,
      Child.gather_nil, List.append_nil, loopHead_bindings hfound]
    exact .cons (.of_otherNames rfl rfl) (block.binds_built hblock hsteps none)

theorem ParallelBody.binds_built (d : ParallelBody) (h : NamedTokens d.tokens) {n m : Nat}
    {action : ParallelOptions → Action Unit} (hb : d.built n = .ok (action, m))
    (options : ParallelOptions) (after : Option (String × Expr)) :
    BindsAll n (Child.gather Node.binders d.children) ((action options).bindings after) m := by
  match d with
  | .loop loop =>
    rw [ParallelBody.tokens] at h
    rw [ParallelBody.built] at hb
    obtain ⟨⟨⟨head, body⟩, k⟩, hloop, hb⟩ := bind_eq_ok.mp hb
    cases hb
    rw [ParallelBody.children, Child.gather_node, Child.gather_nil, List.append_nil,
      Action.bindings]
    exact loop.binds_built h hloop
  | .branches branch body rest =>
    rw [ParallelBody.tokens, namedTokens_cons, namedTokens_append] at h
    rw [ParallelBody.built] at hb
    obtain ⟨⟨steps, k⟩, hsteps, hb⟩ := bind_eq_ok.mp hb
    obtain ⟨⟨others, l⟩, hothers, hb⟩ := bind_eq_ok.mp hb
    cases hb
    rw [ParallelBody.children, Child.gather_token, Child.gather_node, Action.bindings,
      Step.bindingsAll, Action.raw, Step.bindings, Action.bindings]
    exact (body.binds_built h.2.1 hsteps none).append (rest.binds_built h.2.2 hothers)

theorem Branches.binds_built (d : Branches) (h : NamedTokens d.tokens) {n m : Nat}
    {rows : List RawStep} (hb : d.built n = .ok (rows, m)) :
    BindsAll n (Child.gather Node.binders d.children) (Step.bindingsAll none rows) m := by
  match d with
  | .nil =>
    rw [Branches.built] at hb
    cases hb
    rw [Branches.children, Child.gather_nil]
    exact .nil n
  | .cons branch body rest =>
    rw [Branches.tokens, namedTokens_cons, namedTokens_append] at h
    rw [Branches.built] at hb
    obtain ⟨⟨steps, k⟩, hsteps, hb⟩ := bind_eq_ok.mp hb
    obtain ⟨⟨others, l⟩, hothers, hb⟩ := bind_eq_ok.mp hb
    cases hb
    rw [Branches.children, Child.gather_token, Child.gather_node, Step.bindingsAll, Action.raw,
      Step.bindings, Action.bindings]
    exact (body.binds_built h.2.1 hsteps none).append (rest.binds_built h.2.2 hothers)

theorem Handler.binds_built (d : Handler) (h : NamedTokens d.tokens) {n m : Nat}
    {name : Option String} {steps : List RawStep} (hb : d.built n = .ok ((name, steps), m)) :
    (tokensIn .identifier d.children).head?.map (·.image) = name ∧
      BindsAll n (Child.gather Node.binders d.children) (Step.bindingsAll none steps) m := by
  match d with
  | .none =>
    rw [Handler.built] at hb
    cases hb
    rw [Handler.children, Child.gather_nil]
    exact ⟨rfl, .nil n⟩
  | .some catch_ start error stop body =>
    rw [Handler.tokens, namedTokens_cons, namedTokens_cons, namedTokens_cons,
      namedTokens_cons] at h
    obtain ⟨_, _, _, _, hbody⟩ := h
    rw [Handler.built] at hb
    obtain ⟨⟨found, k⟩, hfound, hb⟩ := bind_eq_ok.mp hb
    cases hb
    rw [Handler.children, Child.gather_token, Child.gather_token, Child.gather_node,
      Child.gather_nil, List.append_nil]
    exact ⟨rfl, body.binds_built hbody hfound none⟩

end

theorem Definition.binds_built (d : Definition) (h : NamedTokens d.tokens) {n m : Nat}
    {w : Subworkflow Unit} (hb : d.built n = .ok (w, m)) :
    BindsAll n d.node.binders (Step.bindingsAll none w.steps) m := by
  cases d with
  | mk workflow name start parameters body =>
    rw [Definition.tokens, namedTokens_cons, namedTokens_cons, namedTokens_cons,
      namedTokens_append] at h
    obtain ⟨_, _, _, _, hbody⟩ := h
    rw [Definition.built] at hb
    obtain ⟨⟨steps, k⟩, hsteps, hb⟩ := bind_eq_ok.mp hb
    cases hb
    rw [Definition.node, Node.binders_mk rfl, Child.gather_token, Child.gather_token,
      Child.gather_node, parameters.statementFree.binders, List.nil_append, Child.gather_node,
      Child.gather_nil, List.append_nil]
    exact body.binds_built hbody hsteps none

theorem Program.binds_built (p : Program) (h : NamedTokens p.tokens) {n m : Nat}
    {program : Workflow.Program Unit} (hb : Program.built p n = .ok (program, m)) :
    BindsAll n ((p.map Definition.node).flatMap Node.binders) program.bindings m := by
  induction p generalizing n program with
  | nil =>
    cases hb
    exact .nil _
  | cons d rest ih =>
    rw [Program.tokens, List.flatMap_cons, namedTokens_append] at h
    rw [Program.built] at hb
    obtain ⟨⟨w, k⟩, hw, hb⟩ := bind_eq_ok.mp hb
    obtain ⟨⟨others, l⟩, hothers, hb⟩ := bind_eq_ok.mp hb
    cases hb
    rw [List.map_cons, List.flatMap_cons, Program.bindings, List.flatMap_cons]
    exact (d.binds_built h.1 hw).append (ih h.2 hothers)

end Phrase

theorem bindsAll_of_build {source : String} {tree : Node} {program : Program Unit}
    (hparse : parse source = .ok tree) (hbuild : buildProgram tree = .ok program) :
    ∃ count, BindsAll 0 tree.binders program.bindings count := by
  obtain ⟨p, tokens, stop, count, -, htokens, hfront, rfl, hrun⟩ :=
    exists_phrase_of_parse hparse hbuild
  have hnamed : NamedTokens p.tokens :=
    fun t ht => namedTokens_of_tokenize htokens t (hfront.subset ht)
  rw [Phrase.Program.node, Node.binders_mk rfl, Child.gather_map_node]
  exact ⟨count, p.binds_built hnamed hrun⟩

/-! ## Calls in source order -/

/-- The statements of a syntax tree that put the result of a call somewhere, in source order. -/
def Node.resultCalls (tree : Node) : List Node := tree.binders.filter (·.callPlace?.isSome)

/-- Whether a statement puts the result of a call in a place that is not a bare name. -/
def Node.needsTemporary (statement : Node) : Bool :=
  statement.callPlace?.any (·.bareName?.isNone)

/-- The calls of a program that put their results somewhere, in the order of a walk. -/
def Program.placedCalls {α : Type} (program : Program α) : List PlacedCall :=
  program.bindings.filterMap Sum.getLeft?

/-- The names that steps of a program bind, results of calls apart, in the order of a walk. -/
def Program.otherNames {α : Type} (program : Program α) : List String :=
  program.bindings.filterMap Sum.getRight?

/-- A statement becomes a call, where a number of temporaries are used before it. Its result is the
bare name that is its place. If the place is not a bare name, the result is the next temporary, and
the step right behind the call first assigns this temporary to the text of the place. -/
def Node.BecomesCall (statement : Node) (count : Nat) (call : PlacedCall) : Prop :=
  statement.calledWith = .ok (call.target, call.args) ∧
    ∃ place, statement.callPlace? = some place ∧
      (place.bareName? = some call.result ∨
        place.bareName? = none ∧ call.result = temporary count ∧
          ∃ text, referenceText place = .ok text ∧
            call.copy = some (text, Expr.reference (temporary count)))

section

variable {statement : Node} {count next : Nat} {row : List Binding}

theorem Node.Binds.otherNames_eq (h : statement.Binds count row next) :
    row.filterMap Sum.getRight? = statement.otherNames := by
  cases h with
  | bare hplace hname hcall =>
    obtain ⟨hrule, hhead⟩ := Node.callPlace?_eq_some hplace
    simp [Node.otherNames, hrule, hhead, hplace, hname]
  | @other place text _ _ hplace hname hcall htext =>
    obtain ⟨hrule, hhead⟩ := Node.callPlace?_eq_some hplace
    have htexts : statement.otherNames = (referenceText place).toOption.toList := by
      simp [Node.otherNames, hrule, hhead, hname]
    rw [htexts, htext]
    rfl
  | names hplace => simp [List.filterMap_map, Function.comp_def]

/-- A statement binds the result of one call, or of none if it has no place for one. -/
theorem Node.Binds.call_or (h : statement.Binds count row next) :
    (statement.callPlace?.isSome = false ∧ row.filterMap Sum.getLeft? = [] ∧ next = count) ∨
      ∃ call, statement.callPlace?.isSome = true ∧ row.filterMap Sum.getLeft? = [call] ∧
        statement.BecomesCall count call ∧
        next = count + [statement].countP Node.needsTemporary := by
  cases h with
  | bare hplace hname hcall =>
    refine .inr ⟨_, by simp [hplace], rfl, ⟨hcall, _, hplace, .inl hname⟩, ?_⟩
    simp [Node.needsTemporary, hplace, hname]
  | other hplace hname hcall htext =>
    refine .inr ⟨_, by simp [hplace], rfl, ⟨hcall, _, hplace, .inr ⟨hname, rfl, _, htext, rfl⟩⟩, ?_⟩
    simp [Node.needsTemporary, hplace, hname]
  | names hplace =>
    exact .inl ⟨by simp [hplace], by simp [List.filterMap_map, Function.comp_def], rfl⟩

end

namespace BindsAll

variable {count after : Nat} {statements : List Node} {bindings : List Binding}

theorem otherNames_eq (h : BindsAll count statements bindings after) :
    bindings.filterMap Sum.getRight? = statements.flatMap Node.otherNames := by
  induction h with
  | nil count => rfl
  | cons hrow _ ih => rw [List.filterMap_append, ih, List.flatMap_cons, hrow.otherNames_eq]

/-- The calls with a result, one by one, with the temporaries that are used before each. -/
theorem calls (h : BindsAll count statements bindings after) :
    (bindings.filterMap Sum.getLeft?).length =
        (statements.filter (·.callPlace?.isSome)).length ∧
      ∀ i (statement : Node), (statements.filter (·.callPlace?.isSome))[i]? = some statement →
        ∃ call, (bindings.filterMap Sum.getLeft?)[i]? = some call ∧
          statement.BecomesCall (count + ((statements.filter (·.callPlace?.isSome)).take i).countP
            Node.needsTemporary) call := by
  induction h with
  | nil count => exact ⟨rfl, fun i statement hi => by cases hi⟩
  | @cons count next after statement statements row rest hrow _ ih =>
    obtain ⟨hlength, ih⟩ := ih
    rw [List.filterMap_append]
    rcases hrow.call_or with ⟨hnone, hleft, rfl⟩ | ⟨call, hsome, hleft, hcall, rfl⟩
    · rw [hleft, List.nil_append, List.filter_cons_of_neg (by simp [hnone])]
      exact ⟨hlength, ih⟩
    · rw [hleft, List.singleton_append, List.filter_cons_of_pos (by simpa using hsome)]
      refine ⟨by rw [List.length_cons, List.length_cons, hlength], fun i other hi => ?_⟩
      cases i with
      | zero =>
        cases hi
        exact ⟨call, rfl, hcall⟩
      | succ i =>
        obtain ⟨later, hlater, hbecomes⟩ := ih i other hi
        refine ⟨later, hlater, ?_⟩
        rw [List.take_succ_cons, ← List.singleton_append, List.countP_append, ← Nat.add_assoc]
        exact hbecomes

end BindsAll

/-- In the program of a text, the statements that put the result of a call somewhere become the
calls with a result, one by one and in source order. One whose place is a bare name has this name
as its result. The others have the temporaries as results, numbered from zero, and each of these
calls is followed, in the same list of steps, by a step that first assigns the temporary to the
place. All other names that steps bind are those of the text. -/
theorem build_placedCalls (source : String) (tree : Node) (program : Program Unit)
    (hparse : parse source = .ok tree) (hbuild : buildProgram tree = .ok program) :
    program.placedCalls.length = tree.resultCalls.length ∧
    (∀ i (statement : Node), tree.resultCalls[i]? = some statement →
      ∃ call, program.placedCalls[i]? = some call ∧
        statement.BecomesCall ((tree.resultCalls.take i).countP Node.needsTemporary) call) ∧
    program.otherNames = tree.binders.flatMap Node.otherNames := by
  obtain ⟨count, h⟩ := bindsAll_of_build hparse hbuild
  obtain ⟨hlength, hcalls⟩ := h.calls
  refine ⟨hlength, fun i statement hi => ?_, h.otherNames_eq⟩
  obtain ⟨call, hcall, hbecomes⟩ := hcalls i statement hi
  rw [Nat.zero_add] at hbecomes
  exact ⟨call, hcall, hbecomes⟩

/-- Two places that are no bare names, the second one inside a loop, and bare names around them. -/
theorem build_placedCalls_sample : ∃ (tree : Node) (program : Program Unit),
    parse "workflow w() \x7b a.b = f() c = 1 x = g() for (i in a) \x7b y[0] = h(k = i) \x7d \x7d" =
      .ok tree ∧
    buildProgram tree = .ok program ∧
    program.placedCalls.map PlacedCall.result = ["__temp0", "x", "__temp1"] ∧
    program.otherNames = ["a.b", "c", "i", "y[0]"] ∧
    ∃ (statement : Node) (call : PlacedCall), tree.resultCalls[2]? = some statement ∧
      program.placedCalls[2]? = some call ∧ statement.BecomesCall 1 call := by
  generalize hsource :
    "workflow w() \x7b a.b = f() c = 1 x = g() for (i in a) \x7b y[0] = h(k = i) \x7d \x7d" = source
  have hrun : ((parse source).toOption.bind fun tree =>
      (buildProgram tree).toOption.map fun program =>
        (tree.resultCalls.length, (tree.resultCalls.take 2).countP Node.needsTemporary,
          program.placedCalls.map PlacedCall.result, program.otherNames)) =
      some (3, 1, ["__temp0", "x", "__temp1"], ["a.b", "c", "i", "y[0]"]) := by
    rw [← hsource]
    decide +kernel
  obtain ⟨tree, htree, hrun⟩ := Option.bind_eq_some_iff.mp hrun
  obtain ⟨program, hprogram, hrun⟩ := Option.map_eq_some_iff.mp hrun
  obtain ⟨hlength, hrun⟩ := Prod.mk.inj hrun
  obtain ⟨hcount, hrun⟩ := Prod.mk.inj hrun
  obtain ⟨hresults, hnames⟩ := Prod.mk.inj hrun
  have hparse := eq_ok_of_toOption htree
  have hbuild := eq_ok_of_toOption hprogram
  have hthird : 2 < tree.resultCalls.length := by omega
  obtain ⟨_, hcalls, _⟩ := build_placedCalls source tree program hparse hbuild
  obtain ⟨call, hcall, hbecomes⟩ := hcalls 2 _ (List.getElem?_eq_getElem hthird)
  rw [hcount] at hbecomes
  exact ⟨tree, program, hparse, hbuild, hresults, hnames, _, call,
    List.getElem?_eq_getElem hthird, hcall, hbecomes⟩

end Workflow
