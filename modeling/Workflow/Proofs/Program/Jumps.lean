import Workflow.Proofs.Build.StatementFree
import Workflow.Proofs.Program.Built
import Workflow.Proofs.Step.Loops

/-!
# Jumps outside loops

A `break` or a `continue` becomes a step that goes on at the target of this name, wherever it
stands. The jumps outside loops are the same in a text and in the steps that are built from it.
-/

namespace Workflow

/-! ## Jumps of trees -/

mutual

/-- A node and the nodes below it that are not inside a loop. -/
def Node.outsideLoops : Node → List Node
  | .mk rule position children =>
    .mk rule position children ::
      if rule = .forStatement then [] else Child.outsideLoops children

/-- The nodes among children, with the nodes below them that are not inside a loop. -/
def Child.outsideLoops : List Child → List Node
  | [] => []
  | .node _ n :: rest => n.outsideLoops ++ Child.outsideLoops rest
  | .token _ _ :: rest => Child.outsideLoops rest

end

/-- Where a statement goes on, if it is a jump. -/
def Node.jump? (n : Node) : Option String :=
  match n.rule with
  | .breakStatement => some "break"
  | .continueStatement => some "continue"
  | _ => none

/-- The jumps of a tree that are not inside a loop. -/
def Node.looseJumps (n : Node) : List String := n.outsideLoops.filterMap Node.jump?

section

variable {rule : Rule} {p : Position} {children : List Child}

theorem Child.outsideLoops_eq_gather :
    Child.outsideLoops children = Child.gather Node.outsideLoops children := by
  induction children with
  | nil => rw [Child.outsideLoops, Child.gather_nil]
  | cons child rest ih =>
    cases child with
    | node slot n => rw [Child.outsideLoops, Child.gather_node, ih]
    | token slot t => rw [Child.outsideLoops, Child.gather_token, ih]

mutual

theorem Node.outsideLoops_subset (n : Node) : n.outsideLoops ⊆ n.all := by
  match n with
  | .mk rule position children =>
    rw [Node.outsideLoops, Node.all]
    refine List.cons_subset_cons _ ?_
    split
    · exact List.nil_subset _
    · exact Child.outsideLoops_subset children

theorem Child.outsideLoops_subset (children : List Child) :
    Child.outsideLoops children ⊆ Child.allNodes children := by
  match children with
  | [] =>
    rw [Child.outsideLoops]
    exact List.nil_subset _
  | .node slot n :: rest =>
    rw [Child.outsideLoops, Child.allNodes]
    exact List.append_subset.mpr
      ⟨List.subset_append_of_subset_left _ n.outsideLoops_subset,
        List.subset_append_of_subset_right _ (Child.outsideLoops_subset rest)⟩
  | .token slot t :: rest =>
    rw [Child.outsideLoops, Child.allNodes]
    exact Child.outsideLoops_subset rest

end

theorem Node.jump?_of_not_isStatement {n : Node} (h : n.rule.isStatement = false) :
    n.jump? = none := by
  unfold Node.jump?
  cases hrule : n.rule with
  | breakStatement =>
    rw [hrule] at h
    cases h
  | continueStatement =>
    rw [hrule] at h
    cases h
  | _ => rfl

theorem Node.StatementFree.looseJumps {n : Node} (h : n.StatementFree) : n.looseJumps = [] :=
  List.filterMap_eq_nil_iff.mpr fun m hm =>
    Node.jump?_of_not_isStatement (h m (n.outsideLoops_subset hm))

theorem Child.StatementFree.looseJumps (h : Child.StatementFree children) :
    Child.gather Node.looseJumps children = [] :=
  h.gather_eq_nil fun _ hn => hn.looseJumps

/-- The jumps below a node that is neither a jump nor a loop. -/
theorem Node.looseJumps_mk (hjump : (Node.mk rule p children).jump? = none)
    (h : rule ≠ .forStatement) :
    (Node.mk rule p children).looseJumps = Child.gather Node.looseJumps children := by
  rw [Node.looseJumps, Node.outsideLoops, List.filterMap_cons_none hjump, if_neg h,
    Child.outsideLoops_eq_gather, Child.filterMap_gather]
  rfl

theorem Node.looseJumps_loop : (Node.mk .forStatement p children).looseJumps = [] := by
  rw [Node.looseJumps, Node.outsideLoops, if_pos rfl]
  rfl

end

/-! ## Jumps of steps -/

section

variable {α : Type}

/-- Where a step goes on, if it is a jump. -/
def Step.jump? : Step α → Option String
  | .mk _ (.next target) => some target
  | _ => none

/-- The jumps of steps that are not inside a loop. -/
def Step.looseJumps (steps : List (Step α)) : List String :=
  (Step.outsideAll steps).filterMap Step.jump?

/-- The jumps of a program that are not inside a loop. -/
def Program.looseJumps (program : Program α) : List String :=
  program.flatMap fun w => Step.looseJumps w.steps

variable {steps rest : List (Step α)} {label : α} {action : Action α}

theorem Step.looseJumps_eq_flatMap :
    Step.looseJumps steps = steps.flatMap fun step => step.outside.filterMap Step.jump? := by
  rw [Step.looseJumps, Step.outsideAll_eq_flatMap, List.filterMap_flatMap]

theorem Step.looseJumps_nil : Step.looseJumps ([] : List (Step α)) = [] := by
  rw [Step.looseJumps_eq_flatMap, List.flatMap_nil]

theorem Step.looseJumps_append :
    Step.looseJumps (steps ++ rest) = Step.looseJumps steps ++ Step.looseJumps rest := by
  simp only [Step.looseJumps_eq_flatMap, List.flatMap_append]

/-- An assignment is no jump, so merging it into its neighbour loses none. -/
theorem Step.looseJumps_merge : Step.looseJumps (Step.merge steps) = Step.looseJumps steps := by
  simp only [Step.looseJumps_eq_flatMap]
  exact Step.flatMap_merge fun label xs => by simp [Step.outside, Action.outside, Step.jump?]

/-- The jumps of a step that is not a jump itself. -/
theorem Step.looseJumps_cons (h : Step.jump? (.mk label action) = none) :
    Step.looseJumps (.mk label action :: rest) =
      action.outside.filterMap Step.jump? ++ Step.looseJumps rest := by
  rw [Step.looseJumps_eq_flatMap, List.flatMap_cons, ← Step.looseJumps_eq_flatMap, Step.outside,
    List.filterMap_cons_none h]

theorem Case.looseJumps_outsideAll (cases : List (Case α)) :
    (Case.outsideAll cases).filterMap Step.jump? =
      cases.flatMap fun case => Step.looseJumps case.body := by
  rw [Case.outsideAll_eq_flatMap, List.filterMap_flatMap]
  rfl

theorem Step.looseJumps_raw {action : Action Unit} (h : action.raw.jump? = none) :
    Step.looseJumps [action.raw] = action.outside.filterMap Step.jump? := by
  rw [Action.raw, Step.looseJumps_cons h, Step.looseJumps_nil, List.append_nil]

end

namespace Phrase

open Grammar

/-! ## Statements -/

/-- Steps have the jumps outside loops that are given. -/
def HasJumps (jumps : List String) (steps : List RawStep) : Prop := Step.looseJumps steps = jumps

theorem hasJumps_leaf {action : Action Unit} (houtside : action.outside = [])
    (h : action.raw.jump? = none) : HasJumps [] [action.raw] := by
  rw [HasJumps, Step.looseJumps_raw h, houtside]
  rfl

theorem hasJumps_branch {jumps others : List String} {body rows : List RawStep}
    (hbody : HasJumps jumps body) (hrows : HasJumps others rows) :
    HasJumps (jumps ++ others) ((Action.steps body).raw :: rows) := by
  rw [HasJumps, Action.raw, Step.looseJumps_cons rfl, Action.outside, hrows]
  exact congrArg (· ++ others) hbody

theorem Loop.looseJumps_node (d : Loop) : d.node.looseJumps = [] := by
  cases d with
  | mk for_ start name in_ items stop body => exact Node.looseJumps_loop

theorem CallArguments.hasJumps_built (d : CallArguments) {name : String} {step : RawStep}
    (hb : d.built name = .ok step) : HasJumps [] [step] := by
  match d with
  | .named args =>
    obtain ⟨found, _, hb⟩ := bind_eq_ok.mp hb
    obtain ⟨pairs, _, hb⟩ := bind_eq_ok.mp hb
    cases hb
    exact hasJumps_leaf rfl rfl
  | .positional (.none stop) =>
    cases hb
    exact hasJumps_leaf rfl rfl
  | .positional (.some args stop) =>
    obtain ⟨found, _, hb⟩ := bind_eq_ok.mp hb
    cases hb
    exact hasJumps_leaf rfl rfl

mutual

theorem Statement.looseJumps_built (d : Statement) :
    Gives (HasJumps d.node.looseJumps) d.built := by
  match d with
  | .assignCall target assign_ name start args =>
    have hcall : (namedCallNode name args).looseJumps = [] := by
      rw [Node.looseJumps_mk rfl (by decide), Child.gather_node, name.statementFree.looseJumps,
        args.statementFree.looseJumps, List.nil_append]
    rw [Statement.node, Node.looseJumps_mk rfl (by decide), Child.gather_node,
      target.statementFree.looseJumps, Child.gather_token, Child.gather_node, hcall,
      Child.gather_nil]
    rw [Statement.built]
    refine (gives_any _).bind fun text _ => (gives_any _).bind fun pairs _ => ?_
    split
    · exact gives_pure (hasJumps_leaf rfl rfl)
    · refine (gives_any _).bind fun temporary _ => gives_pure ?_
      rw [HasJumps, Action.raw, Step.looseJumps_cons rfl, Step.looseJumps_raw rfl]
      rfl
  | .assign target assign_ value =>
    rw [Statement.node, Node.looseJumps_mk rfl (by decide), Child.gather_node,
      target.statementFree.looseJumps, Child.gather_token, Child.gather_node,
      value.statementFree.looseJumps, Child.gather_nil]
    rw [Statement.built]
    exact (gives_any _).bind fun text _ => (gives_any _).bind fun e _ =>
      gives_pure (hasJumps_leaf rfl rfl)
  | .call name start args =>
    rw [Statement.node, Node.looseJumps_mk rfl (by decide), Child.gather_node,
      name.statementFree.looseJumps, args.statementFree.looseJumps]
    rw [Statement.built]
    exact (gives_lift fun _ hstep => args.hasJumps_built hstep).bind fun step hstep =>
      gives_pure hstep
  | .conditional if_ first others =>
    rw [Statement.node, Node.looseJumps_mk rfl (by decide), Child.gather_token,
      Child.gather_append]
    rw [Statement.built]
    refine first.looseJumps_built.bind fun case hcase => ?_
    refine others.looseJumps_built.bind fun cases hcases => gives_pure ?_
    rw [HasJumps, Step.looseJumps_raw rfl, Action.outside, Case.looseJumps_outsideAll,
      List.flatMap_cons, hcase, hcases]
  | .loop loop =>
    rw [Statement.node, loop.looseJumps_node]
    rw [Statement.built]
    exact (gives_any _).bind fun ⟨head, body⟩ _ => gives_pure (hasJumps_leaf rfl rfl)
  | .parallel parallel_ options body =>
    rw [Statement.node, Node.looseJumps_mk rfl (by decide), Child.gather_token,
      Child.gather_append, options.statementFree.looseJumps, List.nil_append]
    rw [Statement.built]
    exact (gives_any _).bind fun found _ => body.looseJumps_built.bind fun action haction =>
      gives_pure (haction found)
  | .attempt try_ body retry handler =>
    rw [Statement.node, Node.looseJumps_mk rfl (by decide), Child.gather_token,
      Child.gather_node, Child.gather_append, retry.statementFree.looseJumps, List.nil_append]
    rw [Statement.built]
    refine body.looseJumps_built.bind fun steps hsteps => (gives_any _).bind fun policy _ => ?_
    refine handler.looseJumps_built.bind fun ⟨name, others⟩ hothers => gives_pure ?_
    rw [HasJumps, Step.looseJumps_raw rfl, Action.outside, List.filterMap_append]
    exact congrArg₂ (· ++ ·) hsteps hothers
  | .throw throw_ value =>
    rw [Statement.node, Node.looseJumps_mk rfl (by decide), Child.gather_token,
      Child.gather_node, value.statementFree.looseJumps, Child.gather_nil]
    rw [Statement.built]
    exact (gives_any _).bind fun e _ => gives_pure (hasJumps_leaf rfl rfl)
  | .break break_ =>
    rw [Statement.built]
    exact gives_pure rfl
  | .continue continue_ =>
    rw [Statement.built]
    exact gives_pure rfl
  | .returnNothing return_ =>
    rw [Statement.built]
    exact gives_pure rfl
  | .returnValue return_ value =>
    rw [Statement.node, Node.looseJumps_mk rfl (by decide), Child.gather_token,
      Child.gather_node, value.statementFree.looseJumps, Child.gather_nil]
    rw [Statement.built]
    exact (gives_any _).bind fun e _ => gives_pure (hasJumps_leaf rfl rfl)

theorem Statements.looseJumps_built (d : Statements) :
    Gives (HasJumps (d.nodes.flatMap Node.looseJumps)) d.built := by
  match d with
  | .nil =>
    rw [Statements.built]
    exact gives_pure Step.looseJumps_nil
  | .cons first rest =>
    rw [Statements.nodes, List.flatMap_cons, Statements.built]
    refine first.looseJumps_built.bind fun steps hsteps => ?_
    refine rest.looseJumps_built.bind fun others hothers => gives_pure ?_
    rw [HasJumps, Step.looseJumps_append, hsteps, hothers]

theorem Block.looseJumps_built (d : Block) : Gives (HasJumps d.node.looseJumps) d.built := by
  match d with
  | .mk start statements stop =>
    rw [Block.node, Node.looseJumps_mk rfl (by decide), Child.gather_map_node, Block.built]
    exact statements.looseJumps_built.bind fun steps hsteps =>
      gives_pure (Step.looseJumps_merge.trans hsteps)

theorem Condition.looseJumps_built (d : Condition) :
    Gives (fun case => HasJumps (Child.gather Node.looseJumps d.children) case.body) d.built := by
  match d with
  | .mk start test stop body =>
    rw [Condition.children, Child.gather_node, test.statementFree.looseJumps, List.nil_append,
      Child.gather_node, Child.gather_nil, List.append_nil, Condition.built]
    exact (gives_any _).bind fun e _ => body.looseJumps_built.bind fun steps hsteps =>
      gives_pure hsteps

theorem ElseClauses.looseJumps_built (d : ElseClauses) :
    Gives (fun cases => (cases.flatMap fun case => Step.looseJumps case.body) =
      Child.gather Node.looseJumps d.children) d.built := by
  match d with
  | .none =>
    rw [ElseClauses.built]
    exact gives_pure rfl
  | .elseIf else_ if_ condition rest =>
    rw [ElseClauses.children, Child.gather_token, Child.gather_token, Child.gather_append,
      ElseClauses.built]
    refine condition.looseJumps_built.bind fun case hcase => ?_
    refine rest.looseJumps_built.bind fun others hothers => gives_pure ?_
    rw [List.flatMap_cons, hcase, hothers]
  | .last else_ body =>
    rw [ElseClauses.children, Child.gather_token, Child.gather_node, Child.gather_nil,
      List.append_nil, ElseClauses.built]
    refine body.looseJumps_built.bind fun steps hsteps => gives_pure ?_
    rw [List.flatMap_singleton]
    exact hsteps

/-- What a parallel statement does has the jumps of its branches, whatever the options. -/
theorem ParallelBody.looseJumps_built (d : ParallelBody) :
    Gives (fun action => ∀ options : ParallelOptions,
      HasJumps (Child.gather Node.looseJumps d.children) [(action options).raw]) d.built := by
  match d with
  | .loop loop =>
    rw [ParallelBody.children, Child.gather_node, loop.looseJumps_node, Child.gather_nil,
      ParallelBody.built]
    exact (gives_any _).bind fun ⟨head, body⟩ _ => gives_pure fun options => hasJumps_leaf rfl rfl
  | .branches branch body rest =>
    rw [ParallelBody.children, Child.gather_token, Child.gather_node, ParallelBody.built]
    refine body.looseJumps_built.bind fun steps hsteps => ?_
    refine rest.looseJumps_built.bind fun others hothers => gives_pure fun options => ?_
    rw [HasJumps, Step.looseJumps_raw rfl, Action.outside]
    exact hasJumps_branch hsteps hothers

theorem Branches.looseJumps_built (d : Branches) :
    Gives (HasJumps (Child.gather Node.looseJumps d.children)) d.built := by
  match d with
  | .nil =>
    rw [Branches.built]
    exact gives_pure Step.looseJumps_nil
  | .cons branch body rest =>
    rw [Branches.children, Child.gather_token, Child.gather_node, Branches.built]
    exact body.looseJumps_built.bind fun steps hsteps => rest.looseJumps_built.bind
      fun others hothers => gives_pure (hasJumps_branch hsteps hothers)

theorem Handler.looseJumps_built (d : Handler) :
    Gives (fun handler => HasJumps (Child.gather Node.looseJumps d.children) handler.2)
      d.built := by
  match d with
  | .none =>
    rw [Handler.built]
    exact gives_pure Step.looseJumps_nil
  | .some catch_ start error stop body =>
    rw [Handler.children, Child.gather_token, Child.gather_token, Child.gather_node,
      Child.gather_nil, List.append_nil, Handler.built]
    exact body.looseJumps_built.bind fun steps hsteps => gives_pure hsteps

end

/-! ## Programs -/

theorem Definition.looseJumps_built (d : Definition) :
    Gives (fun w => HasJumps d.node.looseJumps w.steps) d.built := by
  cases d with
  | mk workflow name start parameters body =>
    rw [Definition.node, Node.looseJumps_mk rfl (by decide), Child.gather_token,
      Child.gather_token, Child.gather_node, parameters.statementFree.looseJumps, List.nil_append,
      Child.gather_node, Child.gather_nil, List.append_nil, Definition.built]
    exact body.looseJumps_built.bind fun steps hsteps => gives_pure hsteps

theorem Program.looseJumps_built (p : Program) :
    Gives (fun program => program.looseJumps = (p.map Definition.node).flatMap Node.looseJumps)
      (Program.built p) := by
  induction p with
  | nil => exact gives_pure rfl
  | cons d rest ih =>
    rw [List.map_cons, List.flatMap_cons, Program.built]
    refine d.looseJumps_built.bind fun w hw => ih.bind fun others hothers => gives_pure ?_
    rw [Program.looseJumps, List.flatMap_cons, hw, ← hothers]
    rfl

end Phrase

/-- The jumps outside loops of a text are those of the program that is built from it. -/
theorem looseJumps_of_build {source : String} {tree : Node} {program : Program Unit}
    (hparse : parse source = .ok tree) (hbuild : buildProgram tree = .ok program) :
    program.looseJumps = tree.looseJumps := by
  obtain ⟨p, _, stop, count, -, -, -, rfl, hrun⟩ := exists_phrase_of_parse hparse hbuild
  rw [Phrase.Program.node, Node.looseJumps_mk rfl (by decide), Child.gather_map_node]
  exact p.looseJumps_built 0 program count hrun

/-! ## Names of steps -/

mutual

theorem Step.outside_unnamed (step : NamedStep) :
    step.unnamed.outside = step.outside.map Step.unnamed := by
  match step with
  | .mk label action =>
    rw [Step.unnamed, Step.outside, Step.outside, List.map_cons, action.outside_unnamed,
      Step.unnamed]

theorem Action.outside_unnamed (action : Action String) :
    action.unnamed.outside = action.outside.map Step.unnamed := by
  match action with
  | .assign _ | .call _ _ _ | .next _ | .raise _ | .return _ | .loop _ _ | .parallelLoop _ _ _ =>
    simp only [Action.unnamed, Action.outside, List.map_nil]
  | .branches _ body | .steps body =>
    rw [Action.unnamed, Action.outside, Action.outside, Step.outsideAll_unnamedAll]
  | .switch cases next =>
    rw [Action.unnamed, Action.outside, Action.outside, Case.outsideAll_unnamedAll]
  | .attempt body retry errorName handler =>
    rw [Action.unnamed, Action.outside, Action.outside, Step.outsideAll_unnamedAll,
      Step.outsideAll_unnamedAll, List.map_append]

theorem Step.outsideAll_unnamedAll (steps : List NamedStep) :
    Step.outsideAll (Step.unnamedAll steps) = (Step.outsideAll steps).map Step.unnamed := by
  match steps with
  | [] => rfl
  | step :: rest =>
    rw [Step.unnamedAll, Step.outsideAll, Step.outsideAll, List.map_append, step.outside_unnamed,
      Step.outsideAll_unnamedAll rest]

theorem Case.outsideAll_unnamedAll (cases : List (Case String)) :
    Case.outsideAll (Case.unnamedAll cases) = (Case.outsideAll cases).map Step.unnamed := by
  match cases with
  | [] => rfl
  | .mk condition body next :: rest =>
    rw [Case.unnamedAll, Case.outsideAll, Case.outsideAll, List.map_append,
      Step.outsideAll_unnamedAll, Case.outsideAll_unnamedAll rest]

end

theorem Step.jump?_unnamed (step : NamedStep) : step.unnamed.jump? = step.jump? := by
  obtain ⟨label, action⟩ := step
  cases action with
  | _ => rfl

/-- Names change nothing about jumps. -/
theorem looseJumps_named (program : Program Unit) :
    program.named.looseJumps = program.looseJumps := by
  have hsame := (Subworkflow.namedAll_spec program .zero).1
  have hsteps (steps : List NamedStep) :
      Step.looseJumps (Step.unnamedAll steps) = Step.looseJumps steps := by
    rw [Step.looseJumps, Step.outsideAll_unnamedAll, List.filterMap_map, Step.looseJumps]
    exact List.filterMap_congr fun step _ => step.jump?_unnamed
  conv => rhs; rw [← hsame]
  rw [Program.looseJumps, Program.looseJumps, Program.unnamed, List.flatMap_map]
  exact List.flatMap_congr fun w _ => (hsteps w.steps).symm

end Workflow
