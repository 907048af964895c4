import Workflow.Compile
import Workflow.Proofs.Build.Statement
import Workflow.Proofs.Outcome
import Workflow.Proofs.Step.Merging

/-!
# Blocks

What a block of any tree is built into, also of a tree that no text has. Its statements are built
one after the other, and what the block does is what they do, in this order. A block inside a
statement is built for itself and becomes a body of the one step of this statement, so that nothing
of it is merged with what is around it.
-/

namespace Workflow

/-! ## Building one after the other -/

/-- Things are built one after the other, each with the temporaries that those before it leave. -/
inductive Threaded {ι β : Type} (build : ι → Build β) : Nat → List ι → List β → Nat → Prop
  | nil (n : Nat) : Threaded build n [] [] n
  | cons {n k m : Nat} {i : ι} {is : List ι} {b : β} {bs : List β} (h : build i n = .ok (b, k))
      (hrest : Threaded build k is bs m) : Threaded build n (i :: is) (b :: bs) m

section

variable {α β : Type} {n : Nat} {result : β × Nat}

theorem Threaded.singleton {ι : Type} {build : ι → Build β} {m : Nat} {i : ι} {b : β}
    (h : build i n = .ok (b, m)) : Threaded build n [i] [b] m :=
  .cons h (.nil m)

/-- A part of building that uses no temporaries. -/
theorem lift_bind_eq_ok {x : Except BuildError α} {f : α → Build β}
    (h : ((liftM x : Build α) >>= f) n = .ok result) : ∃ a, x = .ok a ∧ f a n = .ok result := by
  cases x with
  | error e => cases h
  | ok a => exact ⟨a, rfl, h⟩

/-- A lookup that fails only where the tree is malformed. -/
theorem lookup_bind_eq_ok {x : Except Malformation α} {f : α → Build β}
    (h : ((liftM x : Build α) >>= f) n = .ok result) : ∃ a, x = .ok a ∧ f a n = .ok result := by
  cases x with
  | error e => cases h
  | ok a => exact ⟨a, rfl, h⟩

end

namespace Node

variable {n : Node} {slot : Slot} {m : n.Below}

theorem exists_nodes_of_node? (h : n.node? slot = some m) :
    ∃ rest, n.nodes slot = m.val :: rest := by
  cases hnodes : n.nodes slot with
  | nil =>
    rw [node?_of_nodes_nil hnodes] at h
    cases h
  | cons c rest =>
    obtain ⟨hc, hnode⟩ := node?_of_nodes_cons hnodes
    rw [hnode] at h
    cases h
    exact ⟨rest, rfl⟩

theorem nodes_eq_nil_of_node? (h : n.node? slot = none) : n.nodes slot = [] := by
  cases hnodes : n.nodes slot with
  | nil => rfl
  | cons c rest =>
    obtain ⟨hc, hnode⟩ := node?_of_nodes_cons hnodes
    rw [hnode] at h
    cases h

theorem exists_nodes_of_requireNode (h : n.requireNode slot = .ok m) :
    ∃ rest, n.nodes slot = m.val :: rest := by
  rw [requireNode] at h
  split at h
  · rename_i hnode
    cases h
    exact exists_nodes_of_node? hnode
  · cases h

end Node

/-! ## Blocks in statements and bodies of steps -/

/-- The blocks that stand directly in a statement, in source order. -/
def Node.blocks (n : Node) : List Node :=
  match n.rule with
  | .ifStatement => n.nodes .statementBlock
  | .forStatement => (n.nodes .statementBlock).take 1
  | .parallelStatement =>
    match n.nodes .forStatement with
    | loop :: _ => (loop.nodes .statementBlock).take 1
    | [] => n.nodes .statementBlock
  | .tryStatement => (n.nodes .tryBlock).take 1 ++ (n.nodes .catchBlock).take 1
  | _ => []

/-- The lists of steps that an action holds, in order. Each branch holds one. -/
def Action.bodies {α : Type} : Action α → List (List (Step α))
  | .loop _ body => [body]
  | .branches _ rows => rows.map Step.children
  | .parallelLoop _ _ body => [body]
  | .steps body => [body]
  | .switch cases _ => cases.map Case.body
  | .attempt body _ errorName handler => body :: (errorName.map fun _ => handler).toList
  | _ => []

/-- A call, or one assignment or more. -/
def Action.IsPlain {α : Type} : Action α → Prop
  | .call _ _ _ => True
  | .assign assignments => assignments ≠ []
  | _ => False

/-- What a statement becomes. An assignment or a call becomes calls and assignments. Every other
statement becomes a single step that makes no assignment, and the bodies of this step are what the
blocks of the statement are built into, one by one. -/
def Node.BuiltInto (n : Node) (count : Nat) (steps : List RawStep) (after : Nat) : Prop :=
  (n.rule = .callOrAssignment ∧ ∀ step ∈ steps, step.action.IsPlain) ∨
    ∃ action : Action Unit, steps = [action.raw] ∧ action.raw.isAssign = false ∧
      Threaded Step.ofBlock count n.blocks action.bodies after

section

variable {n : Node} {ns : List Node} {count after : Nat} {steps : List RawStep}

theorem Step.threaded_ofNodes (h : Step.ofNodes ns count = .ok (steps, after)) :
    ∃ rows, Threaded Step.ofNode count ns rows after ∧ steps = rows.flatten := by
  induction ns generalizing count steps with
  | nil =>
    rw [Step.ofNodes] at h
    cases h
    exact ⟨[], .nil _, rfl⟩
  | cons n rest ih =>
    rw [Step.ofNodes] at h
    obtain ⟨⟨row, k⟩, hrow, h⟩ := bind_eq_ok.mp h
    obtain ⟨⟨others, l⟩, hothers, h⟩ := bind_eq_ok.mp h
    cases h
    obtain ⟨rows, hrows, rfl⟩ := ih hothers
    exact ⟨row :: rows, .cons hrow hrows, rfl⟩

theorem Step.threaded_ofBranches (h : Step.ofBranches ns count = .ok (steps, after)) :
    Threaded Step.ofBlock count ns (steps.map Step.children) after := by
  induction ns generalizing count steps with
  | nil =>
    rw [Step.ofBranches] at h
    cases h
    exact .nil _
  | cons n rest ih =>
    rw [Step.ofBranches] at h
    obtain ⟨⟨body, k⟩, hbody, h⟩ := bind_eq_ok.mp h
    obtain ⟨⟨others, l⟩, hothers, h⟩ := bind_eq_ok.mp h
    cases h
    exact .cons hbody (ih hothers)

theorem Case.threaded_ofNodes {conditions : List Node} {cases : List (Case Unit)}
    (h : Case.ofNodes conditions ns count = .ok (cases, after)) :
    Threaded Step.ofBlock count ns (cases.map Case.body) after := by
  induction ns generalizing conditions count cases with
  | nil =>
    rw [Phrase.ofNodes_nil_right] at h
    cases h
    exact .nil _
  | cons n rest ih =>
    -- the condition is built first, without temporaries
    have hbody : ∃ condition conditions', (do
        let body ← Step.ofBlock n
        let others ← Case.ofNodes conditions' rest
        return Case.mk condition body none :: others : Build (List (Case Unit))) count =
          .ok (cases, after) := by
      cases conditions with
      | nil =>
        rw [Phrase.ofNodes_nil_cons] at h
        exact ⟨_, _, h⟩
      | cons condition others =>
        rw [Phrase.ofNodes_cons_cons] at h
        obtain ⟨e, _, h⟩ := lift_bind_eq_ok h
        exact ⟨e, others, h⟩
    obtain ⟨condition, conditions', hbody⟩ := hbody
    obtain ⟨⟨body, k⟩, hblock, h⟩ := bind_eq_ok.mp hbody
    obtain ⟨⟨others, l⟩, hothers, h⟩ := bind_eq_ok.mp h
    cases h
    exact .cons hblock (ih hothers)

theorem Step.isPlain_ofBareCall {step : RawStep} (h : Step.ofBareCall n = .ok step) :
    step.action.IsPlain := by
  rw [Step.ofBareCall] at h
  obtain ⟨found, _, h⟩ := bind_eq_ok.mp h
  obtain ⟨name, _, h⟩ := bind_eq_ok.mp h
  split at h
  · obtain ⟨args, _, h⟩ := bind_eq_ok.mp h
    cases h
    exact List.cons_ne_nil _ _
  · obtain ⟨args, _, h⟩ := bind_eq_ok.mp h
    cases h
    trivial

theorem Step.isPlain_ofCallOrAssignment
    (h : Step.ofCallOrAssignment n count = .ok (steps, after)) :
    ∀ step ∈ steps, step.action.IsPlain := by
  rw [Step.ofCallOrAssignment] at h
  obtain ⟨_, _, h⟩ := lookup_bind_eq_ok h
  cases hreference : n.child? .variableReference with
  | none =>
    simp only [hreference] at h
    obtain ⟨step, hstep, h⟩ := lift_bind_eq_ok h
    cases h
    exact List.forall_mem_singleton.mpr (Step.isPlain_ofBareCall hstep)
  | some reference =>
    simp only [hreference] at h
    obtain ⟨target, _, h⟩ := lift_bind_eq_ok h
    cases hcall : n.child? .namedCall with
    | none =>
      simp only [hcall] at h
      obtain ⟨value, _, h⟩ := lookup_bind_eq_ok h
      obtain ⟨e, _, h⟩ := lift_bind_eq_ok h
      cases h
      exact List.forall_mem_singleton.mpr (List.cons_ne_nil _ _)
    | some call =>
      simp only [hcall] at h
      obtain ⟨_, _, h⟩ := lookup_bind_eq_ok h
      obtain ⟨name, _, h⟩ := lookup_bind_eq_ok h
      obtain ⟨text, _, h⟩ := lift_bind_eq_ok h
      obtain ⟨args, _, h⟩ := lift_bind_eq_ok h
      split at h
      · cases h
        exact List.forall_mem_singleton.mpr trivial
      · cases h
        exact List.forall_mem_cons.mpr
          ⟨trivial, List.forall_mem_singleton.mpr (List.cons_ne_nil _ _)⟩

theorem Node.BuiltInto.of_action {action : Action Unit} (hassign : action.raw.isAssign = false)
    (h : Threaded Step.ofBlock count n.blocks action.bodies after) :
    n.BuiltInto count [action.raw] after :=
  .inr ⟨action, rfl, hassign, h⟩

/-- The block that a statement must have. -/
theorem Step.threaded_requireNode {slot : Slot} {block : n.Below} {body : List RawStep}
    (hblock : n.requireNode slot = .ok block)
    (h : Step.ofBlock block.val count = .ok (body, after)) :
    Threaded Step.ofBlock count ((n.nodes slot).take 1) [body] after := by
  obtain ⟨rest, hnodes⟩ := Node.exists_nodes_of_requireNode hblock
  rw [hnodes]
  exact .singleton h

theorem Step.builtInto_ofNode_parallel (hrule : n.rule = .parallelStatement)
    (h : Step.ofNode n count = .ok (steps, after)) : n.BuiltInto count steps after := by
  rw [Step.ofNode] at h
  simp only [hrule] at h
  obtain ⟨options, _, h⟩ := lift_bind_eq_ok h
  cases hloop : n.node? .forStatement with
  | some loop =>
    simp only [hloop] at h
    obtain ⟨head, _, h⟩ := lift_bind_eq_ok h
    obtain ⟨block, hblock, h⟩ := lookup_bind_eq_ok h
    obtain ⟨⟨body, k⟩, hbody, h⟩ := bind_eq_ok.mp h
    cases h
    obtain ⟨loops, hloops⟩ := Node.exists_nodes_of_node? hloop
    refine .of_action rfl ?_
    simp only [Node.blocks, hrule, hloops]
    exact Step.threaded_requireNode hblock hbody
  | none =>
    simp only [hloop] at h
    obtain ⟨⟨rows, k⟩, hrows, h⟩ := bind_eq_ok.mp h
    by_cases hempty : rows.isEmpty
    · simp only [hempty, if_true] at h
      cases h
    · simp only [hempty] at h
      cases h
      refine .of_action rfl ?_
      simp only [Node.blocks, hrule, Node.nodes_eq_nil_of_node? hloop]
      exact Step.threaded_ofBranches hrows

theorem Step.builtInto_ofNode_try (hrule : n.rule = .tryStatement)
    (h : Step.ofNode n count = .ok (steps, after)) : n.BuiltInto count steps after := by
  rw [Step.ofNode] at h
  simp only [hrule] at h
  obtain ⟨block, hblock, h⟩ := lookup_bind_eq_ok h
  obtain ⟨⟨body, k⟩, hbody, h⟩ := bind_eq_ok.mp h
  obtain ⟨retry, _, h⟩ := lift_bind_eq_ok h
  obtain ⟨rest, hnodes⟩ := Node.exists_nodes_of_requireNode hblock
  cases hcatch : n.node? .catchBlock with
  | some handler =>
    simp only [hcatch] at h
    obtain ⟨name, _, h⟩ := lookup_bind_eq_ok h
    obtain ⟨⟨others, l⟩, hothers, h⟩ := bind_eq_ok.mp h
    cases h
    obtain ⟨more, hmore⟩ := Node.exists_nodes_of_node? hcatch
    refine .of_action rfl ?_
    simp only [Node.blocks, hrule, hnodes, hmore]
    exact .cons hbody (.singleton hothers)
  | none =>
    simp only [hcatch] at h
    cases h
    refine .of_action rfl ?_
    simp only [Node.blocks, hrule, hnodes, Node.nodes_eq_nil_of_node? hcatch]
    exact .singleton hbody

theorem Step.builtInto_ofNode (h : Step.ofNode n count = .ok (steps, after)) :
    n.BuiltInto count steps after := by
  cases hrule : n.rule with
  | parallelStatement => exact Step.builtInto_ofNode_parallel hrule h
  | tryStatement => exact Step.builtInto_ofNode_try hrule h
  | callOrAssignment =>
    rw [Step.ofNode] at h
    simp only [hrule] at h
    exact .inl ⟨hrule, Step.isPlain_ofCallOrAssignment h⟩
  | ifStatement =>
    rw [Step.ofNode] at h
    simp only [hrule] at h
    split at h
    · cases h
    · obtain ⟨⟨cases, k⟩, hcases, h⟩ := bind_eq_ok.mp h
      cases h
      refine .of_action rfl ?_
      simp only [Node.blocks, hrule]
      exact Case.threaded_ofNodes hcases
  | forStatement =>
    rw [Step.ofNode] at h
    simp only [hrule] at h
    obtain ⟨head, _, h⟩ := lift_bind_eq_ok h
    obtain ⟨block, hblock, h⟩ := lookup_bind_eq_ok h
    obtain ⟨⟨body, k⟩, hbody, h⟩ := bind_eq_ok.mp h
    cases h
    refine .of_action rfl ?_
    simp only [Node.blocks, hrule]
    exact Step.threaded_requireNode hblock hbody
  | throwStatement =>
    rw [Step.ofNode] at h
    simp only [hrule] at h
    obtain ⟨value, _, h⟩ := lookup_bind_eq_ok h
    obtain ⟨e, _, h⟩ := lift_bind_eq_ok h
    cases h
    refine .of_action rfl ?_
    simp only [Node.blocks, hrule]
    exact .nil _
  | breakStatement | continueStatement =>
    rw [Step.ofNode] at h
    simp only [hrule] at h
    cases h
    refine .of_action rfl ?_
    simp only [Node.blocks, hrule]
    exact .nil _
  | returnStatement =>
    rw [Step.ofNode] at h
    simp only [hrule] at h
    have hleaf : ∃ value, steps = [(Action.return value).raw] ∧ after = count := by
      cases hvalue : n.child? .expression with
      | some value =>
        simp only [hvalue] at h
        obtain ⟨e, _, h⟩ := lift_bind_eq_ok h
        cases h
        exact ⟨_, rfl, rfl⟩
      | none =>
        simp only [hvalue] at h
        cases h
        exact ⟨_, rfl, rfl⟩
    obtain ⟨value, rfl, rfl⟩ := hleaf
    refine .of_action rfl ?_
    simp only [Node.blocks, hrule]
    exact .nil _
  | _ =>
    rw [Step.ofNode] at h
    simp only [hrule] at h
    cases h

/-! ## Blocks -/

theorem Step.exists_threaded_of_ofBlock (h : Step.ofBlock n count = .ok (steps, after)) :
    ∃ rows, Threaded Step.ofNode count (n.nodes .statement) rows after ∧
      steps = Step.merge rows.flatten := by
  rw [Step.ofBlock] at h
  obtain ⟨_, _, h⟩ := lookup_bind_eq_ok h
  obtain ⟨⟨found, k⟩, hfound, h⟩ := bind_eq_ok.mp h
  cases h
  obtain ⟨rows, hrows, rfl⟩ := Step.threaded_ofNodes hfound
  exact ⟨rows, hrows, rfl⟩

end

/-- Merging leaves no two assignments next to each other, keeps what steps do in order, and gives
the same whether parts are merged first or not. So a block of any tree, at any depth, does what its
statements do, one after the other, and what is inside a statement stays in the bodies of its one
step, which are built from the blocks of the statement. -/
theorem ofBlock_keeps_order :
    (∀ steps : List RawStep, Step.Separated (Step.merge steps) ∧
      (Step.merge steps).flatMap Step.pieces = steps.flatMap Step.pieces ∧
      Step.merge (Step.merge steps) = Step.merge steps) ∧
    (∀ steps rest : List RawStep,
      Step.merge (steps ++ rest) = Step.merge (Step.merge steps ++ Step.merge rest)) ∧
    (∀ (block : Node) (count after : Nat) (steps : List RawStep),
      Step.ofBlock block count = .ok (steps, after) →
        ∃ rows, Threaded Step.ofNode count (block.nodes .statement) rows after ∧
          Step.Separated steps ∧
          steps.flatMap Step.pieces = rows.flatMap fun row => row.flatMap Step.pieces) ∧
    ∀ (statement : Node) (count after : Nat) (steps : List RawStep),
      Step.ofNode statement count = .ok (steps, after) → statement.BuiltInto count steps after := by
  refine ⟨fun steps => ⟨Step.separated_merge steps, Step.pieces_merge steps,
    Step.merge_merge steps⟩, fun steps rest => ?_, fun block count after steps h => ?_,
    fun statement count after steps h => Step.builtInto_ofNode h⟩
  · rw [Step.merge_merge_append, Step.merge_append_merge]
  · obtain ⟨rows, hrows, rfl⟩ := Step.exists_threaded_of_ofBlock h
    refine ⟨rows, hrows, Step.separated_merge _, ?_⟩
    rw [Step.pieces_merge, List.flatten_eq_flatMap, List.flatMap_assoc]
    rfl

/-- A call that becomes two steps, whose second one stays apart from the assignment in front of the
call, and assignments inside a condition that stay apart from those behind it. -/
theorem ofBlock_keeps_order_sample : ∃ (block : Node) (steps : List RawStep)
    (rows : List (List RawStep)), Step.ofBlock block 0 = .ok (steps, 2) ∧
      steps.map Step.isAssign = [true, false, true, false, true] ∧
      Threaded Step.ofNode 0 (block.nodes .statement) rows 2 ∧
      steps.flatMap Step.pieces = rows.flatMap fun row => row.flatMap Step.pieces := by
  generalize hsource : "workflow w() \x7b a = 1 b.c = f() if (x) \x7b d = 1 e[0] = g() \x7d k = 2" ++
    " l = 3 \x7d" = source
  have hrun : ((parse source).toOption.bind fun tree =>
      (tree.nodes .subworkflowDefinition).head?.bind fun definition =>
        (definition.nodes .statementBlock).head?.bind fun block =>
          (Step.ofBlock block 0).toOption.map fun built => (built.2, built.1.map Step.isAssign)) =
      some (2, [true, false, true, false, true]) := by
    rw [← hsource]
    decide +kernel
  obtain ⟨tree, _, hrun⟩ := Option.bind_eq_some_iff.mp hrun
  obtain ⟨definition, _, hrun⟩ := Option.bind_eq_some_iff.mp hrun
  obtain ⟨block, _, hrun⟩ := Option.bind_eq_some_iff.mp hrun
  obtain ⟨⟨steps, after⟩, hbuilt, hrun⟩ := Option.map_eq_some_iff.mp hrun
  obtain ⟨rfl, hassign⟩ := Prod.mk.inj hrun
  have hblock : Step.ofBlock block 0 = .ok (steps, 2) := eq_ok_of_toOption hbuilt
  obtain ⟨rows, hrows, _, hpieces⟩ := ofBlock_keeps_order.2.2.1 block 0 2 steps hblock
  exact ⟨block, steps, rows, hblock, hassign, hrows, hpieces⟩

end Workflow
