import Workflow.Program.OfTree
import Workflow.Proofs.Layout.Expressions

/-!
# Programs do not depend on positions

Trees that are alike are built into the same program, or fail with faults that are reported alike.
-/

namespace Workflow

variable {n m : Node}

/-! ## Arguments and options -/

theorem Expr.listOfNode_agrees (h : n.Alike m) :
    Agrees Eq (Expr.listOfNode n) (Expr.listOfNode m) := by
  rw [Expr.listOfNode, Expr.listOfNode]
  exact (expectRule_agrees h _).bind fun _ _ _ => Expr.ofNodes_agrees (h.nodes _)

/-- Arguments that differ at most in their positions. -/
def NamedArgument.Alike (a b : NamedArgument) : Prop := a.name = b.name ∧ a.value = b.value

namespace NamedArgument

variable {args args' : List NamedArgument}

theorem ofPairs_agrees {ts ts' : List Token} {ns ms : List Node} (ht : Alikes ts ts')
    (h : List.Forall₂ Node.Alike ns ms) :
    Agrees (List.Forall₂ Alike) (ofPairs ts ns) (ofPairs ts' ms) := by
  induction ht generalizing ns ms with
  | nil => exact .ok .nil
  | cons ht _ ih =>
    cases h with
    | nil => exact .ok .nil
    | cons h hs =>
      rw [ofPairs, ofPairs]
      refine (Expr.ofNode_agrees h).bind fun value _ hvalue => ?_
      exact (ih hs).bind fun _ _ hothers => .ok (.cons ⟨ht.2, hvalue⟩ hothers)

theorem listOfNode_agrees (h : n.Alike m) :
    Agrees (List.Forall₂ Alike) (listOfNode n) (listOfNode m) := by
  rw [listOfNode, listOfNode]
  refine (expectRule_agrees h _).bind fun _ _ _ => ?_
  dsimp only
  rw [(h.tokens .identifier).length_eq, (h.nodes .expression).length_eq]
  split
  · exact .error rfl
  · exact ofPairs_agrees (h.tokens _) (h.nodes _)

theorem repeated?_alike (seen : List String) (h : List.Forall₂ Alike args args') :
    (repeated? seen args = none ∧ repeated? seen args' = none) ∨
      ∃ a b, repeated? seen args = some a ∧ repeated? seen args' = some b ∧ Alike a b := by
  induction h generalizing seen with
  | nil => exact .inl ⟨rfl, rfl⟩
  | cons ha _ ih =>
    rw [repeated?, repeated?, ha.1]
    split
    · exact .inr ⟨_, _, rfl, rfl, ha⟩
    · exact ih _

theorem map_alike (h : List.Forall₂ Alike args args') :
    args.map (fun arg => (arg.name, arg.value)) = args'.map fun arg => (arg.name, arg.value) := by
  induction h with
  | nil => rfl
  | cons ha _ ih => rw [List.map_cons, List.map_cons, ha.1, ha.2, ih]

theorem callArguments_agrees (h : List.Forall₂ Alike args args') :
    Agrees Eq (callArguments args) (callArguments args') := by
  rw [callArguments, callArguments]
  obtain ⟨hn, hm⟩ | ⟨a, b, hn, hm, ha⟩ := repeated?_alike [] h
  · rw [hn, hm, map_alike h]
    exact .ok rfl
  · rw [hn, hm]
    dsimp only
    rw [ha.1]
    exact .error rfl

theorem distinct_agrees (owner : OptionOwner) (h : List.Forall₂ Alike args args') :
    Agrees Eq (distinct owner args) (distinct owner args') := by
  rw [distinct, distinct]
  obtain ⟨hn, hm⟩ | ⟨a, b, hn, hm, ha⟩ := repeated?_alike [] h
  · rw [hn, hm]
    exact .ok rfl
  · rw [hn, hm]
    dsimp only
    rw [ha.1]
    exact .error rfl

end NamedArgument

theorem argumentsOf_agrees (h : n.Alike m) (slot : Slot) :
    Agrees Eq (argumentsOf (n.child? slot)) (argumentsOf (m.child? slot)) := by
  obtain ⟨hn, hm⟩ | ⟨c, c', hn, hm, hc⟩ := h.child? slot
  · rw [hn, hm]
    exact agrees_refl _
  · rw [hn, hm]
    exact (NamedArgument.listOfNode_agrees hc).bind fun _ _ => NamedArgument.callArguments_agrees

namespace ParallelOptions

variable {a b : NamedArgument}

theorem set_agrees (options : ParallelOptions) (h : a.Alike b) :
    Agrees Eq (set options a) (set options b) := by
  unfold set
  rw [h.1, h.2]
  split
  · split
    · exact .ok rfl
    · exact .error rfl
  split
  · split
    · exact .ok rfl
    · exact .error rfl
  split
  · split
    · exact .ok rfl
    · exact .error rfl
  · exact .error rfl

theorem ofArguments_agrees {args args' : List NamedArgument}
    (h : List.Forall₂ NamedArgument.Alike args args') :
    Agrees Eq (ofArguments args) (ofArguments args') := by
  rw [ofArguments, ofArguments]
  refine (NamedArgument.distinct_agrees _ h).bind fun _ _ _ => ?_
  generalize ParallelOptions.empty = options
  induction h generalizing options with
  | nil => exact .ok rfl
  | cons ha _ ih =>
    rw [List.foldlM_cons, List.foldlM_cons]
    refine (set_agrees options ha).bind fun options _ hoptions => ?_
    subst hoptions
    exact ih options

theorem ofNode_agrees (h : n.Alike m) :
    Agrees Eq (ParallelOptions.ofNode n) (ParallelOptions.ofNode m) := by
  rw [ParallelOptions.ofNode, ParallelOptions.ofNode]
  obtain ⟨hn, hm⟩ | ⟨c, c', hn, hm, hc⟩ := h.child? .actualNamedParameterList
  · rw [hn, hm]
    exact .ok rfl
  · rw [hn, hm]
    exact (NamedArgument.listOfNode_agrees hc).bind fun _ _ => ofArguments_agrees

end ParallelOptions

namespace RetryPolicy

variable {a b : NamedArgument} {args args' : List NamedArgument}

theorem find?_alike (h : List.Forall₂ NamedArgument.Alike args args') (name : String) :
    (find? args name = none ∧ find? args' name = none) ∨
      ∃ a b, find? args name = some a ∧ find? args' name = some b ∧ a.Alike b := by
  unfold find?
  induction h with
  | nil => exact .inl ⟨rfl, rfl⟩
  | cons ha _ ih =>
    rw [List.find?_cons, List.find?_cons, ha.1]
    split
    · exact .inr ⟨_, _, rfl, rfl, ha⟩
    · exact ih

theorem nameOption_agrees (h : a.Alike b) (otherwise : Defect) :
    Agrees Eq (nameOption a otherwise) (nameOption b otherwise) := by
  rw [nameOption, nameOption, h.2]
  split
  · exact .ok rfl
  · exact .error rfl

theorem numberOption_agrees (h : a.Alike b) : Agrees Eq (numberOption a) (numberOption b) := by
  rw [numberOption, numberOption, h.1, h.2]
  split
  · exact .ok rfl
  · exact .error rfl

/-- The policy of options that are looked up by their names. -/
def ofCustom (args : List NamedArgument) (position : Position) : Except BuildError RetryPolicy :=
  match find? args "predicate", find? args "max_retries", find? args "initial_delay",
    find? args "max_delay", find? args "multiplier" with
  | some predicate, some maxRetries, some initialDelay, some maxDelay, some multiplier => do
    let predicate ← nameOption predicate .predicateNotName
    let maxRetries ← numberOption maxRetries
    let initialDelay ← numberOption initialDelay
    let maxDelay ← numberOption maxDelay
    let multiplier ← numberOption multiplier
    return .custom predicate maxRetries initialDelay maxDelay multiplier
  | _, _, _, _, _ => throw (.defect .retryShape position)

theorem ofCustom_agrees (h : List.Forall₂ NamedArgument.Alike args args') (p p' : Position) :
    Agrees Eq (ofCustom args p) (ofCustom args' p') := by
  unfold ofCustom
  obtain ⟨h₁, h₁'⟩ | ⟨a₁, b₁, h₁, h₁', ha₁⟩ := find?_alike h "predicate"
  · rw [h₁, h₁']
    exact .error rfl
  obtain ⟨h₂, h₂'⟩ | ⟨a₂, b₂, h₂, h₂', ha₂⟩ := find?_alike h "max_retries"
  · rw [h₁, h₁', h₂, h₂']
    exact .error rfl
  obtain ⟨h₃, h₃'⟩ | ⟨a₃, b₃, h₃, h₃', ha₃⟩ := find?_alike h "initial_delay"
  · rw [h₁, h₁', h₂, h₂', h₃, h₃']
    exact .error rfl
  obtain ⟨h₄, h₄'⟩ | ⟨a₄, b₄, h₄, h₄', ha₄⟩ := find?_alike h "max_delay"
  · rw [h₁, h₁', h₂, h₂', h₃, h₃', h₄, h₄']
    exact .error rfl
  obtain ⟨h₅, h₅'⟩ | ⟨a₅, b₅, h₅, h₅', ha₅⟩ := find?_alike h "multiplier"
  · rw [h₁, h₁', h₂, h₂', h₃, h₃', h₄, h₄', h₅, h₅']
    exact .error rfl
  rw [h₁, h₁', h₂, h₂', h₃, h₃', h₄, h₄', h₅, h₅']
  refine (nameOption_agrees ha₁ _).bind fun predicate _ hpredicate => ?_
  refine (numberOption_agrees ha₂).bind fun maxRetries _ hmaxRetries => ?_
  refine (numberOption_agrees ha₃).bind fun initialDelay _ hinitialDelay => ?_
  refine (numberOption_agrees ha₄).bind fun maxDelay _ hmaxDelay => ?_
  refine (numberOption_agrees ha₅).bind fun multiplier _ hmultiplier => ?_
  subst hpredicate hmaxRetries hinitialDelay hmaxDelay hmultiplier
  exact .ok rfl

theorem ofArguments_agrees (h : List.Forall₂ NamedArgument.Alike args args')
    (p p' : Position) : Agrees Eq (ofArguments args p) (ofArguments args' p') := by
  unfold ofArguments
  refine (NamedArgument.distinct_agrees _ h).bind fun _ _ _ => ?_
  match h with
  | .nil => exact .error rfl
  | .cons ha .nil =>
    dsimp only
    rw [ha.1]
    split
    · exact (nameOption_agrees ha _).bind fun _ _ he => .ok (he ▸ rfl)
    · exact .error rfl
  | .cons ha (.cons hb hrest) =>
    have hall := List.Forall₂.cons ha (List.Forall₂.cons hb hrest)
    dsimp only
    rw [hall.length_eq]
    split
    · exact .error rfl
    · exact ofCustom_agrees hall p p'

theorem ofNode_agrees (h : n.Alike m) :
    Agrees Eq (RetryPolicy.ofNode n) (RetryPolicy.ofNode m) := by
  rw [RetryPolicy.ofNode, RetryPolicy.ofNode]
  obtain ⟨hn, hm⟩ | ⟨t, t', hn, hm, _⟩ := h.token? .retry
  · rw [hn, hm]
    exact .ok rfl
  · rw [hn, hm]
    refine (requireNode_agrees h _).bind fun c c' hc => ?_
    refine (NamedArgument.listOfNode_agrees hc).bind fun args args' hargs => ?_
    exact (ofArguments_agrees hargs _ _).bind fun _ _ he => .ok (he ▸ rfl)

end RetryPolicy

theorem LoopHead.ofNode_agrees (h : n.Alike m) :
    Agrees Eq (LoopHead.ofNode n) (LoopHead.ofNode m) := by
  rw [LoopHead.ofNode, LoopHead.ofNode]
  refine (expectRule_agrees h _).bind fun _ _ _ => ?_
  refine (requireToken_agrees h _).bind fun t t' ht => ?_
  refine (requireNode_agrees h _).bind fun c c' hc => ?_
  refine (Expr.ofNode_agrees hc).bind fun e _ he => ?_
  subst he
  dsimp only
  rw [ht.2]
  split
  · exact .error rfl
  · exact .ok rfl

theorem Step.ofBareCall_agrees (h : n.Alike m) :
    Agrees Eq (Step.ofBareCall n) (Step.ofBareCall m) := by
  rw [Step.ofBareCall, Step.ofBareCall]
  refine (requireNode_agrees h _).bind fun q q' hq => ?_
  refine (dottedName_agrees hq).bind fun name _ hname => ?_
  subst hname
  obtain ⟨hn, hm⟩ | ⟨c, c', hn, hm, hc⟩ := h.child? .actualParameterList
  · rw [hn, hm]
    exact (argumentsOf_agrees h _).bind fun _ _ he => .ok (he ▸ rfl)
  · rw [hn, hm]
    exact (Expr.listOfNode_agrees hc).bind fun _ _ he => .ok (he ▸ rfl)

/-! ## Steps -/

/-- Computations that count temporaries agree: from equal counts they give results that are related
and equal counts, or faults that are reported alike. -/
def AgreesFrom {α β : Type} (R : α → β → Prop) (x : Build α) (y : Build β) : Prop :=
  ∀ k, Agree BuildError.Alike (fun a b => R a.1 b.1 ∧ a.2 = b.2) (x k) (y k)

section

variable {α β γ δ : Type} {R : α → β → Prop} {S : γ → δ → Prop}

theorem AgreesFrom.bind {x : Build α} {y : Build β} {f : α → Build γ} {g : β → Build δ}
    (h : AgreesFrom R x y) (hfg : ∀ a b, R a b → AgreesFrom S (f a) (g b)) :
    AgreesFrom S (x >>= f) (y >>= g) := by
  intro k
  refine (h k).bind ?_
  rintro ⟨a, k⟩ ⟨b, _⟩ ⟨hab, rfl⟩
  exact hfg a b hab k

theorem agreesFrom_lift {x : Except BuildError α} {y : Except BuildError β}
    (h : Agree BuildError.Alike R x y) :
    AgreesFrom R (liftM x : Build α) (liftM y : Build β) :=
  fun _ => h.bind fun _ _ hab => .ok ⟨hab, rfl⟩

theorem agreesFrom_pure {a : α} {b : β} (h : R a b) :
    AgreesFrom R (pure a : Build α) (pure b : Build β) :=
  fun _ => .ok ⟨h, rfl⟩

theorem agreesFrom_refl (x : Build α) : AgreesFrom Eq x x := by
  intro k
  cases x k with
  | ok a => exact .ok ⟨rfl, rfl⟩
  | error e => exact .error rfl

end

theorem Step.ofCallOrAssignment_agrees (h : n.Alike m) :
    AgreesFrom Eq (Step.ofCallOrAssignment n) (Step.ofCallOrAssignment m) := by
  rw [Step.ofCallOrAssignment, Step.ofCallOrAssignment]
  refine (agreesFrom_lift (expectRule_agrees h _)).bind fun _ _ _ => ?_
  obtain ⟨hn, hm⟩ | ⟨r, r', hn, hm, hr⟩ := h.child? .variableReference
  · rw [hn, hm]
    exact (agreesFrom_lift (Step.ofBareCall_agrees h)).bind
      fun _ _ he => agreesFrom_pure (he ▸ rfl)
  rw [hn, hm]
  refine (agreesFrom_lift (referenceText_agrees hr)).bind fun target _ htarget => ?_
  subst htarget
  obtain ⟨hn, hm⟩ | ⟨c, c', hn, hm, hc⟩ := h.child? .namedCall
  · rw [hn, hm]
    refine (agreesFrom_lift (requireNode_agrees h _)).bind fun e e' he => ?_
    exact (agreesFrom_lift (Expr.ofNode_agrees he)).bind fun _ _ he => agreesFrom_pure (he ▸ rfl)
  · rw [hn, hm]
    refine (agreesFrom_lift (expectRule_agrees hc _)).bind fun _ _ _ => ?_
    refine (agreesFrom_lift (requireNode_agrees hc _)).bind fun q q' hq => ?_
    refine (agreesFrom_lift (dottedName_agrees hq)).bind fun name _ hname => ?_
    refine (agreesFrom_lift (argumentsOf_agrees hc _)).bind fun args _ hargs => ?_
    subst hname hargs
    exact agreesFrom_refl _

mutual

theorem Step.ofNode_agrees {n m : Node} (h : n.Alike m) :
    AgreesFrom Eq (Step.ofNode n) (Step.ofNode m) := by
  rw [Step.ofNode, Step.ofNode, h.rule_eq]
  split
  · exact Step.ofCallOrAssignment_agrees h
  · have := n.sizeOf_nodes_lt .statementBlock
    dsimp only
    rw [(h.nodes .expression).length_eq, (h.nodes .statementBlock).length_eq]
    split
    · exact agreesFrom_lift (.error rfl)
    · exact (Case.ofNodes_agrees (h.nodes _) (h.nodes _)).bind
        fun _ _ he => agreesFrom_pure (he ▸ rfl)
  · refine (agreesFrom_lift (LoopHead.ofNode_agrees h)).bind fun head _ hhead => ?_
    refine (agreesFrom_lift (requireNode_agrees h _)).bind fun c c' hc => ?_
    have := c.property
    refine (Step.ofBlock_agrees hc).bind fun body _ hbody => ?_
    subst hhead hbody
    exact agreesFrom_pure rfl
  · refine (agreesFrom_lift (ParallelOptions.ofNode_agrees h)).bind fun options _ hoptions => ?_
    subst hoptions
    obtain ⟨hn, hm⟩ | ⟨c, c', _, _, hn, hm, hc⟩ := h.node? .forStatement
    · rw [hn, hm]
      have := n.sizeOf_nodes_lt .statementBlock
      refine (Step.ofBranches_agrees (h.nodes _)).bind fun branches _ hbranches => ?_
      subst hbranches
      exact agreesFrom_refl _
    · rw [hn, hm]
      refine (agreesFrom_lift (LoopHead.ofNode_agrees hc)).bind fun head _ hhead => ?_
      refine (agreesFrom_lift (requireNode_agrees hc _)).bind fun b b' hb => ?_
      have := b.property
      refine (Step.ofBlock_agrees hb).bind fun body _ hbody => ?_
      subst hhead hbody
      exact agreesFrom_pure rfl
  · refine (agreesFrom_lift (requireNode_agrees h _)).bind fun c c' hc => ?_
    have := c.property
    refine (Step.ofBlock_agrees hc).bind fun body _ hbody => ?_
    refine (agreesFrom_lift (RetryPolicy.ofNode_agrees h)).bind fun retry _ hretry => ?_
    subst hbody hretry
    obtain ⟨hn, hm⟩ | ⟨c, c', _, _, hn, hm, hc⟩ := h.node? .catchBlock
    · rw [hn, hm]
      exact agreesFrom_pure rfl
    · rw [hn, hm]
      refine (agreesFrom_lift (requireToken_agrees h _)).bind fun t t' ht => ?_
      refine (Step.ofBlock_agrees hc).bind fun handler _ hhandler => ?_
      subst hhandler
      exact agreesFrom_pure (ht.2 ▸ rfl)
  · refine (agreesFrom_lift (requireNode_agrees h _)).bind fun e e' he => ?_
    exact (agreesFrom_lift (Expr.ofNode_agrees he)).bind fun _ _ he => agreesFrom_pure (he ▸ rfl)
  · exact agreesFrom_pure rfl
  · exact agreesFrom_pure rfl
  · obtain ⟨hn, hm⟩ | ⟨c, c', hn, hm, hc⟩ := h.child? .expression
    · rw [hn, hm]
      exact agreesFrom_pure rfl
    · rw [hn, hm]
      exact (agreesFrom_lift (Expr.ofNode_agrees hc)).bind fun _ _ he => agreesFrom_pure (he ▸ rfl)
  · exact agreesFrom_lift (.error rfl)
termination_by 2 * sizeOf n
decreasing_by all_goals omega

theorem Step.ofBlock_agrees {n m : Node} (h : n.Alike m) :
    AgreesFrom Eq (Step.ofBlock n) (Step.ofBlock m) := by
  rw [Step.ofBlock, Step.ofBlock]
  have := n.sizeOf_nodes_lt .statement
  refine (agreesFrom_lift (expectRule_agrees h _)).bind fun _ _ _ => ?_
  exact (Step.ofNodes_agrees (h.nodes _)).bind fun _ _ he => agreesFrom_pure (he ▸ rfl)
termination_by 2 * sizeOf n + 1
decreasing_by all_goals omega

theorem Step.ofNodes_agrees {ns ms : List Node} (h : List.Forall₂ Node.Alike ns ms) :
    AgreesFrom Eq (Step.ofNodes ns) (Step.ofNodes ms) := by
  match h with
  | .nil => exact agreesFrom_refl _
  | .cons h hs =>
    rw [Step.ofNodes, Step.ofNodes]
    refine (Step.ofNode_agrees h).bind fun steps _ hsteps => ?_
    refine (Step.ofNodes_agrees hs).bind fun others _ hothers => ?_
    subst hsteps hothers
    exact agreesFrom_pure rfl
termination_by 2 * sizeOf ns
decreasing_by all_goals
  simp only [List.cons.sizeOf_spec]
  omega

theorem Step.ofBranches_agrees {ns ms : List Node} (h : List.Forall₂ Node.Alike ns ms) :
    AgreesFrom Eq (Step.ofBranches ns) (Step.ofBranches ms) := by
  match h with
  | .nil => exact agreesFrom_refl _
  | .cons h hs =>
    rw [Step.ofBranches, Step.ofBranches]
    refine (Step.ofBlock_agrees h).bind fun body _ hbody => ?_
    refine (Step.ofBranches_agrees hs).bind fun others _ hothers => ?_
    subst hbody hothers
    exact agreesFrom_pure rfl
termination_by 2 * sizeOf ns
decreasing_by all_goals
  simp only [List.cons.sizeOf_spec]
  omega

theorem Case.ofNodes_agrees {cs cs' ns ms : List Node} (hc : List.Forall₂ Node.Alike cs cs')
    (h : List.Forall₂ Node.Alike ns ms) :
    AgreesFrom Eq (Case.ofNodes cs ns) (Case.ofNodes cs' ms) := by
  match h with
  | .nil =>
    rw [Case.ofNodes.eq_def, Case.ofNodes.eq_def]
    exact agreesFrom_refl _
  | .cons h hs =>
    rw [Case.ofNodes.eq_def, Case.ofNodes.eq_def cs']
    cases hc with
    | nil =>
      refine (agreesFrom_refl _).bind fun condition _ hcondition => ?_
      refine (Step.ofBlock_agrees h).bind fun body _ hbody => ?_
      refine (Case.ofNodes_agrees .nil hs).bind fun others _ hothers => ?_
      subst hcondition hbody hothers
      exact agreesFrom_pure rfl
    | cons hc hcs =>
      refine (agreesFrom_lift (Expr.ofNode_agrees hc)).bind fun condition _ hcondition => ?_
      refine (Step.ofBlock_agrees h).bind fun body _ hbody => ?_
      refine (Case.ofNodes_agrees hcs hs).bind fun others _ hothers => ?_
      subst hcondition hbody hothers
      exact agreesFrom_pure rfl
termination_by 2 * sizeOf ns
decreasing_by all_goals
  simp only [List.cons.sizeOf_spec]
  omega

end

/-! ## Programs -/

theorem Parameter.ofNodes_agrees {ns ms : List Node} (h : List.Forall₂ Node.Alike ns ms) :
    Agrees Eq (Parameter.ofNodes ns) (Parameter.ofNodes ms) := by
  induction h with
  | nil => exact .ok rfl
  | cons h _ ih =>
    rw [Parameter.ofNodes, Parameter.ofNodes]
    refine (requireToken_agrees h _).bind fun t t' ht => ?_
    rw [ht.2]
    obtain ⟨hn, hm⟩ | ⟨c, c', hn, hm, hc⟩ := h.child? .literal
    · rw [hn, hm]
      exact (agrees_refl _).bind fun _ _ hdefault => ih.bind fun _ _ hothers =>
        .ok (hdefault ▸ hothers ▸ rfl)
    · rw [hn, hm]
      have hdefault := (Primitive.ofNode_agrees hc).map
        (S := Eq) (f := some) (g := some) fun _ _ he => congrArg some he
      exact hdefault.bind fun _ _ hdefault => ih.bind fun _ _ hothers =>
        .ok (hdefault ▸ hothers ▸ rfl)

theorem Subworkflow.ofNode_agrees (h : n.Alike m) :
    AgreesFrom Eq (Subworkflow.ofNode n) (Subworkflow.ofNode m) := by
  rw [Subworkflow.ofNode, Subworkflow.ofNode]
  refine (agreesFrom_lift (expectRule_agrees h _)).bind fun _ _ _ => ?_
  refine (agreesFrom_lift (requireToken_agrees h _)).bind fun t t' ht => ?_
  refine (agreesFrom_lift (requireNode_agrees h _)).bind fun list list' hlist => ?_
  refine (agreesFrom_lift (expectRule_agrees hlist _)).bind fun _ _ _ => ?_
  refine (agreesFrom_lift (Parameter.ofNodes_agrees (hlist.nodes _))).bind fun ps _ hps => ?_
  refine (agreesFrom_lift (requireNode_agrees h _)).bind fun c c' hc => ?_
  refine (Step.ofBlock_agrees hc).bind fun steps _ hsteps => ?_
  subst hps hsteps
  exact agreesFrom_pure (ht.2 ▸ rfl)

theorem Subworkflow.ofNodes_agrees {ns ms : List Node} (h : List.Forall₂ Node.Alike ns ms) :
    AgreesFrom Eq (Subworkflow.ofNodes ns) (Subworkflow.ofNodes ms) := by
  induction h with
  | nil => exact agreesFrom_pure rfl
  | cons h _ ih =>
    rw [Subworkflow.ofNodes, Subworkflow.ofNodes]
    refine (Subworkflow.ofNode_agrees h).bind fun w _ hw => ?_
    refine ih.bind fun others _ hothers => ?_
    subst hw hothers
    exact agreesFrom_pure rfl

/-- Trees that are alike have the same program or faults that are reported alike. -/
theorem Program.ofTree_agrees (h : n.Alike m) :
    Agrees Eq (Program.ofTree n) (Program.ofTree m) := by
  rw [Program.ofTree, Program.ofTree]
  refine (expectRule_agrees h _).bind fun _ _ _ => ?_
  exact (Subworkflow.ofNodes_agrees (h.nodes _) 0).bind fun _ _ he => .ok he.1

end Workflow
