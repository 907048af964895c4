import Workflow.Proofs.Program.Formed
import Workflow.Proofs.Program.Origin
import Workflow.Proofs.Step.Every
import Workflow.Proofs.Step.Merging

/-!
# What steps are built from

Each step of a built program has the form of its kind, its expressions come from the tokens of the
program, and its blocks have no two assignments next to each other. This is shown of all parts of
statements in one induction. What holds of the programs that are built from texts is read off it.
-/

namespace Workflow

/-! ## Blocks -/

/-- The blocks directly inside an action. -/
def Action.blocks {α : Type} : Action α → List (List (Step α))
  | .loop _ body | .parallelLoop _ _ body | .steps body => [body]
  | .switch cases _ => cases.map Case.body
  | .attempt body _ _ handler => [body, handler]
  | .assign _ | .call _ _ _ | .next _ | .branches _ _ | .raise _ | .return _ => []

/-! ## Steps -/

theorem Among.named {tokens ts : List Token} {afterValue : Bool} (h : Among tokens afterValue ts)
    (hnamed : NamedTokens tokens) : NamedTokens ts :=
  fun t ht => hnamed t (h.subset ht)

section

variable (tokens : List Token)

/-- What an action is like when it was built from tokens, the steps inside it apart. -/
structure Action.BuiltFrom (action : Action Unit) : Prop where
  formed : action.Formed
  expressions : action.EachExpr (Expr.Source tokens)
  blocks : ∀ block ∈ action.blocks, Step.Separated block

/-- A block that was built from tokens, with the steps inside it. -/
structure Step.BuiltBlock (steps : List RawStep) : Prop where
  separated : Step.Separated steps
  every : Step.Every (Action.BuiltFrom tokens) steps

/-- What a condition is built into. -/
structure Case.BuiltFrom (case : Case Unit) : Prop where
  next : case.next = none
  condition : case.condition.Source tokens
  body : Step.BuiltBlock tokens case.body

/-- What a loop is built into. -/
structure LoopHead.BuiltFrom (loop : LoopHead × List RawStep) : Prop where
  head : loop.1.Formed
  items : ∀ e ∈ loop.1.expressions, e.Source tokens
  body : Step.BuiltBlock tokens loop.2

/-- What branches are built into: blocks, each as a step. -/
structure Step.BuiltBranches (rows : List RawStep) : Prop where
  blocks : ∀ row ∈ rows, ∃ body, row.action = .steps body
  every : Step.Every (Action.BuiltFrom tokens) rows

end

section

variable {tokens : List Token}

theorem Action.builtFrom_assign {pairs : List (String × Expr)} (hne : pairs ≠ [])
    (h : ∀ pair ∈ pairs, pair.2.Source tokens) : (Action.assign pairs).BuiltFrom tokens :=
  ⟨hne, List.forall_mem_map.mpr h, List.forall_mem_nil _⟩

/-- Merging two assignments keeps what they are built from. -/
theorem Action.BuiltFrom.append {xs ys : List (String × Expr)}
    (hx : (Action.assign xs).BuiltFrom tokens) (hy : (Action.assign ys).BuiltFrom tokens) :
    (Action.assign (xs ++ ys)).BuiltFrom tokens :=
  ⟨List.append_ne_nil_of_left_ne_nil hx.formed ys, hx.expressions.append hy.expressions,
    List.forall_mem_nil _⟩

theorem Action.builtFrom_call {name : String} {args : List (String × Expr)}
    {result : Option String} (hname : JoinsNames name) (hargs : (args.map Prod.fst).Nodup)
    (h : ∀ pair ∈ args, pair.2.Source tokens) (hresult : ∀ place ∈ result, IsName place) :
    (Action.call name args result).BuiltFrom tokens :=
  ⟨⟨hname, hargs, hresult⟩, List.forall_mem_map.mpr h, List.forall_mem_nil _⟩

theorem Step.BuiltBlock.nil : Step.BuiltBlock tokens [] :=
  ⟨.nil, Step.every_nil⟩

theorem Step.builtBlock_merge {steps : List RawStep}
    (h : Step.Every (Action.BuiltFrom tokens) steps) : Step.BuiltBlock tokens (Step.merge steps) :=
  ⟨Step.separated_merge steps, Step.every_merge (fun _ _ => Action.BuiltFrom.append) h⟩

/-- A block in front of branches is one more branch. -/
theorem Step.BuiltBranches.cons {body rows : List RawStep} (hbody : Step.BuiltBlock tokens body)
    (h : Step.BuiltBranches tokens rows) :
    Step.BuiltBranches tokens ((Action.steps body).raw :: rows) := by
  refine ⟨List.forall_mem_cons.mpr ⟨⟨body, rfl⟩, h.blocks⟩, Step.every_cons.mpr ⟨⟨?_, ?_⟩, h.every⟩⟩
  · exact ⟨trivial, List.forall_mem_nil _, List.forall_mem_singleton.mpr hbody.separated⟩
  · rw [Action.walk]
    exact hbody.every

end

namespace Phrase

open Grammar

/-! ## Places -/

theorem Subscripts.text_eq (d : Subscripts) {text : String} (h : d.text = .ok text) :
    (d = .nil ∧ text = "") ∨ '[' ∈ text.toList := by
  cases d with
  | nil =>
    rw [Subscripts.text] at h
    cases h
    exact .inl ⟨rfl, rfl⟩
  | cons start index stop rest =>
    rw [Subscripts.text] at h
    obtain ⟨e, _, h⟩ := bind_eq_ok.mp h
    obtain ⟨first, _, h⟩ := bind_eq_ok.mp h
    obtain ⟨others, _, h⟩ := bind_eq_ok.mp h
    cases h
    exact .inr (by simp)

theorem Reference.exists_partTexts (d : Reference) {parts : List String}
    (h : d.partTexts = .ok parts) : ∃ part rest, parts = part :: rest := by
  cases d with
  | last part =>
    rw [Reference.partTexts] at h
    obtain ⟨text, _, h⟩ := bind_eq_ok.mp h
    cases h
    exact ⟨text, [], rfl⟩
  | dotted part dot rest =>
    rw [Reference.partTexts] at h
    obtain ⟨text, _, h⟩ := bind_eq_ok.mp h
    obtain ⟨others, _, h⟩ := bind_eq_ok.mp h
    cases h
    exact ⟨text, others, rfl⟩

/-- A place that is written as a simple name has no dots and no subscripts. -/
theorem Reference.exists_eq_last_of_isSimpleName (d : Reference) {text : String}
    (hb : d.text = .ok text) (hsimple : Text.isSimpleName text = true) :
    ∃ name, d = .last (.mk name .nil) ∧ text = name.val.image := by
  have hword : ∀ c ∈ text.toList, Text.isWordChar c = true :=
    List.all_eq_true.mp (Bool.and_eq_true_iff.mp hsimple).2
  rw [Reference.text] at hb
  obtain ⟨parts, hparts, hb⟩ := bind_eq_ok.mp hb
  cases hb
  match d with
  | .last (.mk name subscripts) =>
    rw [Reference.partTexts, Part.text] at hparts
    obtain ⟨part, hpart, hparts⟩ := bind_eq_ok.mp hparts
    obtain ⟨others, hothers, hpart⟩ := bind_eq_ok.mp hpart
    cases hpart
    cases hparts
    rw [String.intercalate_singleton] at hword ⊢
    rcases subscripts.text_eq hothers with ⟨rfl, rfl⟩ | hbracket
    · exact ⟨name, rfl, String.append_empty⟩
    · exact absurd (hword '[' (by simp [hbracket])) (by decide)
  | .dotted part dot rest =>
    rw [Reference.partTexts] at hparts
    obtain ⟨first, _, hparts⟩ := bind_eq_ok.mp hparts
    obtain ⟨others, hothers, hparts⟩ := bind_eq_ok.mp hparts
    cases hparts
    obtain ⟨second, more, rfl⟩ := rest.exists_partTexts hothers
    rw [String.intercalate_cons_cons] at hword
    exact absurd (hword '.' (by simp)) (by decide)

/-- A place without dots and subscripts is a name. -/
theorem Reference.isName_of_isSimpleName (d : Reference) (h : NamedTokens d.tokens) {text : String}
    (hb : d.text = .ok text) (hsimple : Text.isSimpleName text = true) : IsName text := by
  obtain ⟨name, rfl, rfl⟩ := d.exists_eq_last_of_isSimpleName hb hsimple
  rw [Reference.tokens, Part.tokens, namedTokens_cons] at h
  exact h.1 name.property

variable {tokens : List Token}

/-! ## Arguments -/

theorem NamedOrNone.nodup_built (d : NamedOrNone) {pairs : List (String × Expr)}
    (h : d.built = .ok pairs) : (pairs.map Prod.fst).Nodup := by
  cases d with
  | none stop =>
    cases h
    exact List.nodup_nil
  | some args =>
    obtain ⟨found, _, h⟩ := bind_eq_ok.mp h
    exact nodup_callArguments h

/-- A call without named arguments is an expression. -/
theorem CallArguments.builtFrom (d : CallArguments) {name : QualifiedName} {start : Sign .lparen}
    {afterValue : Bool} (hname : JoinsNames name.text)
    (h : Among tokens afterValue (name.tokens ++ start.val :: d.tokens)) {step : RawStep}
    (hb : d.built name.text = .ok step) : Step.Every (Action.BuiltFrom tokens) [step] := by
  have hresult : ∀ place ∈ (none : Option String), IsName place := by
    intro place hplace
    cases hplace
  match d with
  | .named args =>
    obtain ⟨found, hfound, hb⟩ := bind_eq_ok.mp hb
    obtain ⟨pairs, hpairs, hb⟩ := bind_eq_ok.mp hb
    cases hb
    obtain ⟨_, hargs⟩ := h.append_right
    exact Step.every_leaf (by simp [Action.walk]) (Action.builtFrom_call hname
      (nodup_callArguments hpairs)
      (source_callArguments (args.source_built hargs.tail hfound) hpairs) hresult)
  | .positional (.none stop) =>
    cases hb
    exact Step.every_leaf (by simp [Action.walk])
      (Action.builtFrom_call hname List.nodup_nil (List.forall_mem_nil _) hresult)
  | .positional (.some args stop) =>
    obtain ⟨found, hfound, hb⟩ := bind_eq_ok.mp hb
    cases hb
    refine Step.every_leaf (by simp [Action.walk]) (Action.builtFrom_assign (List.cons_ne_nil _ _)
      (List.forall_mem_singleton.mpr ?_))
    let call : Expression := .mk (.plain (.call name start (.some args stop))) .nil
    have hcall : Among tokens afterValue call.tokens := by
      rw [Expression.tokens, Operations.tokens, List.append_nil]
      exact h
    refine .phrase hcall (fun _ => ?_) ?_
    · exact (name.startsWith.append _).append _
    · rw [Expression.built, Term.built, Operand.built, ArgumentsUpTo.built, hfound]
      rfl

theorem Options.formed_built (d : Options) {options : ParallelOptions}
    (h : d.built = .ok options) : options.Formed := by
  cases d with
  | none =>
    cases h
    intro policy hpolicy
    cases hpolicy
  | some clause =>
    obtain ⟨args, _, h⟩ := bind_eq_ok.mp h
    exact ParallelOptions.formed_ofArguments h

/-- A retry that is written is built. -/
theorem Retry.formed_built (d : Retry) {retry : Option RetryPolicy} (h : d.built = .ok retry) :
    (d ≠ .none → retry ≠ Option.none) ∧ ∀ policy ∈ retry, policy.Formed := by
  cases d with
  | none =>
    cases h
    refine ⟨fun hne => absurd rfl hne, ?_⟩
    intro policy hpolicy
    cases hpolicy
  | some token clause =>
    obtain ⟨args, _, h⟩ := bind_eq_ok.mp h
    obtain ⟨policy, hpolicy, h⟩ := bind_eq_ok.mp h
    cases h
    refine ⟨fun _ => Option.some_ne_none policy, ?_⟩
    intro other hother
    cases hother
    exact RetryPolicy.formed_ofArguments hpolicy

theorem formed_loopHead {name : Tok .identifier} {items : Expression} {head : LoopHead}
    (hname : IsName name.val.image) (hb : loopHead name items = .ok head) : head.Formed := by
  obtain ⟨_, hitems⟩ := (decides_loopHead name items).exists_ok_iff.mp ⟨head, hb⟩
  rw [loopHead] at hb
  obtain ⟨e, he, hb⟩ := bind_eq_ok.mp hb
  split at hb
  · cases hb
  · cases hb
    exact ⟨hname, rfl, e, rfl, hitems e he⟩

/-! ## Statements -/

/-- What a handler is built into: steps only with a name for the error. -/
structure Handler.BuiltInto (tokens : List Token) (d : Handler)
    (handler : Option String × List RawStep) : Prop where
  named : d ≠ .none → handler.1 ≠ Option.none
  empty : handler.1 = Option.none → handler.2 = []
  isName : ∀ name ∈ handler.1, IsName name
  body : Step.BuiltBlock tokens handler.2

/-- An action without steps inside it. -/
theorem gives_leaf {action : Action Unit} (hwalk : action.walk = [])
    (h : action.BuiltFrom tokens) :
    Gives (Step.Every (Action.BuiltFrom tokens)) (pure [action.raw]) :=
  gives_pure (Step.every_leaf hwalk h)

mutual

theorem Statement.builtFrom (d : Statement) (hnamed : NamedTokens tokens) {afterValue : Bool}
    {next : Option Token} (h : Among tokens afterValue d.tokens) (hs : d.Settled next) :
    Gives (Step.Every (Action.BuiltFrom tokens)) d.built := by
  match d with
  | .assignCall target assign name start args =>
    rw [Statement.tokens] at h
    rw [Statement.built]
    have htarget := h.append_left.named hnamed
    obtain ⟨_, hcall⟩ := h.append_right
    have hname := name.joinsNames (hcall.tail.append_left.named hnamed)
    obtain ⟨_, hargs⟩ := hcall.tail.append_right
    refine (gives_lift fun _ htext => htext).bind fun text htext => ?_
    refine (gives_lift fun _ hpairs => hpairs).bind fun pairs hpairs => ?_
    have hnodup := args.nodup_built hpairs
    have hsource := args.source_built hargs.tail hpairs
    split
    · rename_i hsimple
      refine gives_leaf (by simp [Action.walk]) (Action.builtFrom_call hname hnodup hsource ?_)
      intro place hplace
      cases hplace
      exact target.isName_of_isSimpleName htarget htext hsimple
    · -- the result goes to a temporary, and a reference to it is assigned
      refine gives_freshTemporary.bind fun temporary htemporary => gives_pure ?_
      refine Step.every_cons.mpr ⟨(Action.every_of_walk_eq_nil (by simp [Action.walk])).mpr
        (Action.builtFrom_call hname hnodup hsource ?_), Step.every_leaf (by simp [Action.walk])
        (Action.builtFrom_assign (List.cons_ne_nil _ _)
          (List.forall_mem_singleton.mpr (.temporary htemporary)))⟩
      intro place hplace
      cases hplace
      exact htemporary
  | .assign target assign value =>
    rw [Statement.tokens] at h
    rw [Statement.built]
    obtain ⟨_, hvalue⟩ := h.append_right
    refine (gives_any _).bind fun target _ => ?_
    refine (gives_value (hvalue.behind_sign rfl)).bind fun e he => ?_
    exact gives_leaf (by simp [Action.walk])
      (Action.builtFrom_assign (List.cons_ne_nil _ _) (List.forall_mem_singleton.mpr he))
  | .call name start args =>
    rw [Statement.tokens] at h
    rw [Statement.built]
    have hname := name.joinsNames (h.append_left.named hnamed)
    exact Gives.bind (gives_lift fun _ hstep => args.builtFrom hname h hstep)
      fun step hstep => gives_pure hstep
  | .conditional if_ first others =>
    rw [Statement.tokens] at h
    rw [Statement.Settled] at hs
    rw [Statement.built]
    obtain ⟨_, hothers⟩ := h.tail.append_right
    refine (first.builtFrom hnamed h.tail.append_left hs.1).bind fun case hcase => ?_
    refine (others.builtFrom hnamed hothers hs.2).bind fun cases hcases => gives_pure ?_
    have hall := List.forall_mem_cons.mpr ⟨hcase, hcases⟩
    refine Step.every_raw (Action.every_switch.mpr
      ⟨⟨⟨List.cons_ne_nil _ _, rfl, fun other hother => (hall other hother).next⟩, ?_, ?_⟩,
        fun other hother => (hall other hother).body.every⟩)
    · exact List.forall_mem_map.mpr fun other hother => (hall other hother).condition
    · exact List.forall_mem_map.mpr fun other hother => (hall other hother).body.separated
  | .loop loop =>
    rw [Statement.tokens] at h
    rw [Statement.Settled] at hs
    rw [Statement.built]
    refine (loop.builtFrom hnamed h hs).bind fun ⟨head, body⟩ hloop => gives_pure ?_
    refine Step.every_raw ⟨⟨hloop.head, hloop.items,
      List.forall_mem_singleton.mpr hloop.body.separated⟩, ?_⟩
    rw [Action.walk]
    exact hloop.body.every
  | .parallel parallel options body =>
    rw [Statement.tokens] at h
    rw [Statement.Settled] at hs
    rw [Statement.built]
    obtain ⟨_, hbody⟩ := h.tail.append_right
    refine (gives_lift fun _ hoptions => options.formed_built hoptions).bind
      fun options hoptions => ?_
    exact (body.builtFrom hnamed hbody hs).bind fun action haction =>
      gives_pure (Step.every_raw (haction options hoptions))
  | .attempt try_ body retry handler =>
    rw [Statement.tokens] at h
    rw [Statement.Settled] at hs
    rw [Statement.built]
    obtain ⟨_, hrest⟩ := h.tail.append_right
    obtain ⟨_, hhandler⟩ := hrest.append_right
    refine (body.builtFrom hnamed h.tail.append_left hs.1).bind fun steps hsteps => ?_
    refine (gives_lift fun _ hpolicy => retry.formed_built hpolicy).bind fun policy hpolicy => ?_
    refine (handler.builtFrom hnamed hhandler hs.2.2).bind fun ⟨name, others⟩ hothers =>
      gives_pure (Step.every_raw ⟨⟨?_, List.forall_mem_nil _, ?_⟩, ?_⟩)
    · exact ⟨hs.2.1.imp hpolicy.1 hothers.named, hothers.empty, hothers.isName, hpolicy.2⟩
    · exact List.forall_mem_cons.mpr
        ⟨hsteps.separated, List.forall_mem_singleton.mpr hothers.body.separated⟩
    · rw [Action.walk]
      exact List.forall_mem_append.mpr ⟨hsteps.every, hothers.body.every⟩
  | .throw throw_ value =>
    rw [Statement.tokens] at h
    rw [Statement.built]
    refine (gives_value (h.behind_word rfl)).bind fun e he => ?_
    exact gives_leaf (by simp [Action.walk])
      ⟨trivial, List.forall_mem_singleton.mpr he, List.forall_mem_nil _⟩
  | .break break_ =>
    rw [Statement.built]
    exact gives_leaf (by simp [Action.walk])
      ⟨.inl rfl, List.forall_mem_nil _, List.forall_mem_nil _⟩
  | .continue continue_ =>
    rw [Statement.built]
    exact gives_leaf (by simp [Action.walk])
      ⟨.inr rfl, List.forall_mem_nil _, List.forall_mem_nil _⟩
  | .returnNothing return_ =>
    rw [Statement.built]
    exact gives_leaf (by simp [Action.walk])
      ⟨trivial, List.forall_mem_nil _, List.forall_mem_nil _⟩
  | .returnValue return_ value =>
    rw [Statement.tokens] at h
    rw [Statement.built]
    refine (gives_value (h.behind_word rfl)).bind fun e he => ?_
    exact gives_leaf (by simp [Action.walk])
      ⟨trivial, List.forall_mem_singleton.mpr he, List.forall_mem_nil _⟩

theorem Statements.builtFrom (d : Statements) (hnamed : NamedTokens tokens) {afterValue : Bool}
    {next : Option Token} (h : Among tokens afterValue d.tokens) (hs : d.Settled next) :
    Gives (Step.Every (Action.BuiltFrom tokens)) d.built := by
  match d with
  | .nil =>
    rw [Statements.built]
    exact gives_pure Step.every_nil
  | .cons first rest =>
    rw [Statements.tokens] at h
    rw [Statements.Settled] at hs
    rw [Statements.built]
    obtain ⟨_, hrest⟩ := h.append_right
    refine (first.builtFrom hnamed h.append_left hs.1).bind fun steps hsteps => ?_
    exact (rest.builtFrom hnamed hrest hs.2).bind fun others hothers =>
      gives_pure (Step.every_append.mpr ⟨hsteps, hothers⟩)

theorem Block.builtFrom (d : Block) (hnamed : NamedTokens tokens) {afterValue : Bool}
    (h : Among tokens afterValue d.tokens) (hs : d.Settled) :
    Gives (Step.BuiltBlock tokens) d.built := by
  match d with
  | .mk start statements stop =>
    rw [Block.tokens] at h
    rw [Block.Settled] at hs
    rw [Block.built]
    exact (statements.builtFrom hnamed h.tail.append_left hs).bind fun steps hsteps =>
      gives_pure (Step.builtBlock_merge hsteps)

theorem Condition.builtFrom (d : Condition) (hnamed : NamedTokens tokens) {afterValue : Bool}
    (h : Among tokens afterValue d.tokens) (hs : d.Settled) :
    Gives (Case.BuiltFrom tokens) d.built := by
  match d with
  | .mk start test stop body =>
    rw [Condition.tokens] at h
    rw [Condition.Settled] at hs
    rw [Condition.built]
    have htest := h.behind_sign rfl
    obtain ⟨_, hbody⟩ := htest.append_right
    refine (gives_value htest.append_left).bind fun e he => ?_
    exact (body.builtFrom hnamed hbody.tail hs).bind fun steps hsteps =>
      gives_pure ⟨rfl, he, hsteps⟩

theorem ElseClauses.builtFrom (d : ElseClauses) (hnamed : NamedTokens tokens) {afterValue : Bool}
    (h : Among tokens afterValue d.tokens) (hs : d.Settled) :
    Gives (fun cases => ∀ case ∈ cases, Case.BuiltFrom tokens case) d.built := by
  match d with
  | .none =>
    rw [ElseClauses.built]
    exact gives_pure (List.forall_mem_nil _)
  | .elseIf else_ if_ condition rest =>
    rw [ElseClauses.tokens] at h
    rw [ElseClauses.Settled] at hs
    rw [ElseClauses.built]
    obtain ⟨_, hrest⟩ := h.tail.tail.append_right
    refine (condition.builtFrom hnamed h.tail.tail.append_left hs.1).bind fun case hcase => ?_
    exact (rest.builtFrom hnamed hrest hs.2).bind fun others hothers =>
      gives_pure (List.forall_mem_cons.mpr ⟨hcase, hothers⟩)
  | .last else_ body =>
    rw [ElseClauses.tokens] at h
    rw [ElseClauses.Settled] at hs
    rw [ElseClauses.built]
    exact (body.builtFrom hnamed h.tail hs).bind fun steps hsteps =>
      gives_pure (List.forall_mem_singleton.mpr ⟨rfl, .always, hsteps⟩)

theorem Loop.builtFrom (d : Loop) (hnamed : NamedTokens tokens) {afterValue : Bool}
    (h : Among tokens afterValue d.tokens) (hs : d.Settled) :
    Gives (LoopHead.BuiltFrom tokens) d.built := by
  match d with
  | .mk for_ start name in_ items stop body =>
    rw [Loop.tokens] at h
    rw [Loop.Settled] at hs
    rw [Loop.built]
    have hname : IsName name.val.image :=
      hnamed _ (h.tail.tail.subset List.mem_cons_self) name.property
    have hitems := h.tail.tail.tail.behind_word rfl
    obtain ⟨_, hbody⟩ := hitems.append_right
    refine (gives_lift fun _ hhead => hhead).bind fun head hhead => ?_
    exact (body.builtFrom hnamed hbody.tail hs).bind fun steps hsteps => gives_pure
      ⟨formed_loopHead hname hhead, source_loopHead hitems.append_left hhead, hsteps⟩

theorem ParallelBody.builtFrom (d : ParallelBody) (hnamed : NamedTokens tokens)
    {afterValue : Bool} (h : Among tokens afterValue d.tokens) (hs : d.Settled) :
    Gives (fun action => ∀ options : ParallelOptions, options.Formed →
      (action options).Every (Action.BuiltFrom tokens)) d.built := by
  match d with
  | .loop loop =>
    rw [ParallelBody.tokens] at h
    rw [ParallelBody.Settled] at hs
    rw [ParallelBody.built]
    refine (loop.builtFrom hnamed h hs).bind fun ⟨head, body⟩ hloop =>
      gives_pure fun options hoptions => ⟨⟨⟨hoptions, hloop.head⟩, hloop.items,
        List.forall_mem_singleton.mpr hloop.body.separated⟩, ?_⟩
    rw [Action.walk]
    exact hloop.body.every
  | .branches branch body rest =>
    rw [ParallelBody.tokens] at h
    rw [ParallelBody.Settled] at hs
    rw [ParallelBody.built]
    obtain ⟨_, hrest⟩ := h.tail.append_right
    refine (body.builtFrom hnamed h.tail.append_left hs.1).bind fun steps hsteps => ?_
    refine (rest.builtFrom hnamed hrest hs.2).bind fun others hothers =>
      gives_pure fun options hoptions => ?_
    have hall := hothers.cons hsteps
    refine ⟨⟨⟨hoptions, List.cons_ne_nil _ _, hall.blocks⟩, List.forall_mem_nil _,
      List.forall_mem_nil _⟩, ?_⟩
    rw [Action.walk]
    exact hall.every

theorem Branches.builtFrom (d : Branches) (hnamed : NamedTokens tokens) {afterValue : Bool}
    (h : Among tokens afterValue d.tokens) (hs : d.Settled) :
    Gives (Step.BuiltBranches tokens) d.built := by
  match d with
  | .nil =>
    rw [Branches.built]
    exact gives_pure ⟨List.forall_mem_nil _, Step.every_nil⟩
  | .cons branch body rest =>
    rw [Branches.tokens] at h
    rw [Branches.Settled] at hs
    rw [Branches.built]
    obtain ⟨_, hrest⟩ := h.tail.append_right
    refine (body.builtFrom hnamed h.tail.append_left hs.1).bind fun steps hsteps => ?_
    exact (rest.builtFrom hnamed hrest hs.2).bind fun others hothers =>
      gives_pure (hothers.cons hsteps)

theorem Handler.builtFrom (d : Handler) (hnamed : NamedTokens tokens) {afterValue : Bool}
    (h : Among tokens afterValue d.tokens) (hs : d.Settled) :
    Gives (Handler.BuiltInto tokens d) d.built := by
  match d with
  | .none =>
    rw [Handler.built]
    refine gives_pure ⟨fun hne => absurd rfl hne, fun _ => rfl, ?_, .nil⟩
    intro name hname
    cases hname
  | .some catch_ start name stop body =>
    rw [Handler.tokens] at h
    rw [Handler.Settled] at hs
    rw [Handler.built]
    refine (body.builtFrom hnamed h.tail.tail.tail.tail hs).bind fun steps hsteps =>
      gives_pure ⟨fun _ => Option.some_ne_none _, fun hnone => ?_, ?_, hsteps⟩
    · cases hnone
    · intro other hother
      cases hother
      exact hnamed _ (h.tail.tail.subset List.mem_cons_self) name.property

end

/-! ## Programs -/

/-- Each parameter is that of a phrase among the tokens. -/
theorem Parameters.exists_built (d : Parameters) {afterValue : Bool}
    (h : Among tokens afterValue d.tokens) :
    ∀ p ∈ d.built, ∃ parameter : Parameter, parameter.tokens ⊆ tokens ∧ parameter.built = p := by
  induction d generalizing afterValue with
  | last parameter => exact List.forall_mem_singleton.mpr ⟨parameter, h.subset, rfl⟩
  | cons parameter comma rest ih =>
    rw [Parameters.tokens] at h
    obtain ⟨_, hrest⟩ := h.append_right
    exact List.forall_mem_cons.mpr ⟨⟨parameter, h.append_left.subset, rfl⟩, ih hrest.tail⟩

theorem ParametersUpTo.exists_built (d : ParametersUpTo) {afterValue : Bool}
    (h : Among tokens afterValue d.tokens) :
    ∀ p ∈ d.built, ∃ parameter : Parameter, parameter.tokens ⊆ tokens ∧ parameter.built = p := by
  cases d with
  | none stop => exact List.forall_mem_nil _
  | some parameters stop => exact parameters.exists_built h.append_left

theorem Parameter.isName_built (d : Parameter) (h : NamedTokens d.tokens) :
    IsName d.built.name := by
  cases d with
  | plain name => exact (namedTokens_cons.mp h).1 name.property
  | default name assign value => exact (namedTokens_cons.mp h).1 name.property

end Phrase

/-- A subworkflow that was built from tokens. -/
structure Subworkflow.BuiltFrom (tokens : List Token) (w : Subworkflow Unit) : Prop where
  name : IsName w.name
  params : ∀ p ∈ w.params, ∃ parameter : Phrase.Parameter,
    parameter.tokens ⊆ tokens ∧ parameter.built = p
  steps : Step.BuiltBlock tokens w.steps

namespace Phrase

variable {tokens : List Token}

theorem Definition.builtFrom (d : Definition) (hnamed : NamedTokens tokens) {afterValue : Bool}
    (h : Among tokens afterValue d.tokens) (hs : d.Settled) :
    Gives (Subworkflow.BuiltFrom tokens) d.built := by
  cases d with
  | mk workflow name start parameters body =>
    have hname : IsName name.val.image :=
      hnamed _ (h.tail.subset List.mem_cons_self) name.property
    have hparameters := h.tail.tail.tail.append_left
    obtain ⟨_, hbody⟩ := h.tail.tail.tail.append_right
    exact (body.builtFrom hnamed hbody hs).bind fun steps hsteps =>
      gives_pure ⟨hname, parameters.exists_built hparameters, hsteps⟩

theorem Program.builtFrom (p : Program) (hnamed : NamedTokens tokens) {afterValue : Bool}
    (h : Among tokens afterValue p.tokens) (hs : p.Settled) :
    Gives (fun program => ∀ w ∈ program, w.BuiltFrom tokens) (Program.built p) := by
  induction p generalizing afterValue with
  | nil => exact gives_pure (List.forall_mem_nil _)
  | cons d rest ih =>
    rw [Program.tokens, List.flatMap_cons] at h
    obtain ⟨hd, hsettled⟩ := List.forall_mem_cons.mp hs
    obtain ⟨_, hrest⟩ := h.append_right
    rw [Program.built]
    refine (d.builtFrom hnamed h.append_left hd).bind fun w hw => ?_
    exact (ih hrest hsettled).bind fun others hothers =>
      gives_pure (List.forall_mem_cons.mpr ⟨hw, hothers⟩)

end Phrase

/-- Every expression of a program is inside one that comes from the tokens of the program. -/
theorem Program.exists_source {tokens : List Token} {program : Program Unit}
    (h : ∀ w ∈ program, w.BuiltFrom tokens) {e : Expr} (he : e ∈ program.expressions) :
    ∃ whole : Expr, whole.Source tokens ∧ e ∈ whole.parts := by
  obtain ⟨w, hw, he⟩ := List.mem_flatMap.mp he
  obtain ⟨step, hstep, he⟩ := List.mem_flatMap.mp he
  obtain ⟨whole, hwhole, he⟩ := List.mem_flatMap.mp he
  exact ⟨whole, ((h w hw).steps.every step hstep).expressions whole hwhole, he⟩

theorem Subworkflow.BuiltFrom.formed {tokens : List Token} {w : Subworkflow Unit}
    (hnamed : NamedTokens tokens) (h : w.BuiltFrom tokens) : w.Formed := by
  refine ⟨h.name, fun p hp => ?_, fun step hstep => (h.steps.every step hstep).formed⟩
  obtain ⟨parameter, hsub, rfl⟩ := h.params p hp
  exact parameter.isName_built fun t ht => hnamed t (hsub ht)

theorem namedTokens_of_tokenize {source : String} {tokens : List Token}
    (h : tokenize source = .ok tokens) : NamedTokens tokens := by
  have hread : Token.ofChars false (.behind []) source.toList = .ok tokens := mapError_eq_ok.mp h
  have hchain := (Token.tiling_ofChars hread).2
  intro t ht hidentifier
  have hne : t.lexeme ≠ .endOfInput := by
    intro hstop
    rw [hstop] at hidentifier
    cases hidentifier
  obtain ⟨afterValue, hscanned⟩ := hchain.scanned t ht hne
  exact (Token.isName_of_scanned hscanned hidentifier).2

/-- A tree that is parsed from a text and built is that of a settled phrase of the tokens. -/
theorem exists_phrase_of_parse {source : String} {tree : Node} {program : Program Unit}
    (hparse : parse source = .ok tree) (hbuild : buildProgram tree = .ok program) :
    ∃ (p : Phrase.Program) (tokens : List Token) (stop : Position) (count : Nat), p.Settled ∧
      tokenize source = .ok tokens ∧ p.tokens <+: tokens ∧ tree = Phrase.Program.node stop p ∧
      Phrase.Program.built p 0 = .ok (program, count) := by
  obtain ⟨tokens, htokens, hparse⟩ := bind_eq_ok.mp hparse
  obtain ⟨p, stop, hsettled, rfl, hp⟩ := exists_program_of_ofTokens (mapError_eq_ok.mp hparse)
  have hbuilt := mapError_eq_ok.mp hbuild
  rw [Phrase.Program.ofTree_node] at hbuilt
  obtain ⟨⟨built, count⟩, hrun, rfl⟩ := map_eq_ok.mp hbuilt
  exact ⟨p, tokens, stop, count, hsettled, htokens, hp ▸ List.takeWhile_prefix _, rfl, hrun⟩

/-- A program that is built from a text is that of a settled phrase of its tokens. -/
theorem exists_phrase_of_build {source : String} {program : Program Unit}
    (h : build source = .ok program) :
    ∃ (p : Phrase.Program) (tokens : List Token) (count : Nat), p.Settled ∧
      tokenize source = .ok tokens ∧ p.tokens <+: tokens ∧
      Phrase.Program.built p 0 = .ok (program, count) := by
  obtain ⟨tree, hparse, hbuild⟩ := bind_eq_ok.mp h
  obtain ⟨p, tokens, _, count, hsettled, htokens, hfront, -, hrun⟩ :=
    exists_phrase_of_parse hparse hbuild
  exact ⟨p, tokens, count, hsettled, htokens, hfront, hrun⟩

/-- A program that is built from a text is built from its tokens. -/
theorem exists_builtFrom {source : String} {program : Program Unit}
    (h : build source = .ok program) :
    ∃ tokens ts, tokenize source = .ok tokens ∧ ts <+: tokens ∧ ∀ w ∈ program, w.BuiltFrom ts := by
  obtain ⟨p, tokens, count, hsettled, htokens, hfront, hrun⟩ := exists_phrase_of_build h
  have hnamed : NamedTokens p.tokens :=
    fun t ht => namedTokens_of_tokenize htokens t (hfront.subset ht)
  exact ⟨tokens, p.tokens, htokens, hfront,
    p.builtFrom hnamed (.self p.tokens) hsettled 0 program count hrun⟩

/-- Every subworkflow of a program that is built from a text is formed. -/
theorem formed_of_build {source : String} {program : Program Unit}
    (h : build source = .ok program) : ∀ w ∈ program, w.Formed := by
  obtain ⟨tokens, ts, htokens, hfront, hbuilt⟩ := exists_builtFrom h
  exact fun w hw => (hbuilt w hw).formed fun t ht =>
    namedTokens_of_tokenize htokens t (hfront.subset ht)

end Workflow
