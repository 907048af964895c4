import Workflow.Compile
import Workflow.Proofs.Document.Shape
import Workflow.Proofs.Fields
import Workflow.Proofs.Program.Built

/-!
# Compiled programs have their shape

The document of a program that was built from a text conforms to the schema. It follows from the
forms of the steps, one shape for each kind of step, by induction on the steps inside steps.
-/

namespace Workflow

open Shape

/-! ## Texts -/

theorem isMatch_numberedName {α : Type} (action : Action α) (n : Nat) :
    stepName.isMatch (numberedName action.kind n).toList = true := by
  have hword : (!action.kind.toList.isEmpty && action.kind.toList.all fun c =>
      'a' ≤ c && c ≤ 'z') = true := by
    rw [action.kind_eq_word]
    cases action.stepKind with
    | _ => decide
  obtain ⟨hne, hlower⟩ := Bool.and_eq_true_iff.mp hword
  have hdigits : Pattern.isMatch (Pattern.some Decimal.isDigit)
      (Decimal.toDigits n ++ []) = true := by
    rw [← List.append_nil (Pattern.some Decimal.isDigit)]
    exact Pattern.isMatch_some Nat.toDigits_ne_nil
      (fun c hc => Numeral.isDigit_of_mem_toDigits hc) Pattern.isMatch_nil
  rw [numberedName, Decimal.natText, String.toList_append, String.toList_ofList,
    ← List.append_nil (Decimal.toDigits n)]
  exact Pattern.isMatch_some (by simpa using hne) (List.all_eq_true.mp hlower) hdigits

theorem isWordChar_or_eq_dot_of_isDotted {atStart : Bool} {cs : List Char}
    (h : Text.isDotted atStart cs = true) : ∀ c ∈ cs, Text.isWordChar c = true ∨ c = '.' := by
  induction cs generalizing atStart with
  | nil => exact List.forall_mem_nil _
  | cons c rest ih =>
    rw [Text.isDotted] at h
    split at h
    · exact List.forall_mem_cons.mpr ⟨.inr ‹_›, ih (Bool.and_eq_true_iff.mp h).2⟩
    · obtain ⟨hc, hrest⟩ := Bool.and_eq_true_iff.mp h
      refine List.forall_mem_cons.mpr ⟨.inl ?_, ih hrest⟩
      split at hc
      · rw [Text.isWordChar, hc, Bool.true_or]
      · exact hc

theorem accepts_evaluated {name : String} (h : Text.isDottedName name = true) :
    definitions.accepts (.ref .expression) (.string (evaluated name)) = true := by
  have hends : ['\n', '\r', '\u2028', '\u2029'].all
      (fun c => !Text.isWordChar c && !(c == '.')) = true := by
    decide
  have hline : ∀ c ∈ name.toList, (!isLineEnd c) = true := by
    intro c hc
    have hword := isWordChar_or_eq_dot_of_isDotted h c hc
    have hnot : c ∉ ['\n', '\r', '\u2028', '\u2029'] := by
      intro hmem
      have := List.all_eq_true.mp hends c hmem
      rcases hword with hword | rfl
      · simp [hword] at this
      · simp at this
    simp only [List.mem_cons, List.not_mem_nil, or_false, not_or] at hnot
    simp [isLineEnd, hnot]
  have hchars : (evaluated name).toList = '$' :: '\x7b' :: (name.toList ++ ['\x7d']) := by
    simp [evaluated]
  have hmatch : Pattern.isMatch evaluatedText
      ('$' :: '\x7b' :: (name.toList ++ ['\x7d'])) = true := by
    refine Pattern.isMatch_one (by decide) (Pattern.isMatch_one (by decide) ?_)
    exact Pattern.isMatch_many hline (Pattern.isMatch_one (by decide) Pattern.isMatch_nil)
  rw [accepts_ref, schema, Definitions.accepts_both, Definitions.accepts_pattern, hchars, hmatch]
  simp [Document.hasType]

theorem IsName.length_pos {name : String} (h : IsName name) : 1 ≤ name.length := by
  obtain ⟨c, body, rfl, _⟩ := h
  simp

theorem JoinsNames.length_pos {text : String} (h : JoinsNames text) : 1 ≤ text.length := by
  obtain ⟨name, rest, hname, _, rfl⟩ := h
  have hlength := hname.length_pos
  cases rest with
  | nil => rwa [String.intercalate_singleton]
  | cons next others =>
    rw [String.intercalate_cons_cons, String.length_append, String.length_append]
    omega

/-! ## Parts of steps -/

theorem accepts_nonemptyString {text : String} (h : 1 ≤ text.length) :
    definitions.accepts nonemptyString (.string text) = true := by
  simp [nonemptyString, Document.hasType, h]

theorem hasType_number {n : Number} (h : n.IsFinite) : n.toDocument.hasType .number = true := by
  cases n with
  | int m => rfl
  | float x =>
    have hx : x.isFinite = true := h
    rw [Number.toDocument, if_pos hx]
    rfl

/-- The fields of a loop around its steps. -/
theorem accepts_forBody {head : LoopHead} (h : head.Formed) {docs : List Document}
    (hdocs : definitions.accepts (.ref .stepList) (.array docs) = true) :
    definitions.accepts (.ref .forBody)
      (.object (head.fields ++ [("steps", .array docs)])) = true := by
  obtain ⟨value, index, iterable⟩ := head
  obtain ⟨_, hindex, e, hitems, _⟩ := h
  cases hindex
  cases hitems
  rw [accepts_ref, schema, Definitions.accepts_both, Bool.and_eq_true, Definitions.accepts_closed]
  simp [LoopHead.fields, Fields.optional, Fields.names, Document.hasType, hdocs]

theorem fit_options {options : ParallelOptions} (h : options.Formed) :
    definitions.Fit parallel options.fields := by
  obtain ⟨shared, limit, policy⟩ := options
  rw [ParallelOptions.fields, Definitions.fit_append, Definitions.fit_append]
  refine ⟨⟨Definitions.fit_optional fun names _ => ?_, Definitions.fit_optional fun n _ => ?_⟩,
    Definitions.fit_optional fun text htext => ?_⟩
  · simp [parallel, listOf, Document.hasType]
  · simp [parallel, Document.hasType]
  · simp [parallel, h text htext]

/-- No option is one of the two bodies. -/
theorem names_options (options : ParallelOptions) :
    "branches" ∉ Fields.names options.fields ∧ "for" ∉ Fields.names options.fields := by
  obtain ⟨shared, limit, policy⟩ := options
  cases shared <;> cases limit <;> cases policy <;>
    simp [ParallelOptions.fields, Fields.optional, Fields.names]

theorem accepts_retryPolicy {policy : RetryPolicy} (h : policy.Formed) :
    definitions.accepts retryPolicy policy.toDocument = true := by
  cases policy with
  | named name =>
    have hexpression := accepts_evaluated h
    simp [retryPolicy, RetryPolicy.toDocument, hexpression, Schema.closed, Document.hasType]
  | custom predicate maxRetries initialDelay maxDelay multiplier =>
    obtain ⟨hpredicate, hnumbers⟩ := h
    simp only [List.forall_mem_cons] at hnumbers
    obtain ⟨hmaxRetries, hinitialDelay, hmaxDelay, hmultiplier, _⟩ := hnumbers
    rw [retryPolicy, Definitions.accepts_oneOf, RetryPolicy.toDocument]
    have hobject : ∀ fields, definitions.accepts (.ref .expression) (.object fields) = false := by
      intro fields
      simp [accepts_ref, schema, Document.hasType]
    rw [hobject, Bool.false_bne, Definitions.accepts_closed]
    simp [Fields.names, Definitions.accepts_closed, accepts_evaluated hpredicate,
      hasType_number, hmaxRetries, hinitialDelay, hmaxDelay, hmultiplier]

/-! ## Steps -/

theorem accepts_step {d : Document} (shape : Shape) (hmem : shape ∈ Shape.steps)
    (h : definitions.accepts shape.schema d = true) :
    definitions.accepts (.ref .step) d = true := by
  rw [accepts_ref, schema, Definitions.accepts_anyOf, List.any_map, List.any_eq_true]
  refine ⟨shape, hmem, ?_⟩
  rw [Function.comp_apply, accepts_ref]
  exact h

/-- The options of a parallel step in front of its body. -/
theorem accepts_parallel {options : ParallelOptions} (h : options.Formed) {name : String}
    {body : Document} (hname : name = "branches" ∨ name = "for")
    (hbody : definitions.Fit parallel [(name, body)]) :
    definitions.accepts (.ref .step)
      (.object [("parallel", .object (options.fields ++ [(name, body)]))]) = true := by
  apply accepts_step .parallelStep (by decide)
  obtain ⟨hbranches, hfor⟩ := names_options options
  have hclosed : definitions.accepts (.closed [] parallel)
      (.object (options.fields ++ [(name, body)])) = true := by
    rw [Definitions.accepts_closed, Definitions.fit_append]
    exact ⟨List.forall_mem_nil _, fit_options h, hbody⟩
  have hone : definitions.accepts (.oneOf (.required ["branches"]) (.required ["for"]))
      (.object (options.fields ++ [(name, body)])) = true := by
    rw [Fields.names] at hbranches hfor
    rcases hname with rfl | rfl
    · simp [Fields.names, hbranches, hfor]
    · simp [Fields.names, hbranches, hfor]
  rw [schema]
  apply Definitions.accepts_closed_single
  rw [Definitions.accepts_both, hclosed, hone, Bool.and_self]

theorem accepts_call {target : String} {args : List (String × Expr)} {result : Option String}
    (h : (Action.call target args result : Action String).Formed) :
    definitions.accepts (.ref .step) (.object (Action.call target args result).fields) = true := by
  obtain ⟨htarget, _, hresult⟩ := h
  apply accepts_step .callStep (by decide)
  rw [schema, Definitions.accepts_closed, Action.fields]
  refine ⟨by simp [Fields.names], ?_⟩
  rw [List.cons_append, Definitions.fit_cons, Definitions.fit_append]
  refine ⟨by simp [accepts_nonemptyString htarget.length_pos], ?_, ?_⟩
  · rw [argumentFields]
    split
    · exact Definitions.fit_nil
    · simp [Document.hasType]
  · refine Definitions.fit_optional fun name hname => ?_
    simp [accepts_nonemptyString (hresult name hname).length_pos]

/-- A step has a form, and a name of a kind and a number. -/
def Step.Fits (step : NamedStep) : Prop :=
  step.action.Formed ∧ stepName.isMatch step.label.toList = true

theorem accepts_stepList_nil : definitions.accepts (.ref .stepList) (.array []) = true := by
  simp [accepts_ref, schema, listOf, Document.hasType]

theorem accepts_stepList_cons {name : String} {fields : Fields Document} {docs : List Document}
    (hname : stepName.isMatch name.toList = true)
    (hfields : definitions.accepts (.ref .step) (.object fields) = true)
    (hdocs : definitions.accepts (.ref .stepList) (.array docs) = true) :
    definitions.accepts (.ref .stepList) (.array (.single name (.object fields) :: docs)) = true := by
  rw [accepts_ref, schema, listOf, Definitions.accepts_both, Definitions.accepts_items] at hdocs ⊢
  obtain ⟨_, hitems⟩ := Bool.and_eq_true_iff.mp hdocs
  rw [List.all_cons, hitems]
  simp [Document.hasType, Definitions.accepts_all, singleField, Document.single, hname, hfields]

theorem accepts_next {target : String} (h : 1 ≤ target.length) :
    definitions.accepts (.ref .step) (.object [("next", .string target)]) = true := by
  apply accepts_step .nextStep (by decide)
  exact Definitions.accepts_closed_single (accepts_nonemptyString h)

theorem accepts_assign {assignments : List (String × Expr)} (h : assignments ≠ []) :
    definitions.accepts (.ref .step)
      (.object [("assign", assignmentsDocument assignments)]) = true := by
  apply accepts_step .assignStep (by decide)
  apply Definitions.accepts_closed_single
  have hlength : 1 ≤ assignments.length := List.length_pos_iff.mpr h
  simp [assignmentsDocument, listOf, singleField, Document.single, Document.hasType,
    Definitions.accepts_all, hlength]

theorem length_toDocuments (cases : List (Case String)) :
    (Case.toDocuments cases).length = cases.length := by
  induction cases with
  | nil => rfl
  | cons case rest ih =>
    obtain ⟨condition, body, next⟩ := case
    rw [Case.toDocuments, List.length_cons, ih, List.length_cons]

theorem accepts_switch {docs : List Document} (hne : 1 ≤ docs.length)
    (hdocs : ∀ d ∈ docs, definitions.accepts switchCase d = true) {next : Option String} :
    definitions.accepts (.ref .step)
      (.object (("switch", .array docs) :: Fields.optional "next" (next.map .string))) = true := by
  have hcases : docs.all (definitions.accepts switchCase) = true := List.all_eq_true.mpr hdocs
  apply accepts_step .switchStep (by decide)
  rw [schema, Definitions.accepts_closed, Definitions.fit_cons]
  refine ⟨by simp [Fields.names], ?_, Definitions.fit_optional fun target _ => ?_⟩
  · simp only [List.forall_mem_cons]
    simp [listOf, Document.hasType, hne, hcases]
  · simp [Document.hasType]

theorem accepts_switchCase {condition : Document} {docs : List Document}
    (hdocs : definitions.accepts (.ref .stepList) (.array docs) = true) {isEmpty : Bool}
    {next : Option String} :
    definitions.accepts switchCase (.object (("condition", condition) ::
      (if isEmpty then [] else [("steps", .array docs)]) ++
      Fields.optional "next" (next.map .string))) = true := by
  rw [switchCase, Definitions.accepts_closed, List.cons_append, Definitions.fit_cons,
    Definitions.fit_append]
  refine ⟨by simp [Fields.names], by simp, ?_, Definitions.fit_optional fun target _ => ?_⟩
  · cases isEmpty with
    | true => exact Definitions.fit_nil
    | false => simp [hdocs]
  · simp [Document.hasType]

/-- The fields of an attempt in front of those of its handler. -/
theorem accepts_attempt {docs : List Document}
    (hdocs : definitions.accepts (.ref .stepList) (.array docs) = true)
    {retry : Option RetryPolicy} (hretry : ∀ policy ∈ retry, policy.Formed)
    {handler : Fields Document} (hhandler : definitions.Fit attempt handler) :
    definitions.accepts (.ref .step) (.object (("try", .single "steps" (.array docs)) ::
      Fields.optional "retry" (retry.map RetryPolicy.toDocument) ++ handler)) = true := by
  have hbody : definitions.accepts (.closed ["steps"] [("steps", .ref .stepList)])
      (.single "steps" (.array docs)) = true :=
    Definitions.accepts_closed_single hdocs
  apply accepts_step .tryStep (by decide)
  rw [schema, Definitions.accepts_closed, List.cons_append, Definitions.fit_cons,
    Definitions.fit_append]
  refine ⟨by simp [Fields.names], ?_, Definitions.fit_optional fun policy hpolicy => ?_, hhandler⟩
  · simp [attempt, hbody]
  · simp [attempt, accepts_retryPolicy (hretry policy hpolicy)]

/-- A handler is written if it has a step. -/
theorem fit_handler {name : String} {docs : List Document}
    (hdocs : definitions.accepts (.ref .stepList) (.array docs) = true) {isEmpty : Bool} :
    definitions.Fit attempt (if isEmpty then []
      else [("except", .object [("as", .string name), ("steps", .array docs)])]) := by
  cases isEmpty with
  | true => exact Definitions.fit_nil
  | false => simp [attempt, Definitions.accepts_closed, Fields.names, Document.hasType, hdocs]

mutual

theorem Action.accepts_fields (action : Action String) (h : action.Formed)
    (hinner : ∀ step ∈ action.walk, step.Fits) :
    definitions.accepts (.ref .step) (.object action.fields) = true := by
  match action with
  | .assign assignments =>
    rw [Action.fields]
    exact accepts_assign h
  | .call target args result => exact accepts_call h
  | .loop head body =>
    rw [Action.walk] at hinner
    rw [Action.fields]
    apply accepts_step .forStep (by decide)
    exact Definitions.accepts_closed_single
      (accepts_forBody h (Step.accepts_toDocuments body hinner))
  | .next target =>
    rw [Action.fields]
    rcases h with rfl | rfl
    · exact accepts_next (by decide)
    · exact accepts_next (by decide)
  | .branches options rows =>
    rw [Action.walk] at hinner
    rw [Action.fields]
    refine accepts_parallel h.1 (.inl rfl) ?_
    simp [parallel, Step.accepts_toDocuments rows hinner]
  | .parallelLoop options head body =>
    rw [Action.walk] at hinner
    rw [Action.fields]
    refine accepts_parallel h.1 (.inr rfl) ?_
    simp [parallel, accepts_forBody h.2 (Step.accepts_toDocuments body hinner)]
  | .raise value =>
    rw [Action.fields]
    apply accepts_step .raiseStep (by decide)
    exact Definitions.accepts_closed_single Definitions.accepts_any
  | .return none =>
    rw [Action.fields]
    exact accepts_next (by decide)
  | .return (some value) =>
    rw [Action.fields]
    apply accepts_step .returnStep (by decide)
    exact Definitions.accepts_closed_single Definitions.accepts_any
  | .steps body =>
    rw [Action.walk] at hinner
    rw [Action.fields]
    apply accepts_step .stepsStep (by decide)
    exact Definitions.accepts_closed_single (Step.accepts_toDocuments body hinner)
  | .switch cases next =>
    rw [Action.walk] at hinner
    have hlength : 1 ≤ (Case.toDocuments cases).length := by
      rw [length_toDocuments]
      exact List.length_pos_iff.mpr h.1
    rw [Action.fields]
    exact accepts_switch hlength (Case.accepts_toDocuments cases hinner)
  | .attempt body retry none handler =>
    rw [Action.walk, List.forall_mem_append] at hinner
    rw [Action.fields]
    exact accepts_attempt (Step.accepts_toDocuments body hinner.1) h.2.2.2 Definitions.fit_nil
  | .attempt body retry (some name) handler =>
    rw [Action.walk, List.forall_mem_append] at hinner
    rw [Action.fields]
    exact accepts_attempt (Step.accepts_toDocuments body hinner.1) h.2.2.2
      (fit_handler (Step.accepts_toDocuments handler hinner.2))

theorem Step.accepts_toDocuments (steps : List NamedStep)
    (h : ∀ step ∈ Step.walkAll steps, step.Fits) :
    definitions.accepts (.ref .stepList) (.array (Step.toDocuments steps)) = true := by
  match steps with
  | [] => exact accepts_stepList_nil
  | .mk label action :: rest =>
    rw [Step.walkAll, Step.walk, List.cons_append, List.forall_mem_cons,
      List.forall_mem_append] at h
    obtain ⟨⟨hformed, hname⟩, hinner, hrest⟩ := h
    rw [Step.toDocuments, Step.toDocument]
    exact accepts_stepList_cons hname (action.accepts_fields hformed hinner)
      (Step.accepts_toDocuments rest hrest)

theorem Case.accepts_toDocuments (cases : List (Case String))
    (h : ∀ step ∈ Case.walkAll cases, step.Fits) :
    ∀ d ∈ Case.toDocuments cases, definitions.accepts switchCase d = true := by
  match cases with
  | [] => exact List.forall_mem_nil _
  | .mk condition body next :: rest =>
    rw [Case.walkAll, List.forall_mem_append] at h
    rw [Case.toDocuments, List.forall_mem_cons]
    exact ⟨accepts_switchCase (Step.accepts_toDocuments body h.1),
      Case.accepts_toDocuments rest h.2⟩

end

/-! ## Programs -/

theorem accepts_primitive (p : Primitive) :
    definitions.accepts (.ref .primitive) p.toDocument = true := by
  rw [accepts_ref, schema, Definitions.accepts_type]
  cases p with
  | number n =>
    cases n with
    | int m => rfl
    | float x =>
      rw [Primitive.toDocument, Number.toDocument]
      split
      · rfl
      · rfl
  | _ => rfl

/-- A parameter is a name or an object with a default value. -/
theorem accepts_parameter {p : Parameter} (h : IsName p.name) :
    definitions.accepts (.oneOf nonemptyString
      (.both singleField (.otherProperties [] (.ref .primitive)))) p.toDocument = true := by
  have hname := accepts_nonemptyString h.length_pos
  rw [Parameter.toDocument]
  split
  · simp [hname, singleField, Definitions.accepts_all, Document.hasType]
  · rename_i value _
    simp [nonemptyString, singleField, Definitions.accepts_all, Document.single, Document.hasType,
      accepts_primitive value]

theorem Subworkflow.accepts_toDocument {w : Subworkflow String} (h : w.Formed)
    (hnames : ∀ step ∈ w.walk, stepName.isMatch step.label.toList = true) :
    definitions.accepts (.ref .subworkflow) w.toDocument = true := by
  have hsteps := Step.accepts_toDocuments w.steps
    fun step hstep => ⟨h.steps step hstep, hnames step hstep⟩
  have hparams : (w.params.map Parameter.toDocument).all (definitions.accepts (.oneOf nonemptyString
      (.both singleField (.otherProperties [] (.ref .primitive))))) = true := by
    refine List.all_eq_true.mpr (List.forall_mem_map.mpr fun p hp => ?_)
    exact accepts_parameter (h.params p hp)
  rw [accepts_ref, schema, Subworkflow.toDocument, Definitions.accepts_closed,
    Definitions.fit_append]
  refine ⟨by simp [Fields.names], ?_, by simp [hsteps]⟩
  split
  · exact Definitions.fit_nil
  · rw [Definitions.fit_cons]
    refine ⟨⟨by simp, ?_⟩, Definitions.fit_nil⟩
    simp only [List.forall_mem_cons]
    simp [listOf, Document.hasType, hparams]

theorem Program.conforms_toDocument {program : Program String} (hne : program ≠ [])
    (h : ∀ w ∈ program, w.Formed)
    (hnames : ∀ w ∈ program, ∀ step ∈ w.walk, stepName.isMatch step.label.toList = true) :
    program.toDocument.conforms = true := by
  have hpairs : program.map (fun w => (w.name, w.toDocument)) ≠ [] :=
    fun hnil => hne (List.map_eq_nil_iff.mp hnil)
  have hlength := List.length_pos_iff.mpr (Fields.ofPairs_ne_nil hpairs)
  have hfields : ∀ field ∈ Fields.ofPairs (program.map fun w => (w.name, w.toDocument)),
      definitions.accepts (.ref .subworkflow) field.2 = true := by
    intro field hfield
    obtain ⟨w, hw, rfl⟩ := List.mem_map.mp (Fields.mem_of_mem_ofPairs hfield)
    exact Subworkflow.accepts_toDocument (h w hw) (hnames w hw)
  rw [Document.conforms, Shape.program, Program.toDocument, Definitions.accepts_all]
  simp only [List.all_cons, List.all_nil, Bool.and_true, Bool.and_eq_true]
  refine ⟨?_, ?_, ?_⟩
  · rw [Definitions.accepts_type]
    rfl
  · rw [Definitions.accepts_minProperties]
    exact decide_eq_true hlength
  · rw [Definitions.accepts_otherProperties, List.all_eq_true]
    intro field hfield
    rw [hfields field hfield, Bool.or_true]

/-- A definition is built into a subworkflow. -/
theorem Phrase.Program.gives_ne_nil {p : Phrase.Program} (h : p ≠ []) :
    Gives (fun program => program ≠ []) p.built := by
  cases p with
  | nil => exact absurd rfl h
  | cons d rest =>
    intro n program m hrun
    rw [Phrase.Program.built] at hrun
    obtain ⟨⟨w, k⟩, _, hrun⟩ := bind_eq_ok.mp hrun
    obtain ⟨⟨others, l⟩, _, hrun⟩ := bind_eq_ok.mp hrun
    cases hrun
    exact List.cons_ne_nil w others

theorem named_ne_nil {source : String} {tree : Node} {program : Program Unit}
    (hparse : parse source = .ok tree) (hdefinition : tree.nodes .subworkflowDefinition ≠ [])
    (hbuild : buildProgram tree = .ok program) : program.named ≠ [] := by
  obtain ⟨p, _, stop, count, -, -, -, rfl, hrun⟩ := exists_phrase_of_parse hparse hbuild
  have hp : p ≠ [] := by
    rintro rfl
    exact hdefinition rfl
  intro hnil
  have hsame : Program.unnamed (Program.named program) = program :=
    (Subworkflow.namedAll_spec program .zero).1
  rw [hnil] at hsame
  exact p.gives_ne_nil hp 0 program count hrun hsame.symm

/-- A program with a definition is compiled into a document that conforms to the schema. -/
theorem compile_conforms {disabled : List Check} {source : String} {tree : Node}
    {document : Document} (hparse : parse source = .ok tree)
    (hdefinition : tree.nodes .subworkflowDefinition ≠ [])
    (h : compile disabled source = .ok document) : document.conforms = true := by
  obtain ⟨program, hbuild, _, rfl⟩ := exists_program_of_compile h
  have hformed := formed_named (formed_of_build hbuild)
  rw [build, hparse, ok_bind] at hbuild
  refine Program.conforms_toDocument (named_ne_nil hparse hdefinition hbuild) hformed ?_
  intro w hw step hstep
  obtain ⟨n, hlabel⟩ := exists_label_named program w hw step hstep
  rw [hlabel]
  exact isMatch_numberedName step.action n

/-- A parallel loop with an option, around an attempt with a retry and a handler. -/
theorem compile_conforms_sample : ∃ document,
    compile [] ("workflow w(a, b = 1) \x7b parallel (shared = [\"x\"]) for (i in a) \x7b " ++
      "try \x7b x = f.g(i = i) \x7d retry (policy = http.once) catch (e) \x7b throw e \x7d " ++
      "\x7d \x7d") = .ok document ∧ document.conforms = true := by
  generalize hsource : "workflow w(a, b = 1) \x7b parallel (shared = [\"x\"]) for (i in a) \x7b " ++
      "try \x7b x = f.g(i = i) \x7d retry (policy = http.once) catch (e) \x7b throw e \x7d " ++
      "\x7d \x7d" = source
  have hcompile : (compile [] source).toOption.isSome = true := by
    rw [← hsource]
    decide +kernel
  have hdefinitions : (parse source).toOption.map
      (fun tree => (tree.nodes .subworkflowDefinition).length) = some 1 := by
    rw [← hsource]
    decide +kernel
  obtain ⟨document, hdocument⟩ := Option.isSome_iff_exists.mp hcompile
  obtain ⟨tree, htree, hlength⟩ := Option.map_eq_some_iff.mp hdefinitions
  have hdefinition : tree.nodes .subworkflowDefinition ≠ [] := by
    intro hnil
    rw [hnil] at hlength
    cases hlength
  exact ⟨document, eq_ok_of_toOption hdocument,
    compile_conforms (eq_ok_of_toOption htree) hdefinition (eq_ok_of_toOption hdocument)⟩

end Workflow
