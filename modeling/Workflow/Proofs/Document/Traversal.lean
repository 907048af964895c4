import Mathlib.Data.List.Forall2
import Workflow.Proofs.Document.References
import Workflow.Proofs.Document.Shape

/-!
# Documents show all steps

The document of a program shows its subworkflows in order, and the lists of steps inside the
document of a subworkflow show its steps in the order of the walk, each under its name and in the
form of its kind. Nothing is asked of the names of steps, the values and the targets, so that this
holds of programs made by hand as well.
-/

namespace Workflow

open Shape

/-! ## Forms of steps -/

namespace Shape

/-- A list of steps, of which nothing is asked but that each has one name. -/
def stepRow : Schema Shape :=
  listOf (.both singleField (.otherProperties [] (.type [.object])))

/-- A number, or what stands for one that is infinite or undefined. -/
def numeric : Schema Shape := .type [.number, .null]

/-- A loop: what it binds, what it runs over and its steps. -/
def loopForm : Schema Shape :=
  .both (.closed ["value", "steps"] [("value", .type [.string]), ("index", .type [.string]),
      ("in", .any), ("range", .all [.minItems 2, .maxItems 2, listOf numeric]),
      ("steps", stepRow)])
    (.oneOf (.required ["in"]) (.required ["range"]))

/-- The options of a parallel step. -/
def optionForms : List (String × Schema Shape) :=
  [("shared", listOf (.type [.string])), ("concurrency_limit", .type [.integer]),
    ("exception_policy", .type [.string])]

/-- A case of a switch. -/
def caseForm : Schema Shape :=
  .closed ["condition"] [("condition", .any), ("steps", stepRow), ("next", .type [.string])]

/-- A retry policy: a string, or an object for one that is written out. -/
def retryForm : Schema Shape :=
  .either (.type [.string]) (.closed ["predicate", "max_retries", "backoff"]
    [("predicate", .type [.string]), ("max_retries", numeric),
      ("backoff", .closed ["initial_delay", "max_delay", "multiplier"]
        [("initial_delay", numeric), ("max_delay", numeric), ("multiplier", numeric)])])

/-- The fields of an attempt. A handler that is written has a step. -/
def attemptForms : List (String × Schema Shape) :=
  [("try", .closed ["steps"] [("steps", stepRow)]), ("retry", retryForm),
    ("except", .closed ["as", "steps"]
      [("as", .type [.string]), ("steps", .both (.minItems 1) stepRow)])]

end Shape

/-- The form of the body of a step, by its kind. -/
def Action.form {α : Type} : Action α → Schema Shape
  | .assign _ => .closed ["assign"] [("assign", listOf singleField)]
  | .call _ _ _ => .closed ["call"]
      [("call", .type [.string]), ("args", .type [.object]), ("result", .type [.string])]
  | .loop _ _ => .closed ["for"] [("for", loopForm)]
  | .next _ => .closed ["next"] [("next", .type [.string])]
  | .branches _ _ => .closed ["parallel"]
      [("parallel", .closed ["branches"] (optionForms ++ [("branches", stepRow)]))]
  | .parallelLoop _ _ _ => .closed ["parallel"]
      [("parallel", .closed ["for"] (optionForms ++ [("for", loopForm)]))]
  | .raise _ => .closed ["raise"] [("raise", .any)]
  | .return none => .closed ["next"] [("next", .const "end")]
  | .return (some _) => .closed ["return"] [("return", .any)]
  | .steps _ => .closed ["steps"] [("steps", stepRow)]
  | .switch _ _ => .closed ["switch"] [("switch", listOf caseForm), ("next", .type [.string])]
  | .attempt _ _ _ _ => .closed ["try"] attemptForms

/-! ## Parts of steps -/

theorem accepts_stepRow (steps : List NamedStep) :
    definitions.accepts stepRow (.array (Step.toDocuments steps)) = true := by
  rw [stepRow, accepts_listOf]
  induction steps with
  | nil => rfl
  | cons step rest ih =>
    obtain ⟨name, action⟩ := step
    rw [Step.toDocuments, List.all_cons, ih, Step.toDocument]
    simp [singleField, Document.single, Document.hasType, Definitions.accepts_all]

theorem accepts_numeric (n : Number) : definitions.accepts numeric n.toDocument = true := by
  rw [numeric, Definitions.accepts_type]
  cases n with
  | int m => rfl
  | float x =>
    rw [Number.toDocument]
    split
    · rfl
    · rfl

theorem accepts_loopForm (head : LoopHead) (body : List NamedStep) :
    definitions.accepts loopForm
      (.object (head.fields ++ [("steps", .array (Step.toDocuments body))])) = true := by
  have hbody := accepts_stepRow body
  obtain ⟨value, index, iterable⟩ := head
  rw [loopForm, Definitions.accepts_both, Bool.and_eq_true, Definitions.accepts_closed]
  cases iterable with
  | items e =>
    cases index <;>
      simp [LoopHead.fields, Fields.optional, Fields.names, Document.hasType, hbody]
  | range first last =>
    have hrange : definitions.accepts (.all [.minItems 2, .maxItems 2, listOf numeric])
        (.array [first.toDocument, last.toDocument]) = true := by
      simp [Definitions.accepts_all, accepts_listOf, accepts_numeric]
    cases index <;>
      simp [LoopHead.fields, Fields.optional, Fields.names, Document.hasType, hbody, hrange]

/-- The options of a parallel step in front of what it runs. -/
theorem accepts_parallelForm (options : ParallelOptions) {name : String} {body : Document}
    {form : Schema Shape} (hname : name ∉ optionForms.map Prod.fst)
    (hbody : definitions.accepts form body = true) :
    definitions.accepts (.closed [name] (optionForms ++ [(name, form)]))
      (.object (options.fields ++ [(name, body)])) = true := by
  simp only [optionForms, List.map_cons, List.map_nil, List.mem_cons, List.not_mem_nil, or_false,
    not_or, ← ne_eq] at hname
  obtain ⟨hshared, hlimit, hpolicy⟩ := hname
  rw [Definitions.accepts_closed, Definitions.fit_append]
  refine ⟨by simp [Fields.names], ?_, ?_⟩
  · rw [ParallelOptions.fields, Definitions.fit_append, Definitions.fit_append]
    refine ⟨⟨Definitions.fit_optional fun names _ => ?_, Definitions.fit_optional fun n _ => ?_⟩,
      Definitions.fit_optional fun text _ => ?_⟩
    · simp [optionForms, accepts_listOf, Document.hasType, hshared.symm]
    · simp [optionForms, Document.hasType, hlimit.symm]
    · simp [optionForms, Document.hasType, hpolicy.symm]
  · simp [optionForms, hshared, hlimit, hpolicy, hbody]

theorem accepts_retryForm (policy : RetryPolicy) :
    definitions.accepts retryForm policy.toDocument = true := by
  cases policy with
  | named name => simp [retryForm, RetryPolicy.toDocument, Document.hasType]
  | custom predicate maxRetries initialDelay maxDelay multiplier =>
    rw [retryForm, RetryPolicy.toDocument, Definitions.accepts_either, Bool.or_eq_true]
    refine .inr (Definitions.accepts_closed.mpr ?_)
    simp [Fields.names, Definitions.accepts_closed, Document.hasType, accepts_numeric]

theorem accepts_caseForm (condition : Document) (body : List NamedStep) (next : Option String) :
    definitions.accepts caseForm (.object (("condition", condition) ::
      (if body.isEmpty then [] else [("steps", .array (Step.toDocuments body))]) ++
      Fields.optional "next" (next.map .string))) = true := by
  rw [caseForm, Definitions.accepts_closed, List.cons_append, Definitions.fit_cons,
    Definitions.fit_append]
  refine ⟨by simp [Fields.names], by simp, ?_, Definitions.fit_optional fun target _ => ?_⟩
  · split
    · exact Definitions.fit_nil
    · simp [accepts_stepRow body]
  · simp [Document.hasType]

theorem accepts_cases (cases : List (Case String)) :
    definitions.accepts (listOf caseForm) (.array (Case.toDocuments cases)) = true := by
  rw [accepts_listOf]
  induction cases with
  | nil => rfl
  | cons case rest ih =>
    obtain ⟨condition, body, next⟩ := case
    rw [Case.toDocuments, List.all_cons, ih, accepts_caseForm, Bool.and_self]

/-- The body and the retry of an attempt in front of its handler. -/
theorem accepts_attemptForm (body : List NamedStep) (retry : Option RetryPolicy)
    {handler : Fields Document} (hhandler : definitions.Fit attemptForms handler) :
    definitions.accepts (.closed ["try"] attemptForms)
      (.object (("try", .single "steps" (.array (Step.toDocuments body))) ::
        Fields.optional "retry" (retry.map RetryPolicy.toDocument) ++ handler)) = true := by
  have hbody : definitions.accepts (.closed ["steps"] [("steps", stepRow)])
      (.single "steps" (.array (Step.toDocuments body))) = true :=
    Definitions.accepts_closed_single (accepts_stepRow body)
  rw [Definitions.accepts_closed, List.cons_append, Definitions.fit_cons, Definitions.fit_append]
  refine ⟨by simp [Fields.names], by simp [attemptForms, hbody],
    Definitions.fit_optional fun policy _ => ?_, hhandler⟩
  simp [attemptForms, accepts_retryForm policy]

theorem fit_handlerForm (name : String) (handler : List NamedStep) :
    definitions.Fit attemptForms (if handler.isEmpty then []
      else [("except", .object [("as", .string name),
        ("steps", .array (Step.toDocuments handler))])]) := by
  cases handler with
  | nil => exact Definitions.fit_nil
  | cons step rest =>
    have hrow := accepts_stepRow (step :: rest)
    rw [Step.toDocuments] at hrow
    simp [attemptForms, Definitions.accepts_closed, Fields.names, Document.hasType,
      Step.toDocuments, hrow]

/-! ## Steps -/

/-- The fields of a step have the form of its kind. -/
theorem Action.accepts_form (action : Action String) :
    definitions.accepts action.form (.object action.fields) = true := by
  cases action with
  | assign assignments =>
    rw [Action.fields]
    refine Definitions.accepts_closed_single ?_
    simp [assignmentsDocument, accepts_listOf, singleField, Document.single, Document.hasType,
      Definitions.accepts_all]
  | call target args result =>
    rw [Action.form, Action.fields, Definitions.accepts_closed, List.cons_append,
      Definitions.fit_cons, Definitions.fit_append]
    refine ⟨by simp [Fields.names], by simp [Document.hasType], ?_,
      Definitions.fit_optional fun name _ => ?_⟩
    · rw [argumentFields]
      split
      · exact Definitions.fit_nil
      · simp [Document.hasType]
    · simp [Document.hasType]
  | loop head body =>
    rw [Action.fields]
    exact Definitions.accepts_closed_single (accepts_loopForm head body)
  | next target =>
    rw [Action.fields]
    exact Definitions.accepts_closed_single (by simp [Document.hasType])
  | branches options rows =>
    rw [Action.fields]
    exact Definitions.accepts_closed_single
      (accepts_parallelForm options (by decide) (accepts_stepRow rows))
  | parallelLoop options head body =>
    rw [Action.fields]
    exact Definitions.accepts_closed_single
      (accepts_parallelForm options (by decide) (accepts_loopForm head body))
  | raise value =>
    rw [Action.fields]
    exact Definitions.accepts_closed_single Definitions.accepts_any
  | «return» value =>
    cases value with
    | none =>
      rw [Action.fields]
      exact Definitions.accepts_closed_single (by simp)
    | some e =>
      rw [Action.fields]
      exact Definitions.accepts_closed_single Definitions.accepts_any
  | steps body =>
    rw [Action.fields]
    exact Definitions.accepts_closed_single (accepts_stepRow body)
  | switch cases next =>
    rw [Action.form, Action.fields, Definitions.accepts_closed, Definitions.fit_cons]
    refine ⟨by simp [Fields.names], by simp [accepts_cases cases],
      Definitions.fit_optional fun target _ => ?_⟩
    simp [Document.hasType]
  | attempt body retry errorName handler =>
    cases errorName with
    | none =>
      rw [Action.fields]
      exact accepts_attemptForm body retry Definitions.fit_nil
    | some name =>
      rw [Action.fields]
      exact accepts_attemptForm body retry (fit_handlerForm name handler)

/-- A document shows the steps of a subworkflow: what its lists of steps hold, in the order of a
walk through the document, are the steps of the subworkflow under their names, each in the form of
its kind. -/
structure Subworkflow.ShownBy (w : Subworkflow String) (d : Document) : Prop where
  names : Fields.names d.entries = w.stepNames
  forms : List.Forall₂
    (fun entry step => definitions.accepts step.action.form entry.2 = true) d.entries w.walk

theorem Subworkflow.shownBy_toDocument {w : Subworkflow String}
    (h : ∀ step ∈ w.walk, step.action.NamesErrors) : w.ShownBy w.toDocument := by
  constructor
  · rw [Subworkflow.entries_toDocument h, Fields.names, List.map_map]
    rfl
  · rw [Subworkflow.entries_toDocument h, List.forall₂_map_left_iff, List.forall₂_same]
    intro step _
    exact step.action.accepts_form

/-! ## Programs -/

/-- What a program needs for its document to show it as a whole: its subworkflows have different
names, and the error that a handler is for has one. -/
structure Program.Showable (program : Program String) : Prop where
  nodup : (program.map (·.name)).Nodup
  namesErrors : ∀ w ∈ program, ∀ step ∈ w.walk, step.action.NamesErrors

theorem Program.Showable.shownBy {program : Program String} (h : program.Showable) :
    List.Forall₂ (fun field w => field.1 = w.name ∧ w.ShownBy field.2)
      program.toDocument.fields program := by
  rw [Program.fields_toDocument h.nodup, List.forall₂_map_left_iff, List.forall₂_same]
  intro w hw
  exact ⟨rfl, Subworkflow.shownBy_toDocument (h.namesErrors w hw)⟩

/-- A program that passed all checks can be shown as a whole. -/
theorem showable_of_validate {program : Program Unit} {source : String}
    (hbuild : build source = .ok program) (hvalid : validate [] program.named = .ok ()) :
    program.named.Showable := by
  have hformed := formed_named (formed_of_build hbuild)
  have hnames := validate_eq_ok_iff.mp hvalid .subworkflowNames List.not_mem_nil
  exact ⟨repeatedNames_eq_nil_iff.mp (List.map_eq_nil_iff.mp hnames),
    fun w hw step hstep => ((hformed w hw).steps step hstep).namesErrors⟩

/-- The document of a program shows its subworkflows in order and, for each of them, all its steps
in the order of the walk. The program needs subworkflows with different names and handlers with a
name for the error; a text that passes all checks is compiled into the document of such a
program. -/
theorem toDocument_shows :
    (∀ program : Program String, program.Showable →
      ∃ fields, program.toDocument = .object fields ∧
        List.Forall₂ (fun field w => field.1 = w.name ∧ w.ShownBy field.2) fields program) ∧
    ∀ source document, compile [] source = .ok document →
      ∃ program, build source = .ok program ∧ program.named.Showable ∧
        program.named.toDocument = document := by
  constructor
  · intro program h
    exact ⟨_, rfl, h.shownBy⟩
  · intro source document h
    obtain ⟨program, hbuild, hvalid, hdocument⟩ := exists_program_of_compile h
    exact ⟨program, hbuild, showable_of_validate hbuild hvalid, hdocument⟩

/-- A program made by hand, in which steps share a name, a case and a handler have no steps, a loop
runs over a range and a subworkflow is empty. -/
theorem toDocument_shows_sample : ∃ (program : Program String) (fields : Fields Document),
    program.Showable ∧ program.map (·.stepNames) = [["a", "a", "b", "", "end"], []] ∧
      program.toDocument = .object fields ∧
      List.Forall₂ (fun field w => field.1 = w.name ∧ w.ShownBy field.2) fields program := by
  let condition : Expr := .mk (.mk none (.reference "x")) []
  let choice : NamedStep := .mk "a" (.switch
    [.mk condition [] none, .mk condition [.mk "b" (.next "c")] (some "a")] none)
  let loop : NamedStep := .mk "" (.loop ⟨"i", some "k", .range (.int 1) (.int 0)⟩
    [.mk "end" (.return none)])
  let program : Program String :=
    [⟨"w", [], [.mk "a" (.attempt [choice] none none []), loop]⟩, ⟨"", [], []⟩]
  have hshowable : program.Showable := by
    refine ⟨by decide, ?_⟩
    simp [program, choice, loop, Subworkflow.walk, Step.walkAll, Step.walk, Action.walk,
      Case.walkAll, Step.action, Action.NamesErrors]
  obtain ⟨fields, hdocument, hshown⟩ := toDocument_shows.1 program hshowable
  exact ⟨program, fields, hshowable, rfl, hdocument, hshown⟩

end Workflow
