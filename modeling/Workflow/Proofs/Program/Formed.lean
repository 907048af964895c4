import Workflow.Proofs.Build.Acceptance
import Workflow.Proofs.Expr.Reference
import Workflow.Proofs.Number.Value
import Workflow.Proofs.Program.Numbering

/-!
# Forms of steps

Far fewer steps are built than there are: a loop runs over items, a parallel step has branches that
are lists of steps, a handler comes with a name for its error. What a step is like when it was built
from a text is said here, by the kind of the step. Options have their forms since they are checked,
and the names that steps get change nothing about their forms.
-/

namespace Workflow

/-! ## Forms -/

/-- A loop runs over items, which may not be a literal that is no list, and counts no rounds. -/
structure LoopHead.Formed (head : LoopHead) : Prop where
  value : IsName head.value
  index : head.index = none
  items : ∃ e, head.iterable = .items e ∧ e.IsIterable

/-- The only exception policy is to go on. -/
def ParallelOptions.Formed (options : ParallelOptions) : Prop :=
  ∀ policy ∈ options.exceptionPolicy, policy = "continueAll"

/-- Policies and predicates are known by name, and numbers are finite. -/
def RetryPolicy.Formed : RetryPolicy → Prop
  | .named name => Text.isDottedName name = true
  | .custom predicate maxRetries initialDelay maxDelay multiplier =>
    Text.isDottedName predicate = true ∧
      ∀ n ∈ [maxRetries, initialDelay, maxDelay, multiplier], n.IsFinite

section

variable {α : Type}

/-- Where a case goes on. -/
def Case.next : Case α → Option String
  | .mk _ _ next => next

/-- What an action is like when it was built, the steps inside it apart. -/
def Action.Formed : Action α → Prop
  | .assign assignments => assignments ≠ []
  | .call target args result =>
    JoinsNames target ∧ (args.map Prod.fst).Nodup ∧ ∀ name ∈ result, IsName name
  | .loop head _ => head.Formed
  | .next target => target = "break" ∨ target = "continue"
  | .branches options rows =>
    options.Formed ∧ rows ≠ [] ∧ ∀ row ∈ rows, ∃ body, row.action = .steps body
  | .parallelLoop options head _ => options.Formed ∧ head.Formed
  | .raise _ | .return _ | .steps _ => True
  | .switch cases target => cases ≠ [] ∧ target = none ∧ ∀ case ∈ cases, case.next = none
  | .attempt _ retry errorName handler =>
    (retry ≠ none ∨ errorName ≠ none) ∧ (errorName = none → handler = []) ∧
      (∀ name ∈ errorName, IsName name) ∧ ∀ policy ∈ retry, policy.Formed

/-- Steps and the steps inside them are formed. -/
def Step.AllFormed (steps : List (Step α)) : Prop :=
  ∀ step ∈ Step.walkAll steps, step.action.Formed

/-- A subworkflow and its parameters have names, and its steps are formed. -/
structure Subworkflow.Formed (w : Subworkflow α) : Prop where
  name : IsName w.name
  params : ∀ p ∈ w.params, IsName p.name
  steps : Step.AllFormed w.steps

end

/-! ## Options -/

/-- Documents of expressions have no numbers but those of literals. -/
theorem Expr.exists_number_of_toDocument {e : Expr} {x : Binary64} (h : e.toDocument = .float x) :
    ∃ n : Number, n.toDocument = .float x := by
  match e with
  | .mk (.mk none operand) [] =>
    rw [Expr.toDocument, Term.toDocument] at h
    cases operand with
    | primitive p =>
      cases p with
      | number n => exact ⟨n, h⟩
      | _ => cases h
    | _ => cases h
  | .mk (.mk (some op) operand) [] =>
    rw [Expr.toDocument, Term.toDocument] at h
    split at h
    · exact ⟨_, h⟩
    · cases h
  | .mk head (first :: rest) =>
    rw [Expr.toDocument] at h
    cases h

theorem isFinite_of_toDocument {n : Number} {x : Binary64} (h : n.toDocument = .float x) :
    x.isFinite = true := by
  cases n with
  | int m => cases h
  | float y =>
    rw [Number.toDocument] at h
    split at h
    · cases h
      assumption
    · cases h

theorem RetryPolicy.isFinite_numberOption {arg : NamedArgument} {n : Number}
    (h : RetryPolicy.numberOption arg = .ok n) : n.IsFinite := by
  rw [numberOption] at h
  split at h
  · rename_i m hm
    cases h
    obtain ⟨d, hd, hnumber⟩ := Option.bind_eq_some_iff.mp hm
    have hdocument : arg.value.toDocument = d :=
      Option.some.inj (Option.ite_none_right_eq_some.mp hd).2
    cases d with
    | int k =>
      rw [Document.number?, Number.ofInt?] at hnumber
      split at hnumber
      · cases hnumber
        trivial
      · cases hnumber
    | float x =>
      cases hnumber
      obtain ⟨m, hm⟩ := Expr.exists_number_of_toDocument hdocument
      exact isFinite_of_toDocument hm
    | _ => cases hnumber
  · cases h

theorem RetryPolicy.isDottedName_nameOption {arg : NamedArgument} {otherwise : Defect}
    {name : String} (h : RetryPolicy.nameOption arg otherwise = .ok name) :
    Text.isDottedName name = true := by
  rw [nameOption] at h
  split at h
  · rename_i found hfound
    cases h
    rw [Expr.dottedName?] at hfound
    split at hfound
    · obtain ⟨hdotted, heq⟩ := Option.ite_none_right_eq_some.mp hfound
      cases heq
      exact hdotted
    · cases hfound
  · cases h

theorem RetryPolicy.formed_ofArguments {args : List NamedArgument} {p : Position}
    {policy : RetryPolicy} (h : RetryPolicy.ofArguments args p = .ok policy) : policy.Formed := by
  obtain ⟨_, _, h⟩ := bind_eq_ok.mp h
  split at h
  · split at h
    · obtain ⟨name, hname, h⟩ := bind_eq_ok.mp h
      cases h
      exact isDottedName_nameOption hname
    · cases h
  · split at h
    · split at h
      · cases h
      · obtain ⟨predicate, hpredicate, h⟩ := bind_eq_ok.mp h
        obtain ⟨maxRetries, hmaxRetries, h⟩ := bind_eq_ok.mp h
        obtain ⟨initialDelay, hinitialDelay, h⟩ := bind_eq_ok.mp h
        obtain ⟨maxDelay, hmaxDelay, h⟩ := bind_eq_ok.mp h
        obtain ⟨multiplier, hmultiplier, h⟩ := bind_eq_ok.mp h
        cases h
        refine ⟨isDottedName_nameOption hpredicate, ?_⟩
        simp only [List.forall_mem_cons]
        exact ⟨isFinite_numberOption hmaxRetries, isFinite_numberOption hinitialDelay,
          isFinite_numberOption hmaxDelay, isFinite_numberOption hmultiplier,
          List.forall_mem_nil _⟩
    · split at h
      · cases h
      · cases h

theorem ParallelOptions.formed_set {options result : ParallelOptions} {arg : NamedArgument}
    (hoptions : options.Formed) (h : options.set arg = .ok result) : result.Formed := by
  unfold ParallelOptions.set at h
  split at h
  · split at h
    · cases h
      exact hoptions
    · cases h
  · split at h
    · split at h
      · cases h
        exact hoptions
      · cases h
    · split at h
      · split at h
        · rename_i policy hpolicy
          cases h
          rw [policy?] at hpolicy
          split at hpolicy
          · obtain ⟨hname, heq⟩ := Option.ite_none_right_eq_some.mp hpolicy
            cases heq
            intro name hmem
            cases hmem
            exact hname
          · cases hpolicy
        · cases h
      · cases h

theorem ParallelOptions.formed_ofArguments {args : List NamedArgument} {options : ParallelOptions}
    (h : ParallelOptions.ofArguments args = .ok options) : options.Formed := by
  obtain ⟨_, _, h⟩ := bind_eq_ok.mp h
  have hempty : ParallelOptions.empty.Formed := by
    intro policy hpolicy
    cases hpolicy
  generalize ParallelOptions.empty = start at h hempty
  clear * - h hempty
  induction args generalizing start with
  | nil =>
    cases h
    exact hempty
  | cons arg rest ih =>
    rw [List.foldlM_cons] at h
    obtain ⟨next, hnext, h⟩ := bind_eq_ok.mp h
    exact ih next h (formed_set hempty hnext)

theorem nodup_callArguments {args : List NamedArgument} {pairs : List (String × Expr)}
    (h : NamedArgument.callArguments args = .ok pairs) : (pairs.map Prod.fst).Nodup := by
  have hnodup := (decides_callArguments args).exists_ok_iff.mp ⟨pairs, h⟩
  rw [NamedArgument.callArguments] at h
  split at h
  · cases h
  · cases h
    rw [List.map_map]
    exact hnodup

/-! ## Names of steps -/

mutual

theorem Step.walk_unnamed (step : NamedStep) : step.unnamed.walk = step.walk.map Step.unnamed := by
  match step with
  | .mk label action =>
    rw [Step.unnamed, Step.walk, Step.walk, List.map_cons, action.walk_unnamed, Step.unnamed]

theorem Action.walk_unnamed (action : Action String) :
    action.unnamed.walk = action.walk.map Step.unnamed := by
  match action with
  | .assign _ | .call _ _ _ | .next _ | .raise _ | .return _ =>
    simp only [Action.unnamed, Action.walk, List.map_nil]
  | .loop _ body | .branches _ body | .parallelLoop _ _ body | .steps body =>
    rw [Action.unnamed, Action.walk, Action.walk, Step.walkAll_unnamedAll]
  | .switch cases next =>
    rw [Action.unnamed, Action.walk, Action.walk, Case.walkAll_unnamedAll]
  | .attempt body retry errorName handler =>
    rw [Action.unnamed, Action.walk, Action.walk, Step.walkAll_unnamedAll,
      Step.walkAll_unnamedAll, List.map_append]

theorem Step.walkAll_unnamedAll (steps : List NamedStep) :
    Step.walkAll (Step.unnamedAll steps) = (Step.walkAll steps).map Step.unnamed := by
  match steps with
  | [] => rfl
  | step :: rest =>
    rw [Step.unnamedAll, Step.walkAll, Step.walkAll, List.map_append, step.walk_unnamed,
      Step.walkAll_unnamedAll rest]

theorem Case.walkAll_unnamedAll (cases : List (Case String)) :
    Case.walkAll (Case.unnamedAll cases) = (Case.walkAll cases).map Step.unnamed := by
  match cases with
  | [] => rfl
  | .mk condition body next :: rest =>
    rw [Case.unnamedAll, Case.walkAll, Case.walkAll, List.map_append, Step.walkAll_unnamedAll,
      Case.walkAll_unnamedAll rest]

end

theorem Step.unnamedAll_eq_map (steps : List NamedStep) :
    Step.unnamedAll steps = steps.map Step.unnamed := by
  induction steps with
  | nil => rfl
  | cons step rest ih => rw [Step.unnamedAll, List.map_cons, ih]

theorem Case.next_of_unnamedAll {cases : List (Case String)}
    (h : ∀ case ∈ Case.unnamedAll cases, case.next = none) : ∀ case ∈ cases, case.next = none := by
  induction cases with
  | nil => exact List.forall_mem_nil _
  | cons case rest ih =>
    obtain ⟨condition, body, next⟩ := case
    rw [Case.unnamedAll, List.forall_mem_cons] at h
    exact List.forall_mem_cons.mpr ⟨h.1, ih h.2⟩

/-- Names change nothing about the form of an action. -/
theorem Action.formed_of_unnamed {action : Action String} (h : action.unnamed.Formed) :
    action.Formed := by
  cases action with
  | branches options rows =>
    rw [Action.unnamed, Step.unnamedAll_eq_map] at h
    obtain ⟨hoptions, hne, hrows⟩ := h
    refine ⟨hoptions, fun hnil => hne (by rw [hnil, List.map_nil]), fun row hrow => ?_⟩
    obtain ⟨body, hbody⟩ := hrows row.unnamed (List.mem_map_of_mem hrow)
    obtain ⟨label, action⟩ := row
    cases action with
    | steps body => exact ⟨body, rfl⟩
    | _ => simp [Step.unnamed, Action.unnamed, Step.action] at hbody
  | switch cases next =>
    rw [Action.unnamed] at h
    obtain ⟨hne, hnext, hcases⟩ := h
    refine ⟨fun hnil => hne (by rw [hnil, Case.unnamedAll]), hnext, ?_⟩
    exact Case.next_of_unnamedAll hcases
  | attempt body retry errorName handler =>
    rw [Action.unnamed, Step.unnamedAll_eq_map] at h
    obtain ⟨hsome, hempty, hrest⟩ := h
    exact ⟨hsome, fun hnone => by simpa [Step.unnamedAll_eq_map] using hempty hnone, hrest⟩
  | _ =>
    rw [Action.unnamed] at h
    exact h

theorem Step.allFormed_of_unnamedAll {steps : List NamedStep}
    (h : Step.AllFormed (Step.unnamedAll steps)) : Step.AllFormed steps := by
  rw [Step.AllFormed, Step.walkAll_unnamedAll, List.forall_mem_map] at h
  intro step hstep
  have hformed := h step hstep
  obtain ⟨label, action⟩ := step
  exact Action.formed_of_unnamed hformed

/-- What is built and named is formed. -/
theorem formed_named {program : Program Unit} (h : ∀ w ∈ program, w.Formed) :
    ∀ w ∈ program.named, w.Formed := by
  intro w hw
  have hsame := (Subworkflow.namedAll_spec program .zero).1
  have hmem : ⟨w.name, w.params, Step.unnamedAll w.steps⟩ ∈ program := by
    rw [← hsame]
    exact List.mem_map_of_mem hw
  obtain ⟨hname, hparams, hsteps⟩ := h _ hmem
  exact ⟨hname, hparams, Step.allFormed_of_unnamedAll hsteps⟩

/-- The name of a step is that of its kind and a number. -/
theorem exists_label_named (program : Program Unit) : ∀ w ∈ program.named,
    ∀ step ∈ w.walk, ∃ n, step.label = numberedName step.action.kind n := by
  intro w hw step hstep
  have hnumbered := (Subworkflow.namedAll_spec program .zero).2
  obtain ⟨n, _, hlabel⟩ := hnumbered.exists_number step (List.mem_flatMap.mpr ⟨w, hw, hstep⟩)
  exact ⟨n, hlabel⟩

/-- What is compiled was built, named and checked. -/
theorem exists_program_of_compile {disabled : List Check} {source : String} {document : Document}
    (h : compile disabled source = .ok document) :
    ∃ program, build source = .ok program ∧ validate disabled program.named = .ok () ∧
      program.named.toDocument = document := by
  obtain ⟨program, hbuild, h⟩ := bind_eq_ok.mp h
  obtain ⟨_, hvalid, h⟩ := bind_eq_ok.mp h
  cases h
  exact ⟨program, hbuild, hvalid, rfl⟩

end Workflow
