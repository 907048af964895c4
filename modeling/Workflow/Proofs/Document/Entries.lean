import Workflow.Program.Rendering
import Workflow.Proofs.Program.Built

/-!
# Steps inside documents

The steps of a document are found without the program that it came from: a list of steps stands
under `steps` or `branches`, and such lists are looked for inside loops, parallel steps, cases,
attempts and handlers, not inside values. In the document of a subworkflow they are the steps of the
walk, in its order.
-/

namespace Workflow

namespace Document

/-- Whether a field holds a list of steps. -/
def isStepList (name : String) : Bool := ["steps", "branches"].contains name

/-- Whether a field can hold lists of steps further inside. -/
def isContainer (name : String) : Bool :=
  ["for", "parallel", "switch", "try", "except"].contains name

mutual

/-- The steps inside the body of a step or a part of it, each with its name, in front of the steps
inside it. -/
def entries : Document → List (String × Document)
  | .object fields => fieldEntries fields
  | .array items => itemEntries items
  | _ => []

/-- The steps of a list of steps. -/
def listEntries : Document → List (String × Document)
  | .array items => stepEntries items
  | _ => []

/-- The steps that a step of a list is: its only field. -/
def namedEntries : Document → List (String × Document)
  | .object fields => namedFields fields
  | _ => []

/-- The steps inside fields. -/
def fieldEntries : List (String × Document) → List (String × Document)
  | [] => []
  | (name, value) :: rest =>
    (if isStepList name then value.listEntries
      else if isContainer name then value.entries else []) ++ fieldEntries rest

/-- The fields of a step, with the steps inside them. -/
def namedFields : List (String × Document) → List (String × Document)
  | [] => []
  | (name, body) :: rest => (name, body) :: (body.entries ++ namedFields rest)

/-- The steps inside items. -/
def itemEntries : List Document → List (String × Document)
  | [] => []
  | item :: rest => item.entries ++ itemEntries rest

/-- The steps that the items of a list of steps are. -/
def stepEntries : List Document → List (String × Document)
  | [] => []
  | item :: rest => item.namedEntries ++ stepEntries rest

end

theorem fieldEntries_append (fields others : List (String × Document)) :
    fieldEntries (fields ++ others) = fieldEntries fields ++ fieldEntries others := by
  induction fields with
  | nil => rfl
  | cons field rest ih =>
    obtain ⟨name, value⟩ := field
    rw [List.cons_append, fieldEntries, fieldEntries, ih, List.append_assoc]

section

variable {name : String} {rest : List (String × Document)}

/-- A field that holds a value. -/
theorem fieldEntries_value (value : Document)
    (h : isStepList name = false ∧ isContainer name = false) :
    fieldEntries ((name, value) :: rest) = fieldEntries rest := by
  rw [fieldEntries, h.1, h.2]
  rfl

/-- A field that holds a list of steps. -/
theorem fieldEntries_steps (items : List Document) (h : isStepList name = true) :
    fieldEntries ((name, .array items) :: rest) = stepEntries items ++ fieldEntries rest := by
  rw [fieldEntries, if_pos h, listEntries]

/-- A field with lists of steps further inside. -/
theorem fieldEntries_container (value : Document) (hsteps : isStepList name = false)
    (h : isContainer name = true) :
    fieldEntries ((name, value) :: rest) = value.entries ++ fieldEntries rest := by
  rw [fieldEntries, hsteps, if_neg Bool.false_ne_true, if_pos h]

theorem fieldEntries_optional {value : Option Document}
    (h : isStepList name = false ∧ isContainer name = false) :
    fieldEntries (Fields.optional name value) = [] := by
  cases value with
  | none => rfl
  | some d => exact fieldEntries_value d h

end

end Document

/-! ## Documents of steps -/

/-- What stands for a step in a document. -/
def Step.entry (step : NamedStep) : String × Document :=
  (step.label, .object step.action.fields)

/-- An action has no handler without a name for the error. -/
def Action.NamesErrors {α : Type} : Action α → Prop
  | .attempt _ _ errorName handler => errorName = none → handler = []
  | _ => True

theorem Action.Formed.namesErrors {α : Type} {action : Action α} (h : action.Formed) :
    action.NamesErrors := by
  cases action with
  | attempt body retry errorName handler => exact h.2.1
  | _ => trivial

open Document

theorem fieldEntries_head (head : LoopHead) : fieldEntries head.fields = [] := by
  obtain ⟨value, index, iterable⟩ := head
  rw [LoopHead.fields, fieldEntries_append, fieldEntries_value _ (by decide),
    fieldEntries_optional (by decide)]
  cases iterable with
  | items e => exact fieldEntries_value _ (by decide)
  | range first last => exact fieldEntries_value _ (by decide)

theorem fieldEntries_options (options : ParallelOptions) : fieldEntries options.fields = [] := by
  rw [ParallelOptions.fields, fieldEntries_append, fieldEntries_append,
    fieldEntries_optional (by decide), fieldEntries_optional (by decide),
    fieldEntries_optional (by decide)]
  rfl

theorem fieldEntries_arguments (args : List (String × Expr)) :
    fieldEntries (argumentFields args) = [] := by
  rw [argumentFields]
  split
  · rfl
  · exact fieldEntries_value _ (by decide)

/-- The steps in the body of a loop. -/
theorem entries_loop (head : LoopHead) (docs : List Document) :
    (Document.object (head.fields ++ [("steps", .array docs)])).entries = stepEntries docs := by
  rw [entries, fieldEntries_append, fieldEntries_head, fieldEntries_steps _ rfl, fieldEntries,
    List.nil_append, List.append_nil]

mutual

/-- The steps inside the fields of an action are those of the walk. -/
theorem Action.fieldEntries_fields (action : Action String) (h : action.NamesErrors)
    (hinner : ∀ step ∈ action.walk, step.action.NamesErrors) :
    fieldEntries action.fields = action.walk.map Step.entry := by
  match action with
  | .assign assignments => rfl
  | .call target args result =>
    rw [Action.fields, fieldEntries_append, fieldEntries_value _ (by decide),
      fieldEntries_arguments, fieldEntries_optional (by decide)]
    rfl
  | .loop head body =>
    rw [Action.walk] at hinner ⊢
    rw [Action.fields, fieldEntries_container _ rfl rfl, entries_loop, fieldEntries,
      List.append_nil]
    exact Step.stepEntries_toDocuments body hinner
  | .next target => rfl
  | .branches options rows =>
    rw [Action.walk] at hinner ⊢
    rw [Action.fields, fieldEntries_container _ rfl rfl, entries, fieldEntries_append,
      fieldEntries_options, fieldEntries_steps _ rfl, fieldEntries, List.append_nil,
      List.append_nil, List.nil_append]
    exact Step.stepEntries_toDocuments rows hinner
  | .parallelLoop options head body =>
    rw [Action.walk] at hinner ⊢
    rw [Action.fields, fieldEntries_container _ rfl rfl, entries, fieldEntries_append,
      fieldEntries_options, fieldEntries_container _ rfl rfl, entries_loop, fieldEntries,
      List.append_nil, List.append_nil, List.nil_append]
    exact Step.stepEntries_toDocuments body hinner
  | .raise value => rfl
  | .return none => rfl
  | .return (some value) => rfl
  | .steps body =>
    rw [Action.walk] at hinner ⊢
    rw [Action.fields, fieldEntries_steps _ rfl, fieldEntries, List.append_nil]
    exact Step.stepEntries_toDocuments body hinner
  | .switch cases next =>
    rw [Action.walk] at hinner ⊢
    rw [Action.fields, fieldEntries_container _ rfl rfl, entries, fieldEntries_optional (by decide),
      List.append_nil]
    exact Case.itemEntries_toDocuments cases hinner
  | .attempt body retry none handler =>
    rw [h rfl, Action.walk, Step.walkAll, List.append_nil] at hinner ⊢
    rw [Action.fields, List.append_nil, fieldEntries_container _ rfl rfl, Document.single, entries,
      fieldEntries_steps _ rfl, fieldEntries_optional (by decide), fieldEntries, List.append_nil,
      List.append_nil]
    exact Step.stepEntries_toDocuments body hinner
  | .attempt body retry (some name) handler =>
    rw [Action.walk] at hinner ⊢
    obtain ⟨hbody, hhandler⟩ := List.forall_mem_append.mp hinner
    -- a handler without steps is left out, and nothing is lost
    have hexcept : fieldEntries (if handler.isEmpty then []
        else [("except", .object [("as", .string name),
          ("steps", .array (Step.toDocuments handler))])]) =
        (Step.walkAll handler).map Step.entry := by
      cases handler with
      | nil => rfl
      | cons step rest =>
        rw [List.isEmpty_cons, if_neg Bool.false_ne_true, fieldEntries_container _ rfl rfl, entries,
          fieldEntries_value _ (by decide), fieldEntries_steps _ rfl, fieldEntries,
          List.append_nil, List.append_nil]
        exact Step.stepEntries_toDocuments (step :: rest) hhandler
    rw [Action.fields, fieldEntries_append, fieldEntries_container _ rfl rfl, Document.single,
      entries, fieldEntries_steps _ rfl, fieldEntries_optional (by decide), hexcept, fieldEntries,
      List.append_nil, List.append_nil, List.map_append, Step.stepEntries_toDocuments body hbody]

theorem Step.stepEntries_toDocuments (steps : List NamedStep)
    (h : ∀ step ∈ Step.walkAll steps, step.action.NamesErrors) :
    stepEntries (Step.toDocuments steps) = (Step.walkAll steps).map Step.entry := by
  match steps with
  | [] => rfl
  | .mk label action :: rest =>
    rw [Step.walkAll, Step.walk, List.cons_append, List.forall_mem_cons,
      List.forall_mem_append] at h
    obtain ⟨haction, hinner, hrest⟩ := h
    rw [Step.toDocuments, Step.toDocument, stepEntries, Document.single, namedEntries, namedFields,
      namedFields, entries, action.fieldEntries_fields haction hinner,
      Step.stepEntries_toDocuments rest hrest, Step.walkAll, Step.walk, List.append_nil,
      List.map_append, List.map_cons]
    rfl

theorem Case.itemEntries_toDocuments (cases : List (Case String))
    (h : ∀ step ∈ Case.walkAll cases, step.action.NamesErrors) :
    itemEntries (Case.toDocuments cases) = (Case.walkAll cases).map Step.entry := by
  match cases with
  | [] => rfl
  | .mk condition body next :: rest =>
    rw [Case.walkAll] at h ⊢
    obtain ⟨hbody, hrest⟩ := List.forall_mem_append.mp h
    have hsteps : fieldEntries (if body.isEmpty then []
        else [("steps", .array (Step.toDocuments body))]) = (Step.walkAll body).map Step.entry := by
      cases body with
      | nil => rfl
      | cons step others =>
        rw [List.isEmpty_cons, if_neg Bool.false_ne_true, fieldEntries_steps _ rfl, fieldEntries,
          List.append_nil]
        exact Step.stepEntries_toDocuments (step :: others) hbody
    rw [Case.toDocuments, itemEntries, entries, fieldEntries_append,
      fieldEntries_value _ (by decide), hsteps, fieldEntries_optional (by decide), List.append_nil,
      List.map_append, Case.itemEntries_toDocuments rest hrest]

end

/-- The steps in the document of a subworkflow are those of the walk through it. -/
theorem Subworkflow.entries_toDocument {w : Subworkflow String}
    (h : ∀ step ∈ w.walk, step.action.NamesErrors) :
    w.toDocument.entries = w.walk.map Step.entry := by
  have hparams : fieldEntries (if w.params.isEmpty then []
      else [("params", .array (w.params.map Parameter.toDocument))]) = [] := by
    split
    · rfl
    · exact fieldEntries_value _ (by decide)
  rw [Subworkflow.toDocument, entries, fieldEntries_append, hparams, fieldEntries_steps _ rfl,
    fieldEntries, List.append_nil, List.nil_append]
  exact Step.stepEntries_toDocuments w.steps h

end Workflow
