import Workflow.Step.Merge
import Workflow.Step.Walk

/-!
# Properties of every step

A property of what a step does holds of every step at any depth if it is shown step by step.
Merging assignments keeps it if it holds of assignments that are made one after the other, and it
keeps what is gathered from steps if assignments give nothing.
-/

namespace Workflow

variable {α : Type}

/-- Every step and every step inside it does something with a property. -/
def Step.Every (P : Action α → Prop) (steps : List (Step α)) : Prop :=
  ∀ step ∈ Step.walkAll steps, P step.action

/-- What a step does has a property, and so has what every step inside it does. -/
def Action.Every (P : Action α → Prop) (action : Action α) : Prop :=
  P action ∧ ∀ step ∈ action.walk, P step.action

theorem Step.walkAll_eq_flatMap (steps : List (Step α)) :
    Step.walkAll steps = steps.flatMap Step.walk := by
  induction steps with
  | nil => rw [Step.walkAll, List.flatMap_nil]
  | cons step rest ih => rw [Step.walkAll, ih, List.flatMap_cons]

theorem Case.walkAll_eq_flatMap (cases : List (Case α)) :
    Case.walkAll cases = cases.flatMap fun case => Step.walkAll case.body := by
  induction cases with
  | nil => rw [Case.walkAll, List.flatMap_nil]
  | cons case rest ih =>
    obtain ⟨condition, body, next⟩ := case
    rw [Case.walkAll, ih, List.flatMap_cons]
    rfl

section

variable {P : Action α → Prop} {steps rest : List (Step α)} {label : α} {action : Action α}

theorem Step.every_nil : Step.Every P [] := by
  rw [Step.Every, Step.walkAll]
  exact List.forall_mem_nil _

theorem Step.every_cons :
    Step.Every P (.mk label action :: rest) ↔ action.Every P ∧ Step.Every P rest := by
  simp only [Step.Every, Action.Every, Step.walkAll, Step.walk, List.cons_append,
    List.forall_mem_cons, List.forall_mem_append, Step.action, and_assoc]

theorem Step.every_append :
    Step.Every P (steps ++ rest) ↔ Step.Every P steps ∧ Step.Every P rest := by
  rw [Step.Every, Step.walkAll_eq_flatMap, List.flatMap_append, List.forall_mem_append,
    ← Step.walkAll_eq_flatMap, ← Step.walkAll_eq_flatMap]
  rfl

theorem Action.every_of_walk_eq_nil (h : action.walk = []) : action.Every P ↔ P action := by
  rw [Action.Every, h]
  exact and_iff_left (List.forall_mem_nil _)

theorem Case.forall_mem_walkAll {Q : Step α → Prop} {cases : List (Case α)} :
    (∀ step ∈ Case.walkAll cases, Q step) ↔
      ∀ case ∈ cases, ∀ step ∈ Step.walkAll case.body, Q step := by
  rw [Case.walkAll_eq_flatMap, List.forall_mem_flatMap]

theorem Action.every_switch {cases : List (Case α)} {next : Option String} :
    (Action.switch cases next).Every P ↔
      P (.switch cases next) ∧ ∀ case ∈ cases, Step.Every P case.body := by
  rw [Action.Every, Action.walk, Case.forall_mem_walkAll]
  rfl

theorem Step.every_mergeOnto
    (hP : ∀ xs ys, P (.assign xs) → P (.assign ys) → P (.assign (xs ++ ys))) {step : Step α}
    (h : Step.Every P (step :: rest)) : Step.Every P (step.mergeOnto rest) := by
  unfold Step.mergeOnto
  split
  · rename_i label xs _ ys others
    have hleaf (zs : List (String × Expr)) : (Action.assign zs).Every P ↔ P (.assign zs) :=
      Action.every_of_walk_eq_nil (by simp [Action.walk])
    rw [Step.every_cons, Step.every_cons, hleaf, hleaf] at h
    rw [Step.every_cons, hleaf]
    exact ⟨hP xs ys h.1 h.2.1, h.2.2⟩
  · exact h

theorem Step.every_merge
    (hP : ∀ xs ys, P (.assign xs) → P (.assign ys) → P (.assign (xs ++ ys)))
    (h : Step.Every P steps) : Step.Every P (Step.merge steps) := by
  induction steps with
  | nil => exact h
  | cons step others ih =>
    obtain ⟨label, action⟩ := step
    obtain ⟨haction, hothers⟩ := Step.every_cons.mp h
    exact Step.every_mergeOnto hP (Step.every_cons.mpr ⟨haction, ih hothers⟩)

/-- What steps give one after the other is not changed by merging if assignments give nothing. -/
theorem Step.flatMap_mergeOnto {β : Type} {f : Step α → List β}
    (hf : ∀ label xs, f (.mk label (.assign xs)) = []) (step : Step α) :
    (step.mergeOnto rest).flatMap f = f step ++ rest.flatMap f := by
  unfold Step.mergeOnto
  split
  · rw [List.flatMap_cons, List.flatMap_cons, hf, hf, hf]
    rfl
  · rw [List.flatMap_cons]

theorem Step.flatMap_merge {β : Type} {f : Step α → List β}
    (hf : ∀ label xs, f (.mk label (.assign xs)) = []) :
    (Step.merge steps).flatMap f = steps.flatMap f := by
  induction steps with
  | nil => rfl
  | cons step others ih =>
    have hmerge : Step.merge (step :: others) = step.mergeOnto (Step.merge others) := rfl
    rw [hmerge, Step.flatMap_mergeOnto hf, ih, List.flatMap_cons]

end

section

variable {P : Action Unit → Prop} {action : Action Unit}

theorem Step.every_raw (h : action.Every P) : Step.Every P [action.raw] :=
  Step.every_cons.mpr ⟨h, Step.every_nil⟩

theorem Step.every_leaf (hwalk : action.walk = []) (h : P action) : Step.Every P [action.raw] :=
  Step.every_raw ((Action.every_of_walk_eq_nil hwalk).mpr h)

end

end Workflow
