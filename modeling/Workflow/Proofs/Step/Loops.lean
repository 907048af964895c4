import Workflow.Proofs.Step.Path

/-!
# Steps inside and outside loops

A walk meets every step either outside all loops or in the body of a loop that is itself outside all
others. Where names differ, no step is both.
-/

namespace Workflow

variable {α : Type}

/-- The steps of the body of a loop, be it parallel or not. What is no loop has none. -/
def Step.loopBody : Step α → List (Step α)
  | .mk _ (.loop _ body) => body
  | .mk _ (.parallelLoop _ _ body) => body
  | _ => []

/-- The head of a loop, be it parallel or not. -/
def Step.loopHead? : Step α → Option LoopHead
  | .mk _ (.loop head _) => some head
  | .mk _ (.parallelLoop _ head _) => some head
  | _ => none

theorem Step.loopBody_eq_nil {step : Step α} (h : step.loopHead? = none) : step.loopBody = [] := by
  obtain ⟨label, action⟩ := step
  cases action with
  | loop head body => cases h
  | parallelLoop options head body => cases h
  | _ => rfl

mutual

/-- A step and the steps inside it that are not in the body of a loop. -/
def Step.outside : Step α → List (Step α)
  | .mk label action => .mk label action :: action.outside

/-- The steps inside an action that are not in the body of a loop. -/
def Action.outside : Action α → List (Step α)
  | .branches _ branches => Step.outsideAll branches
  | .steps body => Step.outsideAll body
  | .switch cases _ => Case.outsideAll cases
  | .attempt body _ _ handler => Step.outsideAll body ++ Step.outsideAll handler
  | _ => []

/-- Steps, with those inside them that are not in the body of a loop. -/
def Step.outsideAll : List (Step α) → List (Step α)
  | [] => []
  | step :: rest => step.outside ++ Step.outsideAll rest

/-- The steps of cases, with those inside them that are not in the body of a loop. -/
def Case.outsideAll : List (Case α) → List (Step α)
  | [] => []
  | .mk _ body _ :: rest => Step.outsideAll body ++ Case.outsideAll rest

end

/-! ## Outside by direct children -/

theorem Step.outsideAll_eq_flatMap (steps : List (Step α)) :
    Step.outsideAll steps = steps.flatMap Step.outside := by
  induction steps with
  | nil => rw [Step.outsideAll, List.flatMap_nil]
  | cons step rest ih => rw [Step.outsideAll, ih, List.flatMap_cons]

theorem Case.outsideAll_eq_flatMap (cases : List (Case α)) :
    Case.outsideAll cases = cases.flatMap fun case => Step.outsideAll case.body := by
  induction cases with
  | nil => rw [Case.outsideAll, List.flatMap_nil]
  | cons case rest ih =>
    obtain ⟨condition, body, next⟩ := case
    rw [Case.outsideAll, ih, List.flatMap_cons]
    rfl

/-- The steps directly inside a step are the body of a loop, or none of them is. -/
theorem Step.loop_or_outside (step : Step α) :
    step.loopBody = step.children ∧ step.outside = [step] ∨
      step.loopBody = [] ∧ step.outside = step :: Step.outsideAll step.children := by
  obtain ⟨label, action⟩ := step
  rw [Step.outside]
  cases action with
  | loop head body =>
    rw [Action.outside]
    · exact .inl ⟨rfl, rfl⟩
    all_goals simp
  | parallelLoop options head body =>
    rw [Action.outside]
    · exact .inl ⟨rfl, rfl⟩
    all_goals simp
  | switch cases next =>
    have houtside : Case.outsideAll cases = Step.outsideAll (cases.flatMap Case.body) := by
      simp only [Case.outsideAll_eq_flatMap, Step.outsideAll_eq_flatMap, List.flatMap_assoc]
    rw [Action.outside, houtside]
    exact .inr ⟨rfl, rfl⟩
  | attempt body retry errorName handler =>
    have houtside : Step.outsideAll (body ++ handler) =
        Step.outsideAll body ++ Step.outsideAll handler := by
      simp only [Step.outsideAll_eq_flatMap, List.flatMap_append]
    rw [Action.outside, ← houtside]
    exact .inr ⟨rfl, rfl⟩
  | _ => exact .inr ⟨rfl, by simp [Action.outside, Step.children, Step.outsideAll]⟩

/-! ## The walk -/

section

variable {steps : List (Step α)} {step loop inner : Step α}

/-- What is met inside a step of a walk is met by the walk. -/
theorem Step.mem_walkAll_trans (hstep : step ∈ Step.walkAll steps)
    (hinner : inner ∈ Step.walkAll step.children) : inner ∈ Step.walkAll steps := by
  induction steps using Step.children_induction with
  | nil =>
    rw [Step.walkAll] at hstep
    cases hstep
  | cons first rest ih ihrest =>
    rw [Step.walkAll, first.walk_eq_children, List.cons_append, List.mem_cons,
      List.mem_append] at hstep ⊢
    rcases hstep with rfl | hchild | hrest
    · exact .inr (.inl hinner)
    · exact .inr (.inl (ih hchild))
    · exact .inr (.inr (ihrest hrest))

/-- What is in the body of a loop of a walk is met by the walk. -/
theorem Step.mem_walkAll_of_loopBody (hloop : loop ∈ Step.walkAll steps)
    (hinner : inner ∈ Step.walkAll loop.loopBody) : inner ∈ Step.walkAll steps := by
  rcases loop.loop_or_outside with ⟨hbody, _⟩ | ⟨hbody, _⟩
  · exact Step.mem_walkAll_trans hloop (hbody ▸ hinner)
  · rw [hbody, Step.walkAll] at hinner
    cases hinner

/-- Up to order, a walk meets the steps outside loops and what is in the bodies of the loops among
them. -/
theorem Step.perm_walkAll (steps : List (Step α)) :
    (Step.walkAll steps).Perm (Step.outsideAll steps ++
      (Step.outsideAll steps).flatMap fun step => Step.walkAll step.loopBody) := by
  induction steps using Step.children_induction with
  | nil => simp [Step.walkAll, Step.outsideAll]
  | cons first rest ih ihrest =>
    rw [Step.walkAll, Step.outsideAll, first.walk_eq_children, List.flatMap_append,
      List.cons_append]
    generalize hflat : (Step.outsideAll rest).flatMap (fun step => Step.walkAll step.loopBody) =
      restInside at ihrest ⊢
    rcases first.loop_or_outside with ⟨hbody, hfirst⟩ | ⟨hbody, hfirst⟩
    · rw [hfirst, List.flatMap_singleton, hbody]
      refine List.Perm.cons first ?_
      exact (ihrest.append_left _).trans (List.perm_append_comm_assoc _ _ _)
    · rw [hfirst, List.flatMap_cons, hbody, Step.walkAll, List.nil_append, List.cons_append,
        List.cons_append]
      refine List.Perm.cons first ?_
      refine (ih.append ihrest).trans ?_
      rw [List.append_assoc, List.append_assoc]
      exact (List.perm_append_comm_assoc _ _ _).append_left _

theorem Step.mem_walkAll_iff_outside : step ∈ Step.walkAll steps ↔
    step ∈ Step.outsideAll steps ∨
      ∃ loop ∈ Step.outsideAll steps, step ∈ Step.walkAll loop.loopBody := by
  rw [(Step.perm_walkAll steps).mem_iff, List.mem_append, List.mem_flatMap]

/-- What is in the body of a loop is in the body of one that is outside all others. -/
theorem Step.exists_outer_loop (hloop : loop ∈ Step.walkAll steps)
    (hinner : inner ∈ Step.walkAll loop.loopBody) :
    ∃ outer ∈ Step.outsideAll steps, inner ∈ Step.walkAll outer.loopBody := by
  rcases Step.mem_walkAll_iff_outside.mp hloop with houtside | ⟨outer, houter, hmem⟩
  · exact ⟨loop, houtside, hinner⟩
  · exact ⟨outer, houter, Step.mem_walkAll_of_loopBody hmem hinner⟩

/-- Where names differ, a step outside loops and one inside do not share theirs. -/
theorem Step.label_ne_of_outside (h : (Step.labels steps).Nodup)
    (hstep : step ∈ Step.outsideAll steps) (hloop : loop ∈ Step.walkAll steps)
    (hinner : inner ∈ Step.walkAll loop.loopBody) : step.label ≠ inner.label := by
  obtain ⟨outer, houter, hmem⟩ := Step.exists_outer_loop hloop hinner
  have hnodup := ((Step.perm_walkAll steps).map Step.label).nodup_iff.mp h
  rw [List.map_append] at hnodup
  exact (List.nodup_append.mp hnodup).2.2 _ (List.mem_map_of_mem hstep) _
    (List.mem_map_of_mem (List.mem_flatMap.mpr ⟨outer, houter, hmem⟩))

end

end Workflow
