import Workflow.Proofs.Check.Acceptance
import Workflow.Proofs.Step.Path

/-!
# What the checks ask for

Each check has a condition on programs, which is said about steps at paths and not about the walk
that the check takes. A check reports nothing exactly if its condition holds, so that a program is
valid exactly if it meets the conditions of the checks that are not disabled.
-/

namespace Workflow

/-! ## Conditions -/

/-- Some step of a subworkflow, at some depth, has a name. -/
def Subworkflow.HasStep (w : Subworkflow String) (name : String) : Prop :=
  ∃ path step, Step.at? w.steps path = some step ∧ step.label = name

/-- A call goes to a name with a dot, to a step of the subworkflow around it or to a subworkflow. -/
def Program.CanCall (program : Program String) (w : Subworkflow String) (target : String) : Prop :=
  '.' ∈ target.toList ∨ w.HasStep target ∨ ∃ v ∈ program, v.name = target

/-- A switch goes on at the end or at a step of the subworkflow around it. -/
def Subworkflow.CanGoOn (w : Subworkflow String) (target : String) : Prop :=
  target = "end" ∨ w.HasStep target

/-- Every jump of an action has somewhere to go. -/
def Action.Lands (program : Program String) (w : Subworkflow String) : Action String → Prop
  | .call target _ _ => program.CanCall w target
  | .switch cases after => (∀ target, after = some target → w.CanGoOn target) ∧
      ∀ condition body target, .mk condition body (some target) ∈ cases → w.CanGoOn target
  | _ => True

/-- A subworkflow is the first one of a name. -/
def Program.IsFirst (program : Program String) (name : String) (w : Subworkflow String) : Prop :=
  ∃ before after, program = before ++ w :: after ∧ w.name = name ∧ ∀ v ∈ before, v.name ≠ name

/-- Arguments give every parameter that has no default value, and nothing that is no parameter. -/
def Subworkflow.Takes (w : Subworkflow String) (args : List (String × Expr)) : Prop :=
  (∀ p ∈ w.params, p.default = none → ∃ value, (p.name, value) ∈ args) ∧
    ∀ name value, (name, value) ∈ args → ∃ p ∈ w.params, p.name = name

/-- A call of a subworkflow gives the arguments that it takes. -/
def Action.Supplies (program : Program String) : Action String → Prop
  | .call target args _ => ∀ callee, program.IsFirst target callee → callee.Takes args
  | _ => True

/-- What a check asks of a program. -/
def Check.Condition (program : Program String) : Check → Prop
  | .workflowNames => ∀ w ∈ program, w.name ≠ ""
  | .stepNames => ∀ w ∈ program, ∀ path path' step step', Step.at? w.steps path = some step →
      Step.at? w.steps path' = some step' → step.label = step'.label → path = path'
  | .subworkflowNames => program.Pairwise fun v w => v.name ≠ w.name
  | .jumpTargets => ∀ w ∈ program, ∀ path step, Step.at? w.steps path = some step →
      step.action.Lands program w
  | .callArguments => ∀ w ∈ program, ∀ path step, Step.at? w.steps path = some step →
      step.action.Supplies program

/-! ## Single steps -/

theorem Subworkflow.mem_stepNames_iff {w : Subworkflow String} {name : String} :
    name ∈ w.stepNames ↔ w.HasStep name := by
  simp only [Subworkflow.stepNames, Subworkflow.walk, List.mem_map, Step.mem_walkAll_iff,
    Subworkflow.HasStep]
  exact ⟨fun ⟨step, ⟨path, hat⟩, hlabel⟩ => ⟨path, step, hat, hlabel⟩,
    fun ⟨path, step, hat, hlabel⟩ => ⟨step, ⟨path, hat⟩, hlabel⟩⟩

theorem Program.find?_eq_some_iff {program : Program String} {name : String}
    {w : Subworkflow String} :
    program.find? (·.name == name) = some w ↔ program.IsFirst name w := by
  rw [List.find?_eq_some_iff_append]
  simp only [beq_iff_eq, Bool.not_eq_true', beq_eq_false_iff_ne, Program.IsFirst]
  constructor
  · rintro ⟨hname, before, after, hprogram, hbefore⟩
    exact ⟨before, after, hprogram, hname, hbefore⟩
  · rintro ⟨before, after, hprogram, hname, hbefore⟩
    exact ⟨hname, before, after, hprogram, hbefore⟩

namespace Check

variable {program : Program String} {w : Subworkflow String} {step : NamedStep}

theorem isCallTarget_iff {target : String} :
    isCallTarget w.stepNames (program.map (·.name)) target = true ↔ program.CanCall w target := by
  simp only [isCallTarget, Bool.or_eq_true, List.contains_iff_mem, or_assoc,
    Subworkflow.mem_stepNames_iff, List.mem_map, Program.CanCall]

theorem isNextTarget_iff {target : String} :
    isNextTarget w.stepNames target = true ↔ w.CanGoOn target := by
  simp only [isNextTarget, endTarget, Bool.or_eq_true, beq_iff_eq, List.contains_iff_mem,
    Subworkflow.mem_stepNames_iff, Subworkflow.CanGoOn]

theorem mem_caseNext?_iff {cases : List (Case String)} {target : String} :
    target ∈ cases.filterMap caseNext? ↔
      ∃ condition body, .mk condition body (some target) ∈ cases := by
  rw [List.mem_filterMap]
  constructor
  · rintro ⟨⟨condition, body, next⟩, hmem, hnext⟩
    obtain rfl : next = some target := hnext
    exact ⟨condition, body, hmem⟩
  · rintro ⟨condition, body, hmem⟩
    exact ⟨_, hmem, rfl⟩

/-- A step has no missing target exactly if its jumps land. -/
theorem missingOfStep_eq_nil_iff :
    missingOfStep w.name w.stepNames (program.map (·.name)) step = [] ↔
      step.action.Lands program w := by
  obtain ⟨label, action⟩ := step
  cases action with
  | call target args result =>
    simp only [missingOfStep, Step.action, Action.Lands, ← isCallTarget_iff, ite_eq_left_iff,
      List.cons_ne_nil, imp_false, Bool.not_eq_true, Bool.not_eq_false]
  | switch cases next =>
    simp only [missingOfStep, Step.action, Action.Lands, List.map_eq_nil_iff,
      List.filter_eq_nil_iff, Bool.not_eq_true', Bool.not_eq_false, List.mem_append,
      Option.mem_toList, mem_caseNext?_iff, isNextTarget_iff]
    constructor
    · intro h
      exact ⟨fun target hnext => h target (.inl hnext),
        fun condition body target hcase => h target (.inr ⟨condition, body, hcase⟩)⟩
    · rintro ⟨hnext, hcases⟩ target (htarget | ⟨condition, body, hcase⟩)
      · exact hnext target htarget
      · exact hcases condition body target hcase
  | _ => simp only [missingOfStep, Step.action, Action.Lands]

theorem takes_iff {callee : Subworkflow String} {args : List (String × Expr)} :
    callee.Takes args ↔ (∀ param ∈ callee.requiredNames, param ∈ args.map Prod.fst) ∧
      ∀ arg ∈ args.map Prod.fst, arg ∈ callee.paramNames := by
  refine and_congr ⟨fun h => ?_, fun h p hp hdefault => ?_⟩
    ⟨fun h => ?_, fun h name value harg => ?_⟩
  · refine List.forall_mem_map.mpr fun p hp => ?_
    obtain ⟨hp, hdefault⟩ := List.mem_filter.mp hp
    obtain ⟨value, harg⟩ := h p hp (Option.isNone_iff_eq_none.mp hdefault)
    exact List.mem_map.mpr ⟨_, harg, rfl⟩
  · have hmem : p ∈ callee.params.filter (·.default.isNone) :=
      List.mem_filter.mpr ⟨hp, Option.isNone_iff_eq_none.mpr hdefault⟩
    obtain ⟨⟨_, value⟩, harg, rfl⟩ := List.mem_map.mp (h p.name (List.mem_map_of_mem hmem))
    exact ⟨value, harg⟩
  · refine List.forall_mem_map.mpr fun arg harg => ?_
    exact List.mem_map.mpr (h arg.1 arg.2 harg)
  · exact List.mem_map.mp (h name (List.mem_map_of_mem harg))

/-- A step has no wrong argument exactly if its arguments are those that are taken. -/
theorem argumentsOfStep_eq_nil_iff :
    argumentsOfStep program step = [] ↔ step.action.Supplies program := by
  obtain ⟨label, action⟩ := step
  cases action with
  | call target args result =>
    simp only [argumentsOfStep, Step.action, Action.Supplies, ← Program.find?_eq_some_iff]
    cases program.find? (·.name == target) with
    | none => exact iff_of_true rfl fun callee h => by cases h
    | some callee =>
      rw [argumentIssues_eq_nil_iff, ← takes_iff]
      exact ⟨fun h v hv => Option.some.inj hv ▸ h, fun h => h callee rfl⟩
  | _ => simp only [argumentsOfStep, Step.action, Action.Supplies]

/-! ## Whole programs -/

/-- Going through all steps reports nothing exactly if no step at a path is reported. -/
theorem flatMap_walk_eq_nil_iff {report : Subworkflow String → NamedStep → List Issue} :
    (program.flatMap fun w => w.walk.flatMap (report w)) = [] ↔
      ∀ w ∈ program, ∀ path step, Step.at? w.steps path = some step → report w step = [] := by
  simp only [List.flatMap_eq_nil_iff, Subworkflow.walk, Step.mem_walkAll_iff]
  exact ⟨fun h w hw path step hat => h w hw step ⟨path, hat⟩,
    fun h w hw step ⟨path, hat⟩ => h w hw path step hat⟩

theorem emptyNames_eq_nil_iff {index : Nat} :
    emptyNames index program = [] ↔ ∀ w ∈ program, w.name ≠ "" := by
  induction program generalizing index with
  | nil => exact iff_of_true rfl (List.forall_mem_nil _)
  | cons w rest ih =>
    rw [emptyNames, List.forall_mem_cons]
    by_cases hname : w.name = ""
    · simp [hname]
    · simp [hname, ih]

/-- A check reports nothing exactly if its condition holds. -/
theorem run_eq_nil_iff (check : Check) (program : Program String) :
    check.run program = [] ↔ check.Condition program := by
  cases check with
  | workflowNames => exact emptyNames_eq_nil_iff
  | stepNames =>
    simp only [run, Condition, repeatedSteps, List.flatMap_eq_nil_iff, List.map_eq_nil_iff,
      repeatedNames_eq_nil_iff, Subworkflow.stepNames, Subworkflow.walk, Step.nodup_labels_iff]
  | subworkflowNames =>
    rw [run, repeatedSubworkflows, List.map_eq_nil_iff, repeatedNames_eq_nil_iff, List.Nodup,
      List.pairwise_map]
    rfl
  | jumpTargets =>
    simp only [run, Condition, missingTargets, flatMap_walk_eq_nil_iff, missingOfStep_eq_nil_iff]
  | callArguments =>
    simp only [run, Condition, wrongArguments, flatMap_walk_eq_nil_iff, argumentsOfStep_eq_nil_iff]

end Check

/-- Validation accepts exactly the programs that meet the conditions of all checks that are not
disabled. -/
theorem validate_accepts (disabled : List Check) (program : Program String) :
    validate disabled program = .ok () ↔
      ∀ check : Check, check ∉ disabled → check.Condition program := by
  rw [validate_eq_ok_iff]
  simp only [Check.run_eq_nil_iff]

end Workflow
