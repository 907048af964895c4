import Workflow.Compile
import Workflow.Proofs.Program.Numbering

/-!
# Programs that pass the checks

A check reports nothing exactly if its condition holds: no name is repeated, every call goes
somewhere, and every call of a subworkflow gives what it needs and nothing else.
-/

namespace Workflow

theorem Check.mem_all (check : Check) : check ∈ Check.all := by
  cases check with
  | _ => decide

/-- A program is valid if every check that is not disabled reports nothing. -/
theorem validate_eq_ok_iff {disabled : List Check} {program : Program String} :
    validate disabled program = .ok () ↔
      ∀ check : Check, check ∉ disabled → check.run program = [] := by
  have hissues : validate disabled program = .ok () ↔ program.issues disabled = [] := by
    rw [validate]
    split
    · rename_i hnil
      exact iff_of_true rfl hnil
    · rename_i hne
      constructor
      · intro h
        cases h
      · exact fun h => absurd h hne
  rw [hissues, Program.issues, List.flatMap_eq_nil_iff]
  simp only [List.mem_filter, Bool.not_eq_true', List.contains_eq_mem, decide_eq_false_iff_not]
  constructor
  · exact fun h check hcheck => h check ⟨check.mem_all, hcheck⟩
  · exact fun h check hcheck => h check hcheck.2

theorem repeatedNames_eq_nil_iff {names : List String} :
    repeatedNames names = [] ↔ names.Nodup := by
  refine ⟨fun h => List.nodup_iff_count_le_one.mpr fun name => ?_, repeatedNames_of_nodup⟩
  by_cases hmem : name ∈ names
  · have hnot := List.filter_eq_nil_iff.mp h name (List.mem_eraseDups.mpr hmem)
    simpa using hnot
  · rw [List.count_eq_zero_of_not_mem hmem]
    exact Nat.zero_le 1

theorem mem_sortedDistinct {name : String} {names : List String} :
    name ∈ sortedDistinct names ↔ name ∈ names := by
  rw [sortedDistinct, List.mem_mergeSort, List.mem_eraseDups]

namespace Check

theorem argumentIssues_eq_nil_iff {callee : Subworkflow String} {args : List String}
    {target step : String} : argumentIssues callee args target step = [] ↔
      (∀ param ∈ callee.requiredNames, param ∈ args) ∧ ∀ arg ∈ args, arg ∈ callee.paramNames := by
  simp [argumentIssues, List.filter_eq_nil_iff, mem_sortedDistinct]

variable {program : Program String} {w : Subworkflow String} {step : NamedStep} {target : String}
  {args : List (String × Expr)} {result : Option String}

/-- If no target is missing, a call goes to a function, a step or a subworkflow. -/
theorem mem_of_missingTargets_eq_nil (h : missingTargets program = []) (hw : w ∈ program)
    (hstep : step ∈ w.walk) (haction : step.action = .call target args result) :
    '.' ∈ target.toList ∨ target ∈ w.stepNames ∨ target ∈ program.map (·.name) := by
  have hnone := List.flatMap_eq_nil_iff.mp (List.flatMap_eq_nil_iff.mp h w hw) step hstep
  rw [missingOfStep, haction] at hnone
  dsimp only at hnone
  split at hnone
  · rename_i htarget
    simpa [isCallTarget, or_assoc] using htarget
  · cases hnone

/-- If no arguments are wrong, a call of a subworkflow gives what is required and no more than is
known. -/
theorem arguments_of_wrongArguments_eq_nil (h : wrongArguments program = []) (hw : w ∈ program)
    (hstep : step ∈ w.walk) (haction : step.action = .call target args result)
    {callee : Subworkflow String} (hcallee : program.find? (·.name == target) = some callee) :
    (∀ param ∈ callee.requiredNames, param ∈ args.map Prod.fst) ∧
      ∀ arg ∈ args.map Prod.fst, arg ∈ callee.paramNames := by
  have hnone := List.flatMap_eq_nil_iff.mp (List.flatMap_eq_nil_iff.mp h w hw) step hstep
  rw [argumentsOfStep, haction] at hnone
  dsimp only at hnone
  rw [hcallee] at hnone
  exact argumentIssues_eq_nil_iff.mp hnone

end Check

/-- Where names differ, a subworkflow is found under its name. -/
theorem find?_name {program : Program String} (h : (program.map (·.name)).Nodup)
    {w : Subworkflow String} (hw : w ∈ program) : program.find? (·.name == w.name) = some w := by
  induction program with
  | nil => cases hw
  | cons v rest ih =>
    rw [List.map_cons, List.nodup_cons] at h
    rcases List.mem_cons.mp hw with rfl | hrest
    · rw [List.find?_cons_of_pos (by simp)]
    · have hne : v.name ≠ w.name := fun heq => h.1 (heq ▸ List.mem_map_of_mem hrest)
      rw [List.find?_cons_of_neg (by simpa using hne), ih h.2 hrest]

end Workflow
