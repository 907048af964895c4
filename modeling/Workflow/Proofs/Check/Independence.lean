import Workflow.Proofs.Check.Acceptance
import Workflow.Proofs.Program.Built

/-!
# Checks are independent

A check reports issues of its own kind only and sees nothing of the other checks. Disabling checks
therefore takes their issues out of the report and leaves the others where they are, and it changes
nothing about the document of a program that is valid.
-/

namespace Workflow

/-- The issues that an outcome of validation reports, none of them if it is a success. -/
inductive Reports : Except Failure Unit → List Issue → Prop where
  | ok : Reports (.ok ()) []
  | invalid {issues : List Issue} (h : issues ≠ []) : Reports (.error (.invalid issues)) issues

theorem reports_validate (disabled : List Check) (program : Program String) :
    Reports (validate disabled program) (program.issues disabled) := by
  rw [validate]
  split
  · rename_i hnil
    rw [hnil]
    exact .ok
  · rename_i hne
    exact .invalid hne

/-! ## Kinds of issues -/

namespace Check

variable {program : Program String} {issue : Issue}

theorem check_of_mem_emptyNames {index : Nat} (h : issue ∈ emptyNames index program) :
    issue.check = .workflowNames := by
  induction program generalizing index with
  | nil => cases h
  | cons w rest ih =>
    rw [emptyNames] at h
    split at h
    · rcases List.mem_cons.mp h with rfl | h
      · rfl
      · exact ih h
    · exact ih h

theorem check_of_mem_missingOfStep {subworkflow : String} {stepNames subworkflowNames : List String}
    {step : NamedStep} (h : issue ∈ missingOfStep subworkflow stepNames subworkflowNames step) :
    issue.check = .jumpTargets := by
  obtain ⟨label, action⟩ := step
  cases action with
  | call target args result =>
    rw [missingOfStep, Step.action] at h
    dsimp only at h
    split at h
    · cases h
    · rw [List.mem_singleton.mp h]
      rfl
  | switch cases next =>
    obtain ⟨target, _, rfl⟩ := List.mem_map.mp h
    rfl
  | _ => cases h

theorem check_of_mem_argumentsOfStep {step : NamedStep} (h : issue ∈ argumentsOfStep program step) :
    issue.check = .callArguments := by
  obtain ⟨label, action⟩ := step
  cases action with
  | call target args result =>
    rw [argumentsOfStep, Step.action] at h
    dsimp only at h
    split at h
    · rcases List.mem_append.mp h with h | h
      · obtain ⟨param, _, rfl⟩ := List.mem_map.mp h
        rfl
      · obtain ⟨arg, _, rfl⟩ := List.mem_map.mp h
        rfl
    · cases h
  | _ => cases h

/-- A check reports issues of its own kind. -/
theorem check_of_mem_run {check : Check} (h : issue ∈ check.run program) : issue.check = check := by
  cases check with
  | workflowNames => exact check_of_mem_emptyNames h
  | stepNames =>
    obtain ⟨w, _, h⟩ := List.mem_flatMap.mp h
    obtain ⟨name, _, rfl⟩ := List.mem_map.mp h
    rfl
  | subworkflowNames =>
    obtain ⟨name, _, rfl⟩ := List.mem_map.mp h
    rfl
  | jumpTargets =>
    obtain ⟨w, _, h⟩ := List.mem_flatMap.mp h
    obtain ⟨step, _, h⟩ := List.mem_flatMap.mp h
    exact check_of_mem_missingOfStep h
  | callArguments =>
    obtain ⟨w, _, h⟩ := List.mem_flatMap.mp h
    obtain ⟨step, _, h⟩ := List.mem_flatMap.mp h
    exact check_of_mem_argumentsOfStep h

/-- Of the issues of a check, all stay if it is not disabled and none if it is. -/
theorem filter_run (disabled : List Check) (check : Check) (program : Program String) :
    (check.run program).filter (fun issue => issue.check ∉ disabled) =
      if check ∉ disabled then check.run program else [] := by
  split
  · rename_i hcheck
    refine List.filter_eq_self.mpr fun issue hissue => ?_
    rw [check_of_mem_run hissue]
    exact decide_eq_true hcheck
  · rename_i hcheck
    refine List.filter_eq_nil_iff.mpr fun issue hissue => ?_
    rw [check_of_mem_run hissue]
    simpa using hcheck

end Check

/-- Disabling checks takes out their issues and no others. -/
theorem Program.issues_eq_filter (disabled : List Check) (program : Program String) :
    program.issues disabled =
      (program.issues []).filter fun issue => issue.check ∉ disabled := by
  have hall : Check.all.filter (fun check => !([] : List Check).contains check) = Check.all := rfl
  rw [Program.issues, Program.issues, hall, List.filter_flatMap]
  simp only [Check.filter_run]
  induction Check.all with
  | nil => rfl
  | cons check rest ih =>
    rw [List.filter_cons, List.flatMap_cons, ← ih]
    by_cases hcheck : check ∈ disabled
    · simp [hcheck]
    · simp [hcheck]

/-! ## Documents -/

/-- A program stays valid if more checks are disabled. -/
theorem validate_mono {disabled disabled' : List Check} {program : Program String}
    (hsub : disabled ⊆ disabled') (h : validate disabled program = .ok ()) :
    validate disabled' program = .ok () := by
  rw [validate_eq_ok_iff] at h ⊢
  exact fun check hcheck => h check fun hmem => hcheck (hsub hmem)

theorem compile_of_build {disabled : List Check} {source : String} {program : Program Unit}
    (hbuild : build source = .ok program) (h : validate disabled program.named = .ok ()) :
    compile disabled source = .ok program.named.toDocument :=
  bind_eq_ok.mpr ⟨program, hbuild, bind_eq_ok.mpr ⟨(), h, rfl⟩⟩

/-- Which checks are disabled decides which issues are reported and nothing else: each outcome of
validation reports the issues of all checks less those of the disabled ones, in the same order; what
compiles still does, to the same document, if more checks are disabled; and a source text has no two
documents. -/
theorem compile_disabling :
    (∀ program : Program String, ∃ issues, Reports (validate [] program) issues ∧
      ∀ disabled : List Check, Reports (validate disabled program)
        (issues.filter fun issue => issue.check ∉ disabled)) ∧
    (∀ (source : String) (disabled disabled' : List Check) (document : Document),
      disabled ⊆ disabled' → compile disabled source = .ok document →
        compile disabled' source = .ok document) ∧
    ∀ (source : String) (disabled disabled' : List Check) (document document' : Document),
      compile disabled source = .ok document → compile disabled' source = .ok document' →
        document = document' := by
  refine ⟨fun program => ⟨program.issues [], reports_validate [] program, fun disabled => ?_⟩,
    fun source disabled disabled' document hsub h => ?_,
    fun source disabled disabled' document document' h h' => ?_⟩
  · rw [← program.issues_eq_filter disabled]
    exact reports_validate disabled program
  · obtain ⟨program, hbuild, hvalid, rfl⟩ := exists_program_of_compile h
    exact compile_of_build hbuild (validate_mono hsub hvalid)
  · obtain ⟨program, hbuild, _, rfl⟩ := exists_program_of_compile h
    obtain ⟨program', hbuild', _, rfl⟩ := exists_program_of_compile h'
    rw [hbuild] at hbuild'
    cases hbuild'
    rfl

/-- Two subworkflows of one name: refused, unless names of subworkflows are not checked. -/
theorem compile_disabling_sample :
    (compile [] "workflow w() \x7b return 1 \x7d workflow w() \x7b return 2 \x7d").toOption.isNone ∧
    ∃ document, compile [.subworkflowNames]
        "workflow w() \x7b return 1 \x7d workflow w() \x7b return 2 \x7d" = .ok document ∧
      compile [.jumpTargets, .subworkflowNames]
        "workflow w() \x7b return 1 \x7d workflow w() \x7b return 2 \x7d" = .ok document := by
  generalize hsource : "workflow w() \x7b return 1 \x7d workflow w() \x7b return 2 \x7d" = source
  have hrefused : (compile [] source).toOption.isNone = true := by
    rw [← hsource]
    decide +kernel
  have hcompile : (compile [.subworkflowNames] source).toOption.isSome = true := by
    rw [← hsource]
    decide +kernel
  obtain ⟨document, hdocument⟩ := Option.isSome_iff_exists.mp hcompile
  have hok := eq_ok_of_toOption hdocument
  exact ⟨hrefused, document, hok,
    compile_disabling.2.1 source _ _ document (List.subset_cons_self _ _) hok⟩

end Workflow
