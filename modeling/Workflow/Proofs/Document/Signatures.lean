import Workflow.Proofs.Check.Conditions
import Workflow.Proofs.Document.References

/-!
# Calls and the definitions in the document

Where several subworkflows have one name, calls are checked against the first of them, and the
document holds the last. A call that passes the check fits the document if everything that the last
definition requires is required by the first one, and everything that the first one lists is listed
by the last one. Otherwise some call passes the check and does not fit.
-/

namespace Workflow

/-- A subworkflow is the last one of a name. -/
def Program.IsLast (program : Program String) (name : String) (w : Subworkflow String) : Prop :=
  ∃ before after, program = before ++ w :: after ∧ w.name = name ∧ ∀ v ∈ after, v.name ≠ name

/-- Arguments give every parameter that a document lists without a default value, and nothing that
it does not list. -/
def Document.Accepts (d : Document) (args : List (String × Expr)) : Prop :=
  (∀ name ∈ d.plainParameters, ∃ value, (name, value) ∈ args) ∧
    ∀ name value, (name, value) ∈ args → name ∈ d.parameterNames

/-- A subworkflow requires all that another one requires and lists nothing that the other one does
not list. -/
def Subworkflow.Covers (w v : Subworkflow String) : Prop :=
  (∀ name ∈ v.requiredNames, name ∈ w.requiredNames) ∧ ∀ name ∈ w.paramNames, name ∈ v.paramNames

instance (w v : Subworkflow String) : Decidable (w.Covers v) := inferInstanceAs (Decidable (_ ∧ _))

/-! ## Definitions of one name -/

namespace Program

variable {program : Program String} {name : String} {w : Subworkflow String}

theorem IsLast.exists_isFirst (h : program.IsLast name w) :
    ∃ first, program.IsFirst name first := by
  obtain ⟨before, after, hprogram, hname, -⟩ := h
  have hsome : (program.find? (·.name == name)).isSome = true :=
    List.find?_isSome.mpr ⟨w, by simp [hprogram], beq_iff_eq.mpr hname⟩
  obtain ⟨first, hfirst⟩ := Option.isSome_iff_exists.mp hsome
  exact ⟨first, find?_eq_some_iff.mp hfirst⟩

/-- From the end of a program, the last subworkflow of a name is the first that is met. -/
theorem isFirst_reverse_iff : IsFirst program.reverse name w ↔ program.IsLast name w := by
  constructor
  · rintro ⟨after, before, hreverse, hname, hafter⟩
    refine ⟨before.reverse, after.reverse, ?_, hname, fun v hv => ?_⟩
    · rw [← List.reverse_reverse program, hreverse]
      simp
    · exact hafter v (List.mem_reverse.mp hv)
  · rintro ⟨before, after, rfl, hname, hafter⟩
    refine ⟨after.reverse, before.reverse, by simp, hname, fun v hv => ?_⟩
    exact hafter v (List.mem_reverse.mp hv)

theorem lookup_toDocument : (program.map fun w => (w.name, w.toDocument)).lookup name =
    (program.find? (·.name == name)).map Subworkflow.toDocument := by
  induction program with
  | nil => rfl
  | cons w rest ih =>
    rw [List.map_cons, List.lookup_cons, List.find?_cons, ih, Bool.beq_comm]
    cases w.name == name with
    | true => rfl
    | false => rfl

/-- The document holds the last definition of each name. -/
theorem mem_fields_toDocument_iff {entry : Document} :
    (name, entry) ∈ program.toDocument.fields ↔
      ∃ w, program.IsLast name w ∧ w.toDocument = entry := by
  rw [toDocument, Document.fields, ← Fields.lookup_eq_some_iff_mem (Fields.nodup_names_ofPairs _),
    Fields.lookup_ofPairs, ← List.map_reverse, lookup_toDocument, Option.map_eq_some_iff]
  simp only [find?_eq_some_iff, isFirst_reverse_iff]

end Program

/-! ## Arguments of two definitions -/

namespace Subworkflow

variable {w v : Subworkflow String} {args : List (String × Expr)}

theorem accepts_toDocument_iff : w.toDocument.Accepts args ↔ w.Takes args := by
  rw [Document.Accepts, w.plainParameters_toDocument, w.parameterNames_toDocument, Check.takes_iff]
  simp only [List.mem_map, Prod.exists, exists_and_right, exists_eq_right, forall_exists_index]

theorem mem_paramNames_of_mem_requiredNames {name : String} (h : name ∈ w.requiredNames) :
    name ∈ w.paramNames :=
  List.map_subset _ (List.filter_subset_self _) h

/-- One definition covers another exactly if all arguments that it takes are taken by the other. -/
theorem covers_iff : w.Covers v ↔ ∀ args, w.Takes args → v.Takes args := by
  simp only [Check.takes_iff]
  constructor
  · rintro ⟨hrequired, hlisted⟩ args ⟨hgiven, hknown⟩
    exact ⟨fun name hname => hgiven name (hrequired name hname),
      fun name hname => hlisted name (hknown name hname)⟩
  · intro h
    -- what is required at least, and all that is listed, with any values
    have hnames (names : List String) :
        (names.map fun name => (name, Expr.reference name)).map Prod.fst = names := by
      rw [List.map_map]
      exact List.map_id names
    have hleast := h (w.requiredNames.map fun name => (name, Expr.reference name))
    have hmost := h (w.paramNames.map fun name => (name, Expr.reference name))
    rw [hnames] at hleast hmost
    exact ⟨(hleast ⟨fun _ => id, fun _ => mem_paramNames_of_mem_requiredNames⟩).1,
      (hmost ⟨fun _ => mem_paramNames_of_mem_requiredNames, fun _ => id⟩).2⟩

end Subworkflow

/-- A call that is not reported gives what the first definition of its target takes. -/
theorem Check.argumentsOfStep_call_eq_nil_iff {program : Program String} {label target : String}
    {args : List (String × Expr)} {result : Option String} {first : Subworkflow String}
    (hfirst : program.IsFirst target first) :
    argumentsOfStep program (.mk label (.call target args result)) = [] ↔ first.Takes args := by
  rw [argumentsOfStep_eq_nil_iff]
  constructor
  · exact fun h => h first hfirst
  · intro h callee hcallee
    rw [← Program.find?_eq_some_iff] at hfirst hcallee
    rw [hfirst] at hcallee
    exact Option.some.inj hcallee ▸ h

/-- If no arguments are reported, each call of a subworkflow of the document gives what the first
definition of its target takes, while the document holds the last one. The call fits the document if
the first definition covers the last one, as it does where the name is defined once. This cannot be
left out: calls of a name that are not reported all fit the document only if it holds. -/
theorem unreported_calls_fit (program : Program String) (h : Check.wrongArguments program = []) :
    (∀ w ∈ program, ∀ path step, Step.at? w.steps path = some step →
      ∀ target args result, step.action = .call target args result →
        ∀ entry, (target, entry) ∈ program.toDocument.fields →
          ∃ first last, program.IsFirst target first ∧ program.IsLast target last ∧
            last.toDocument = entry ∧ first.Takes args ∧
            (first.Covers last → entry.Accepts args)) ∧
    ∀ target first last, program.IsFirst target first → program.IsLast target last →
      (first.Covers last ↔ ∀ label args result,
        Check.argumentsOfStep program (.mk label (.call target args result)) = [] →
          last.toDocument.Accepts args) := by
  refine ⟨fun w hw path step hat target args result haction entry hentry => ?_,
    fun target first last hfirst hlast => ?_⟩
  · obtain ⟨last, hlast, rfl⟩ := Program.mem_fields_toDocument_iff.mp hentry
    obtain ⟨first, hfirst⟩ := hlast.exists_isFirst
    have hsupplies := (Check.run_eq_nil_iff .callArguments program).mp h w hw path step hat
    rw [haction] at hsupplies
    have htakes : first.Takes args := hsupplies first hfirst
    refine ⟨first, last, hfirst, hlast, rfl, htakes, fun hcovers => ?_⟩
    exact Subworkflow.accepts_toDocument_iff.mpr (Subworkflow.covers_iff.mp hcovers args htakes)
  · simp only [Check.argumentsOfStep_call_eq_nil_iff hfirst, Subworkflow.accepts_toDocument_iff,
      Subworkflow.covers_iff]
    exact ⟨fun h _ args _ => h args, fun h args => h "" args none⟩

/-- A second definition gives the parameter a default value and has one more. -/
theorem unreported_calls_fit_sample : ∃ (program : Program String) (entry : Document),
    program.map Subworkflow.paramNames = [[], ["a"], ["a", "b"]] ∧
      Check.wrongArguments program = [] ∧ ("f", entry) ∈ program.toDocument.fields ∧
      entry.Accepts [("a", .reference "x")] := by
  let main : Subworkflow String :=
    ⟨"main", [], [.mk "call1" (.call "f" [("a", .reference "x")] none)]⟩
  let first : Subworkflow String := ⟨"f", [⟨"a", none⟩], []⟩
  let last : Subworkflow String := ⟨"f", [⟨"a", some .null⟩, ⟨"b", some .null⟩], []⟩
  have hunreported : Check.wrongArguments [main, first, last] = [] := by decide +kernel
  have hentry : ("f", last.toDocument) ∈ (Program.toDocument [main, first, last]).fields :=
    Program.mem_fields_toDocument_iff.mpr
      ⟨last, ⟨[main, first], [], rfl, rfl, List.forall_mem_nil _⟩, rfl⟩
  obtain ⟨first', last', hfirst, hlast, -, -, hfits⟩ :=
    (unreported_calls_fit [main, first, last] hunreported).1 main List.mem_cons_self [0] _
      Step.at?_first "f" _ none rfl last.toDocument hentry
  rw [← Program.find?_eq_some_iff] at hfirst
  rw [← Program.isFirst_reverse_iff, ← Program.find?_eq_some_iff] at hlast
  obtain rfl : first = first' := Option.some.inj hfirst
  obtain rfl : last = last' := Option.some.inj hlast
  exact ⟨[main, first, last], last.toDocument, rfl, hunreported, hentry,
    hfits (by decide)⟩

/-- A call gives the parameter of the first definition, and the document holds another one with
another parameter. -/
theorem exists_call_not_accepted : ∃ program : Program String,
    Check.wrongArguments program = [] ∧ ∃ w ∈ program, ∃ path step,
      Step.at? w.steps path = some step ∧ ∃ target args result,
        step.action = .call target args result ∧ ∃ entry,
          (target, entry) ∈ program.toDocument.fields ∧ ¬ entry.Accepts args := by
  let main : Subworkflow String :=
    ⟨"main", [], [.mk "call1" (.call "f" [("a", .reference "x")] none)]⟩
  let first : Subworkflow String := ⟨"f", [⟨"a", none⟩], []⟩
  let last : Subworkflow String := ⟨"f", [⟨"b", none⟩], []⟩
  refine ⟨[main, first, last], by decide +kernel, main, List.mem_cons_self, [0], _, Step.at?_first,
    "f", _, none, rfl, last.toDocument, Program.mem_fields_toDocument_iff.mpr
      ⟨last, ⟨[main, first], [], rfl, rfl, List.forall_mem_nil _⟩, rfl⟩, fun haccepts => ?_⟩
  obtain ⟨value, hvalue⟩ :=
    (Subworkflow.accepts_toDocument_iff.mp haccepts).1 ⟨"b", none⟩ List.mem_cons_self rfl
  simp at hvalue

end Workflow
