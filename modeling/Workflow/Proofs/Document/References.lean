import Workflow.Proofs.Check.Acceptance
import Workflow.Proofs.Document.Entries
import Workflow.Proofs.Fields

/-!
# References inside compiled programs

In the document of a program that passed all checks, a call goes to a function of a library or to
something that the document holds, and the arguments fit the parameters that the document lists.
-/

namespace Workflow

namespace Document

/-- The fields of an object. -/
def fields : Document → Fields Document
  | .object fields => fields
  | _ => []

/-- The value of a field. -/
def field? (d : Document) (name : String) : Option Document := d.fields.lookup name

/-- The documents of the parameters of a subworkflow. -/
def parameters (d : Document) : List Document :=
  match d.field? "params" with
  | some (.array items) => items
  | _ => []

/-- The names of the parameters that are written as plain strings. -/
def plainParameters (d : Document) : List String :=
  d.parameters.filterMap fun
    | .string name => some name
    | _ => none

/-- The names of all parameters. -/
def parameterNames (d : Document) : List String :=
  d.parameters.flatMap fun
    | .string name => [name]
    | p => p.fields.names

/-- The names of the arguments of a step. -/
def argumentNames (d : Document) : List String :=
  ((d.field? "args").map fun args => args.fields.names).getD []

end Document

/-! ## Parameters -/

theorem Subworkflow.parameters_toDocument (w : Subworkflow String) :
    w.toDocument.parameters = w.params.map Parameter.toDocument := by
  obtain ⟨name, params, steps⟩ := w
  cases params with
  | nil => rfl
  | cons p rest => rfl

theorem Subworkflow.plainParameters_toDocument (w : Subworkflow String) :
    w.toDocument.plainParameters = w.requiredNames := by
  rw [Document.plainParameters, w.parameters_toDocument, Subworkflow.requiredNames]
  induction w.params with
  | nil => rfl
  | cons p rest ih =>
    obtain ⟨name, default⟩ := p
    cases default with
    | none => simpa [Parameter.toDocument] using ih
    | some value => simpa [Parameter.toDocument, Document.single] using ih

theorem Subworkflow.parameterNames_toDocument (w : Subworkflow String) :
    w.toDocument.parameterNames = w.paramNames := by
  rw [Document.parameterNames, w.parameters_toDocument, Subworkflow.paramNames]
  induction w.params with
  | nil => rfl
  | cons p rest ih =>
    obtain ⟨name, default⟩ := p
    cases default with
    | none => simpa [Parameter.toDocument] using ih
    | some value =>
      simpa [Parameter.toDocument, Document.single, Document.fields, Fields.names] using ih

/-! ## Calls -/

/-- Only a call has a field for its target. -/
theorem Action.exists_call {action : Action String} {d : Document}
    (h : (Document.object action.fields).field? "call" = some d) :
    ∃ target args result, action = .call target args result ∧ d = .string target := by
  rw [Document.field?, Document.fields] at h
  cases action with
  | call target args result =>
    cases h
    exact ⟨target, args, result, rfl, rfl⟩
  | «return» value =>
    cases value with
    | none => cases h
    | some e => cases h
  | switch cases next =>
    cases next with
    | none => cases h
    | some target => cases h
  | attempt body retry errorName handler =>
    -- a retry and a handler may be there or not
    cases retry <;> cases errorName <;> cases handler <;> cases h
  | _ => cases h

theorem argumentNames_call {target : String} {args : List (String × Expr)} {result : Option String}
    (h : (args.map Prod.fst).Nodup) :
    (Document.object (Action.call target args result).fields).argumentNames =
      args.map Prod.fst := by
  have hnames : Fields.names (args.map fun a => (a.1, a.2.toDocument)) = args.map Prod.fst :=
    Fields.names_map Expr.toDocument args
  cases args with
  | nil =>
    cases result with
    | none => rfl
    | some name => rfl
  | cons arg rest =>
    have hsame := Fields.ofPairs_of_nodup (hnames ▸ h)
    rw [← hnames]
    exact congrArg Fields.names hsame

/-! ## Documents -/

/-- Where names differ, the fields of a document are the subworkflows in order. -/
theorem Program.fields_toDocument {program : Program String}
    (h : (program.map (·.name)).Nodup) :
    program.toDocument.fields = program.map fun w => (w.name, w.toDocument) := by
  have hnames : Fields.names (program.map fun w => (w.name, w.toDocument)) =
      program.map (·.name) := by
    rw [Fields.names, List.map_map]
    rfl
  exact Fields.ofPairs_of_nodup (hnames ▸ h)

/-- Calls in a document that was compiled with all checks go somewhere: to a name with a dot, to a
subworkflow of the document, or to a step of the subworkflow around them. A call of a subworkflow
gives every parameter that is a plain string, and nothing that is not a parameter. -/
theorem compile_references {source : String} {document : Document}
    (h : compile [] source = .ok document) :
    ∀ caller body, (caller, body) ∈ document.fields →
      ∀ name step, (name, step) ∈ body.entries → ∀ d, step.field? "call" = some d →
        ∃ target, d = .string target ∧
          ('.' ∈ target.toList ∨ target ∈ document.fields.names ∨
            target ∈ Fields.names body.entries) ∧
          ∀ callee, (target, callee) ∈ document.fields →
            (∀ param ∈ callee.plainParameters, param ∈ step.argumentNames) ∧
              ∀ arg ∈ step.argumentNames, arg ∈ callee.parameterNames := by
  obtain ⟨program, hbuild, hvalid, rfl⟩ := exists_program_of_compile h
  have hformed := formed_named (formed_of_build hbuild)
  have hchecks : ∀ check : Check, check.run program.named = [] :=
    fun check => validate_eq_ok_iff.mp hvalid check List.not_mem_nil
  have hdistinct : (program.named.map (·.name)).Nodup :=
    repeatedNames_eq_nil_iff.mp (List.map_eq_nil_iff.mp (hchecks .subworkflowNames))
  rw [Program.fields_toDocument hdistinct]
  intro caller body hbody name step hstep d hd
  obtain ⟨w, hw, hpair⟩ := List.mem_map.mp hbody
  cases hpair
  -- the entry is a step of the walk, and it calls
  have hentries := Subworkflow.entries_toDocument
    fun step hstep => ((hformed w hw).steps step hstep).namesErrors
  rw [hentries] at hstep ⊢
  obtain ⟨inner, hinner, hentry⟩ := List.mem_map.mp hstep
  cases hentry
  obtain ⟨target, args, result, haction, rfl⟩ := Action.exists_call hd
  have hcall := (hformed w hw).steps inner hinner
  rw [haction] at hcall ⊢
  rw [argumentNames_call hcall.2.1]
  refine ⟨target, rfl, ?_, ?_⟩
  · rcases Check.mem_of_missingTargets_eq_nil (hchecks .jumpTargets) hw hinner haction with
      hdot | hown | hother
    · exact .inl hdot
    · refine .inr (.inr ?_)
      rw [Fields.names, List.map_map]
      exact hown
    · refine .inr (.inl ?_)
      rw [Fields.names, List.map_map]
      exact hother
  · intro callee hcallee
    obtain ⟨v, hv, hpair⟩ := List.mem_map.mp hcallee
    cases hpair
    rw [v.plainParameters_toDocument, v.parameterNames_toDocument]
    exact Check.arguments_of_wrongArguments_eq_nil (hchecks .callArguments) hw hinner haction
      (find?_name hdistinct hv)

/-- A call inside a condition, of a subworkflow with a default value that the call leaves out. -/
theorem compile_references_sample : ∃ document caller body name step callee,
    compile [] ("workflow v() \x7b if (x) \x7b w(a = 1) \x7d \x7d " ++
      "workflow w(a, b = 2) \x7b return a \x7d") = .ok document ∧
      (caller, body) ∈ document.fields ∧ (name, step) ∈ body.entries ∧
      step.field? "call" = some (.string "w") ∧ ("w", callee) ∈ document.fields ∧
      callee.plainParameters = ["a"] ∧ (∀ param ∈ callee.plainParameters,
        param ∈ step.argumentNames) ∧ ∀ arg ∈ step.argumentNames, arg ∈ callee.parameterNames := by
  generalize hsource : "workflow v() \x7b if (x) \x7b w(a = 1) \x7d \x7d " ++
    "workflow w(a, b = 2) \x7b return a \x7d" = source
  have hcompile : (compile [] source).toOption.map (fun d => d.fields.map fun f =>
      (f.1, f.2.plainParameters, f.2.entries.map fun e =>
        Document.strings? (e.2.field? "call").toList)) =
      some [("v", [], [some [], some ["w"]]), ("w", ["a"], [some []])] := by
    rw [← hsource]
    decide +kernel
  obtain ⟨document, hdocument, hfields⟩ := Option.map_eq_some_iff.mp hcompile
  obtain ⟨⟨caller, body⟩, others, hdoc, hbody, hothers⟩ := List.map_eq_cons_iff.mp hfields
  obtain ⟨⟨target, callee⟩, _, rfl, hcallee, _⟩ := List.map_eq_cons_iff.mp hothers
  obtain ⟨rfl, hcallee⟩ := Prod.mk.inj hcallee
  have hplain := (Prod.mk.inj hcallee).1
  have hentries := (Prod.mk.inj (Prod.mk.inj hbody).2).2
  obtain ⟨_, calls, hbodyentries, _, hcalls⟩ := List.map_eq_cons_iff.mp hentries
  obtain ⟨⟨name, step⟩, _, rfl, hcall, _⟩ := List.map_eq_cons_iff.mp hcalls
  have hcompiled := eq_ok_of_toOption hdocument
  have hcaller : (caller, body) ∈ document.fields := by
    rw [hdoc]
    exact List.mem_cons_self
  have htarget : ("w", callee) ∈ document.fields := by
    rw [hdoc]
    exact List.mem_cons_of_mem _ List.mem_cons_self
  have hstep : (name, step) ∈ body.entries := by
    rw [hbodyentries]
    exact List.mem_cons_of_mem _ List.mem_cons_self
  have hfield : step.field? "call" = some (.string "w") := by
    cases hd : step.field? "call" with
    | none =>
      rw [hd] at hcall
      cases hcall
    | some d =>
      rw [hd] at hcall
      cases d with
      | string s =>
        cases hcall
        rfl
      | _ => cases hcall
  obtain ⟨target, heq, _, harguments⟩ :=
    compile_references hcompiled caller body hcaller name step hstep _ hfield
  cases heq
  exact ⟨document, caller, body, name, step, callee, hcompiled, hcaller, hstep, hfield, htarget,
    hplain, harguments callee htarget⟩

end Workflow
