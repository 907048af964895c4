import Workflow.Proofs.Document.References
import Workflow.Proofs.Program.Jumps

/-!
# Jumps inside compiled documents

A step of a document goes on at the target under `next`, and so do the cases of a switch. A target
resolves if it is the end, a step of the same subworkflow or, for a step in the body of a loop, the
loop itself. In a compiled document all targets resolve exactly if no `break` and no `continue` of
the text stands outside loops, which is not checked.
-/

namespace Workflow

namespace Document

/-- The cases of a step that is a switch. -/
def cases (step : Document) : List Document :=
  match step.field? "switch" with
  | some (.array items) => items
  | _ => []

/-- The targets at which a step or one of its cases goes on. -/
def nexts (step : Document) : List Document :=
  (step.field? "next").toList ++ step.cases.filterMap (·.field? "next")

/-- The loop of a step, be it parallel or not. -/
def loop? (step : Document) : Option Document :=
  (step.field? "for").or ((step.field? "parallel").bind (·.field? "for"))

/-- The steps inside the loop of a step, at any depth. -/
def loopEntries (step : Document) : List (String × Document) :=
  match step.loop? with
  | some loop => loop.entries
  | none => []

/-- A step is nested inside the body of a loop of a subworkflow. -/
def InLoop (body : Document) (entry : String × Document) : Prop :=
  ∃ other ∈ body.entries, entry ∈ other.2.loopEntries

/-- A target of a step of a subworkflow is somewhere to go: the end, a step of the subworkflow or,
inside a loop, the next round or the end of it. -/
def Resolves (body : Document) (entry : String × Document) (target : Document) : Prop :=
  target = .string "end" ∨ (∃ name ∈ Fields.names body.entries, target = .string name) ∨
    (target = .string "break" ∨ target = .string "continue") ∧ body.InLoop entry

/-- Every target in the document of a subworkflow is somewhere to go. -/
def JumpsResolve (body : Document) : Prop :=
  ∀ entry ∈ body.entries, ∀ target ∈ entry.2.nexts, body.Resolves entry target

end Document

/-! ## Steps -/

/-- The targets at which a step goes on. -/
def Action.targets {α : Type} : Action α → List String
  | .next target => [target]
  | .return none => ["end"]
  | .switch cases target => target.toList ++ cases.filterMap Case.next
  | _ => []

theorem Case.field?_next {condition : Document} {body : List NamedStep} {next : Option String} :
    (Document.object (("condition", condition) ::
      (if body.isEmpty then [] else [("steps", .array (Step.toDocuments body))]) ++
      Fields.optional "next" (next.map .string))).field? "next" = next.map .string := by
  cases body with
  | nil =>
    cases next with
    | none => rfl
    | some target => rfl
  | cons step rest =>
    cases next with
    | none => rfl
    | some target => rfl

theorem Case.filterMap_toDocuments (cases : List (Case String)) :
    (Case.toDocuments cases).filterMap (·.field? "next") =
      (cases.filterMap Case.next).map .string := by
  induction cases with
  | nil => rfl
  | cons case rest ih =>
    obtain ⟨condition, body, next⟩ := case
    rw [Case.toDocuments, List.filterMap_cons, Case.field?_next, ih]
    cases next with
    | none => rfl
    | some target => rfl

theorem Action.nexts_fields (action : Action String) :
    (Document.object action.fields).nexts = action.targets.map .string := by
  cases action with
  | «return» value =>
    cases value with
    | none => rfl
    | some e => rfl
  | switch cases target =>
    rw [Document.nexts, Action.targets, List.map_append, ← Case.filterMap_toDocuments]
    cases target with
    | none => rfl
    | some target => rfl
  | attempt body retry errorName handler =>
    cases retry <;> cases errorName <;> cases handler <;> rfl
  | call target args result =>
    cases args <;> cases result <;> rfl
  | _ => rfl

/-- A field behind the options of a parallel step. -/
theorem field?_options (options : ParallelOptions) {name : String} (value : Document)
    (h : name = "for" ∨ name = "branches") :
    (Document.object (options.fields ++ [(name, value)])).field? "for" =
      if name = "for" then some value else none := by
  obtain ⟨shared, limit, policy⟩ := options
  rcases h with rfl | rfl <;> cases shared <;> cases limit <;> cases policy <;> rfl

/-- The loop of a step is written out if it is one. -/
theorem Step.loop?_entry (step : NamedStep) :
    step.entry.2.loop? = step.loopHead?.map fun head =>
      .object (head.fields ++ [("steps", .array (Step.toDocuments step.loopBody))]) := by
  obtain ⟨label, action⟩ := step
  cases action with
  | parallelLoop options head body => exact field?_options options _ (.inl rfl)
  | branches options rows => exact field?_options options _ (.inr rfl)
  | call target args result => cases args <;> cases result <;> rfl
  | «return» value =>
    cases value with
    | none => rfl
    | some e => rfl
  | switch cases target =>
    cases target with
    | none => rfl
    | some target => rfl
  | attempt body retry errorName handler =>
    cases retry <;> cases errorName <;> cases handler <;> rfl
  | _ => rfl

theorem Step.loopEntries_entry (step : NamedStep)
    (h : ∀ inner ∈ Step.walkAll step.loopBody, inner.action.NamesErrors) :
    step.entry.2.loopEntries = (Step.walkAll step.loopBody).map Step.entry := by
  rw [Document.loopEntries, step.loop?_entry]
  cases hhead : step.loopHead? with
  | none =>
    rw [Step.loopBody_eq_nil hhead, Step.walkAll]
    rfl
  | some head => exact (entries_loop head _).trans (Step.stepEntries_toDocuments _ h)

/-! ## Subworkflows -/

section

variable {w : Subworkflow String}

/-- The steps in loops of a document are those in loops of the subworkflow. -/
theorem Subworkflow.inLoop_iff (h : ∀ step ∈ w.walk, step.action.NamesErrors)
    {entry : String × Document} :
    w.toDocument.InLoop entry ↔
      ∃ loop ∈ w.walk, ∃ step ∈ Step.walkAll loop.loopBody, step.entry = entry := by
  have hinside {loop : NamedStep} (hloop : loop ∈ w.walk) :
      loop.entry.2.loopEntries = (Step.walkAll loop.loopBody).map Step.entry :=
    loop.loopEntries_entry fun inner hinner =>
      h inner (Step.mem_walkAll_of_loopBody hloop hinner)
  rw [Document.InLoop, Subworkflow.entries_toDocument h]
  constructor
  · rintro ⟨other, hother, hentry⟩
    obtain ⟨loop, hloop, rfl⟩ := List.mem_map.mp hother
    rw [hinside hloop] at hentry
    obtain ⟨step, hstep, rfl⟩ := List.mem_map.mp hentry
    exact ⟨loop, hloop, step, hstep, rfl⟩
  · rintro ⟨loop, hloop, step, hstep, rfl⟩
    refine ⟨loop.entry, List.mem_map_of_mem hloop, ?_⟩
    rw [hinside hloop]
    exact List.mem_map_of_mem hstep

/-- A target of a step that is built: the end, or a jump. -/
theorem Action.Formed.target {action : Action String} (h : action.Formed) {target : String}
    (htarget : target ∈ action.targets) :
    target = "end" ∨ (target = "break" ∨ target = "continue") ∧ action = .next target := by
  cases action with
  | next jump =>
    rw [Action.targets, List.mem_singleton] at htarget
    subst htarget
    exact .inr ⟨h, rfl⟩
  | «return» value =>
    cases value with
    | none => exact .inl (List.mem_singleton.mp htarget)
    | some e => cases htarget
  | switch cases next =>
    obtain ⟨_, rfl, hcases⟩ := h
    have hnone : cases.filterMap Case.next = [] := List.filterMap_eq_nil_iff.mpr hcases
    rw [Action.targets, hnone] at htarget
    cases htarget
  | _ => cases htarget

/-- A name with a number in it is no jump. -/
theorem numberedName_ne_jump (kind : String) (n : Nat) {jump : String}
    (h : jump = "break" ∨ jump = "continue") : numberedName kind n ≠ jump := by
  rintro rfl
  have hall : ["break", "continue"].all (·.toList.all fun d => !Decimal.isDigit d) = true := by
    decide
  have hdigits := List.all_eq_true.mp
    (List.all_eq_true.mp hall (numberedName kind n) (by simpa using h))
  obtain ⟨d, hmem⟩ := List.exists_mem_of_ne_nil (Decimal.toDigits n) Nat.toDigits_ne_nil
  have hdigit := hdigits d (by simp [numberedName, Decimal.natText, hmem])
  rw [Numeral.isDigit_of_mem_toDigits hmem] at hdigit
  cases hdigit

/-- The targets of a subworkflow are somewhere to go if its jumps are all inside loops. -/
theorem Subworkflow.jumpsResolve_of_looseJumps (hformed : w.Formed)
    (h : Step.looseJumps w.steps = []) : w.toDocument.JumpsResolve := by
  have herrors : ∀ step ∈ w.walk, step.action.NamesErrors :=
    fun step hstep => (hformed.steps step hstep).namesErrors
  intro entry hentry target htarget
  rw [Subworkflow.entries_toDocument herrors] at hentry
  obtain ⟨step, hstep, rfl⟩ := List.mem_map.mp hentry
  rw [Step.entry, step.action.nexts_fields] at htarget
  obtain ⟨name, hname, rfl⟩ := List.mem_map.mp htarget
  rcases (hformed.steps step hstep).target hname with rfl | ⟨hjump, haction⟩
  · exact .inl rfl
  · refine .inr (.inr ⟨hjump.imp (congrArg _) (congrArg _), ?_⟩)
    rw [Subworkflow.inLoop_iff herrors]
    -- the step is a jump, and there is none outside loops
    rcases Step.mem_walkAll_iff_outside.mp hstep with houtside | ⟨loop, hloop, hinner⟩
    · have hnone := List.filterMap_eq_nil_iff.mp h step houtside
      obtain ⟨label, action⟩ := step
      rw [show action = .next name from haction] at hnone
      cases hnone
    · exact ⟨loop, Step.mem_walkAll_iff_outside.mpr (.inl hloop), step, hinner, rfl⟩

/-- A jump outside loops is nowhere to go, as steps have other names and differ in them. -/
theorem Subworkflow.looseJumps_of_jumpsResolve (hformed : w.Formed) (hnodup : w.stepNames.Nodup)
    (hnames : ∀ step ∈ w.walk, ∃ n, step.label = numberedName step.action.kind n)
    (h : w.toDocument.JumpsResolve) : Step.looseJumps w.steps = [] := by
  have herrors : ∀ step ∈ w.walk, step.action.NamesErrors :=
    fun step hstep => (hformed.steps step hstep).namesErrors
  refine List.filterMap_eq_nil_iff.mpr fun step houtside => ?_
  have hstep : step ∈ w.walk := Step.mem_walkAll_iff_outside.mpr (.inl houtside)
  cases hjump : step.jump? with
  | none => rfl
  | some target =>
    have haction : step.action = .next target := by
      obtain ⟨label, action⟩ := step
      cases action with
      | next jump =>
        cases hjump
        rfl
      | _ => cases hjump
    have htarget : target = "break" ∨ target = "continue" := by
      have hstepFormed := hformed.steps step hstep
      rw [haction] at hstepFormed
      exact hstepFormed
    have hentry : step.entry ∈ w.toDocument.entries := by
      rw [Subworkflow.entries_toDocument herrors]
      exact List.mem_map_of_mem hstep
    have hnext : Document.string target ∈ step.entry.2.nexts := by
      rw [Step.entry, step.action.nexts_fields, haction]
      exact List.mem_cons_self
    rcases h step.entry hentry _ hnext with hend | ⟨name, hname, heq⟩ | ⟨_, hloop⟩
    · cases hend
      rcases htarget with heq | heq <;> exact absurd heq (by decide)
    · rw [Subworkflow.entries_toDocument herrors, Fields.names, List.map_map] at hname
      obtain ⟨other, hother, rfl⟩ := List.mem_map.mp hname
      obtain ⟨n, hlabel⟩ := hnames other hother
      cases heq
      exact absurd hlabel.symm (numberedName_ne_jump _ n htarget)
    · obtain ⟨loop, hloop, inner, hinner, heq⟩ := (Subworkflow.inLoop_iff herrors).mp hloop
      have hlabel : inner.label = step.label := (Prod.mk.inj heq).1
      exact absurd hlabel.symm (Step.label_ne_of_outside hnodup houtside hloop hinner)

end

/-! ## Documents -/

theorem Node.looseJumps_eq_nil_iff {tree : Node} : tree.looseJumps = [] ↔
    ∀ n ∈ tree.outsideLoops, n.rule ≠ .breakStatement ∧ n.rule ≠ .continueStatement := by
  rw [Node.looseJumps, List.filterMap_eq_nil_iff]
  refine forall₂_congr fun n _ => ?_
  unfold Node.jump?
  cases n.rule with
  | _ => simp

/-- In a document that was compiled with all checks, every target is the end or a jump. All of them
are somewhere to go exactly if no `break` and no `continue` of the text stands outside loops. -/
theorem compile_jumpsResolve_iff (source : String) (tree : Node) (document : Document)
    (hparse : parse source = .ok tree) (h : compile [] source = .ok document) :
    (∀ field ∈ document.fields, ∀ entry ∈ field.2.entries, ∀ target ∈ entry.2.nexts,
      target = .string "end" ∨ target = .string "break" ∨ target = .string "continue") ∧
    ((∀ field ∈ document.fields, field.2.JumpsResolve) ↔
      ∀ n ∈ tree.outsideLoops, n.rule ≠ .breakStatement ∧ n.rule ≠ .continueStatement) := by
  obtain ⟨program, hbuild, hvalid, rfl⟩ := exists_program_of_compile h
  have hformed := formed_named (formed_of_build hbuild)
  have hchecks : ∀ check : Check, check.run program.named = [] :=
    fun check => validate_eq_ok_iff.mp hvalid check List.not_mem_nil
  have hdistinct : (program.named.map (·.name)).Nodup :=
    repeatedNames_eq_nil_iff.mp (List.map_eq_nil_iff.mp (hchecks .subworkflowNames))
  have hnodup : ∀ w ∈ program.named, w.stepNames.Nodup := fun w hw =>
    repeatedNames_eq_nil_iff.mp
      (List.map_eq_nil_iff.mp (List.flatMap_eq_nil_iff.mp (hchecks .stepNames) w hw))
  rw [Program.fields_toDocument hdistinct, List.forall_mem_map, List.forall_mem_map]
  constructor
  · intro w hw entry hentry target htarget
    rw [Subworkflow.entries_toDocument fun step hstep =>
      ((hformed w hw).steps step hstep).namesErrors] at hentry
    obtain ⟨step, hstep, rfl⟩ := List.mem_map.mp hentry
    rw [Step.entry, step.action.nexts_fields] at htarget
    obtain ⟨name, hname, rfl⟩ := List.mem_map.mp htarget
    exact (((hformed w hw).steps step hstep).target hname).imp (congrArg _)
      fun hjump => hjump.1.imp (congrArg _) (congrArg _)
  · have hbuilt : buildProgram tree = .ok program := by
      rw [build, hparse] at hbuild
      exact hbuild
    rw [← Node.looseJumps_eq_nil_iff, ← looseJumps_of_build hparse hbuilt, ← looseJumps_named,
      Program.looseJumps, List.flatMap_eq_nil_iff]
    refine forall₂_congr fun w hw => ⟨fun hresolve => ?_, fun hloose => ?_⟩
    · exact Subworkflow.looseJumps_of_jumpsResolve (hformed w hw) (hnodup w hw)
        (exists_label_named program w hw) hresolve
    · exact Subworkflow.jumpsResolve_of_looseJumps (hformed w hw) hloose

theorem mem_of_strings?_eq_some {items : List Document} {s : String}
    (h : Document.strings? items = some [s]) : Document.string s ∈ items := by
  cases items with
  | nil => cases h
  | cons item rest =>
    cases item with
    | string t =>
      obtain ⟨others, _, heq⟩ := Option.map_eq_some_iff.mp h
      cases heq
      exact List.mem_cons_self
    | _ => cases h

/-- Jumps inside a condition of a loop and inside an attempt of a parallel one. -/
theorem compile_jumpsResolve_iff_sample : ∃ (tree : Node) (document : Document),
    parse ("workflow main() \x7b for (i in x) \x7b if (i) \x7b break \x7d \x7d " ++
      "parallel for (j in x) \x7b try \x7b continue \x7d catch (e) \x7b return \x7d \x7d \x7d") =
        .ok tree ∧
    compile [] ("workflow main() \x7b for (i in x) \x7b if (i) \x7b break \x7d \x7d " ++
      "parallel for (j in x) \x7b try \x7b continue \x7d catch (e) \x7b return \x7d \x7d \x7d") =
        .ok document ∧
    (document.fields.map fun field => field.2.entries.map fun entry =>
      Document.strings? entry.2.nexts) =
        [[some [], some [], some ["break"], some [], some [], some ["continue"], some ["end"]]] ∧
    ∀ field ∈ document.fields, field.2.JumpsResolve := by
  generalize hsource : "workflow main() \x7b for (i in x) \x7b if (i) \x7b break \x7d \x7d " ++
    "parallel for (j in x) \x7b try \x7b continue \x7d catch (e) \x7b return \x7d \x7d \x7d" =
      source
  have hloose : (parse source).toOption.map Node.looseJumps = some [] := by
    rw [← hsource]
    decide +kernel
  have hnexts : (compile [] source).toOption.map (fun document =>
      document.fields.map fun field => field.2.entries.map fun entry =>
        Document.strings? entry.2.nexts) =
      some [[some [], some [], some ["break"], some [], some [], some ["continue"],
        some ["end"]]] := by
    rw [← hsource]
    decide +kernel
  obtain ⟨tree, htree, hloose⟩ := Option.map_eq_some_iff.mp hloose
  obtain ⟨document, hdocument, hnexts⟩ := Option.map_eq_some_iff.mp hnexts
  have hparse := eq_ok_of_toOption htree
  have hcompile := eq_ok_of_toOption hdocument
  exact ⟨tree, document, hparse, hcompile, hnexts,
    (compile_jumpsResolve_iff source tree document hparse hcompile).2.mpr
      (Node.looseJumps_eq_nil_iff.mp hloose)⟩

/-- A `break` outside loops passes all checks and is nowhere to go. -/
theorem exists_jump_not_resolves : ∃ document : Document,
    compile [] "workflow main() \x7b break \x7d" = .ok document ∧
      ∃ field ∈ document.fields, ¬ field.2.JumpsResolve := by
  have hcompile : (compile [] "workflow main() \x7b break \x7d").toOption.map (fun document =>
      document.fields.map fun field => field.2.entries.map fun entry =>
        (entry.1, Document.strings? entry.2.nexts, entry.2.loopEntries.isEmpty)) =
      some [[("next1", some ["break"], true)]] := by
    decide +kernel
  obtain ⟨document, hdocument, hfields⟩ := Option.map_eq_some_iff.mp hcompile
  obtain ⟨field, hfield, hentries⟩ := List.map_eq_singleton_iff.mp hfields
  obtain ⟨entry, hentry, heq⟩ := List.map_eq_singleton_iff.mp hentries
  obtain ⟨hname, heq⟩ := Prod.mk.inj heq
  obtain ⟨hnexts, hempty⟩ := Prod.mk.inj heq
  refine ⟨document, eq_ok_of_toOption hdocument, field, ?_, fun h => ?_⟩
  · rw [hfield]
    exact List.mem_singleton_self field
  · have hbreak : Document.string "break" ∈ entry.2.nexts := mem_of_strings?_eq_some hnexts
    rcases h entry (hentry ▸ List.mem_singleton_self entry) _ hbreak with
      hend | ⟨name, hmem, heq⟩ | ⟨_, other, hother, hinner⟩
    · exact absurd (Document.string.inj hend) (by decide)
    · rw [hentry, Fields.names, List.map_singleton, List.mem_singleton, hname] at hmem
      rw [hmem] at heq
      exact absurd (Document.string.inj heq) (by decide)
    · rw [hentry, List.mem_singleton] at hother
      rw [hother, List.isEmpty_iff.mp hempty] at hinner
      cases hinner

end Workflow
