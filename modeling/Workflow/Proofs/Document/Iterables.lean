import Workflow.Proofs.Document.Jumps
import Workflow.Proofs.Expr.Lowering

/-!
# What loops run over

In a compiled document the loops of a subworkflow run over the expressions of its loops, lowered,
in the order of the steps. A literal that is no list is refused, so that such a value is a list or
a text that is evaluated later, with one exception: a map with an entry that is not literal passes
the check and stays an object.
-/

namespace Workflow

namespace Document

/-- What the loops in the document of a subworkflow run over, at any depth. -/
def iterables (body : Document) : List Document :=
  body.entries.filterMap fun entry => entry.2.loop?.bind (·.field? "in")

/-- A value is a list, or a text that is evaluated later. -/
def Iterates : Document → Prop
  | .array _ => True
  | .string text => ∃ inner, text = "$\x7b" ++ inner ++ "\x7d"
  | _ => False

end Document

/-! ## Loops of subworkflows -/

/-- The expression that a loop runs over, if it does not run over a range. -/
def LoopHead.items? (head : LoopHead) : Option Expr :=
  match head.iterable with
  | .items e => some e
  | .range _ _ => none

section

variable {α : Type}

/-- The expressions that the loops of a subworkflow run over, at any depth. -/
def Subworkflow.iterables (w : Subworkflow α) : List Expr :=
  w.walk.filterMap fun step => step.loopHead?.bind LoopHead.items?

/-- The last subworkflow of a name. -/
def Program.last? (program : Program α) (name : String) : Option (Subworkflow α) :=
  program.reverse.find? fun w => name == w.name

/-- A loop that is built runs over items that are not a literal without items. -/
theorem Subworkflow.Formed.isIterable {w : Subworkflow α} (h : w.Formed) :
    ∀ e ∈ w.iterables, e.IsIterable := by
  intro e he
  obtain ⟨step, hstep, hitems⟩ := List.mem_filterMap.mp he
  obtain ⟨head, hhead, hitems⟩ := Option.bind_eq_some_iff.mp hitems
  have hformed : head.Formed := by
    have haction := h.steps step hstep
    obtain ⟨label, action⟩ := step
    cases action with
    | loop head body =>
      cases hhead
      exact haction
    | parallelLoop options head body =>
      cases hhead
      exact haction.2
    | _ => cases hhead
  obtain ⟨e', he', hiterable⟩ := hformed.items
  rw [LoopHead.items?, he'] at hitems
  cases hitems
  exact hiterable

end

/-- The loops of a document run over what the loops of the subworkflow run over. -/
theorem Subworkflow.iterables_toDocument {w : Subworkflow String}
    (h : ∀ step ∈ w.walk, step.action.NamesErrors) :
    w.toDocument.iterables = w.iterables.map Expr.toDocument := by
  have hhead (head : LoopHead) (docs : List Document) :
      (Document.object (head.fields ++ [("steps", .array docs)])).field? "in" =
        head.items?.map Expr.toDocument := by
    obtain ⟨value, index, iterable⟩ := head
    cases index <;> cases iterable <;> rfl
  rw [Document.iterables, Subworkflow.entries_toDocument h, List.filterMap_map,
    Subworkflow.iterables, List.map_filterMap]
  refine List.filterMap_congr fun step _ => ?_
  rw [Function.comp_apply, step.loop?_entry]
  cases step.loopHead? with
  | none => rfl
  | some head => exact hhead head _

/-! ## Expressions -/

/-- Whether an expression is a map that stands alone. -/
def Expr.isMap : Expr → Bool
  | .mk (.mk none (.map _)) [] => true
  | _ => false

theorem Expr.isMap_of_isLeaf {e : Expr} (h : e.isLeaf = true) : e.isMap = false := by
  unfold Expr.isMap
  split
  · cases h
  · rfl

/-- What becomes of an expression that a loop may run over: a map stays one if it is not literal,
and everything else can be run over. -/
theorem Expr.IsIterable.toDocument {e : Expr} (h : e.IsIterable) :
    e.toDocument.Iterates ∧ e.isMap = false ∨
      (∃ fields, e.toDocument = .object fields) ∧ e.isMap = true ∧ e.isLiteral = false := by
  induction e using Expr.shape_induction with
  | leaf e hleaf =>
    cases hliteral : e.isLiteral with
    | true =>
      have harray := h hliteral
      have hcollection := Expr.isCollection_toDocument hleaf
      cases hd : e.toDocument with
      | array items =>
        rw [hd] at hcollection
        cases hcollection
      | _ =>
        rw [hd] at harray
        cases harray
    | false =>
      rw [Expr.toDocument_of_not_literal hleaf hliteral]
      exact .inl ⟨⟨_, rfl⟩, Expr.isMap_of_isLeaf hleaf⟩
  | list items =>
    rw [Expr.toDocument_list]
    exact .inl ⟨trivial, rfl⟩
  | map entries =>
    rw [Expr.IsIterable, Expr.toDocument_map] at h
    rw [Expr.toDocument_map]
    exact .inr ⟨⟨_, rfl⟩, rfl, Bool.eq_false_of_not_eq_true fun hliteral =>
      absurd (h hliteral) (by simp [Document.isArray])⟩

/-- What a loop of a document runs over, and the expression that it was lowered from. -/
def LoopsOver (d : Document) (e : Expr) : Prop :=
  d = e.toDocument ∧ (d.Iterates ∧ e.isMap = false ∨
    (∃ fields, d = .object fields) ∧ e.isMap = true ∧ e.isLiteral = false)

theorem LoopsOver.iterates_iff {d : Document} {e : Expr} (h : LoopsOver d e) :
    d.Iterates ↔ e.isMap = false := by
  rcases h.2 with ⟨hiterates, hmap⟩ | ⟨⟨fields, hd⟩, hmap, -⟩
  · exact iff_of_true hiterates hmap
  · rw [hd, hmap]
    exact iff_of_false id Bool.true_eq_false.mp

theorem forall_iterates_iff {ds : List Document} {es : List Expr}
    (h : List.Forall₂ LoopsOver ds es) : (∀ d ∈ ds, d.Iterates) ↔ ∀ e ∈ es, e.isMap = false := by
  induction h with
  | nil => simp
  | cons hloop _ ih => rw [List.forall_mem_cons, List.forall_mem_cons, hloop.iterates_iff, ih]

theorem Subworkflow.Formed.loopsOver {w : Subworkflow String} (h : w.Formed) :
    List.Forall₂ LoopsOver w.toDocument.iterables w.iterables := by
  rw [Subworkflow.iterables_toDocument fun step hstep => (h.steps step hstep).namesErrors,
    List.forall₂_map_left_iff, List.forall₂_same]
  exact fun e he => ⟨rfl, (h.isIterable e he).toDocument⟩

/-! ## Programs -/

/-- The document of a program has the last subworkflow of each name. -/
theorem Program.mem_fields_toDocument {program : Program String} {field : String × Document} :
    field ∈ program.toDocument.fields ↔
      ∃ w, program.last? field.1 = some w ∧ w.toDocument = field.2 := by
  obtain ⟨name, body⟩ := field
  rw [Program.toDocument, Document.fields,
    ← Fields.lookup_eq_some_iff_mem (Fields.nodup_names_ofPairs _), Fields.lookup_ofPairs,
    ← List.map_reverse, ← Option.map_eq_some_iff, Program.last?]
  suffices hlookup : (program.reverse.map fun w => (w.name, w.toDocument)).lookup name =
      (program.reverse.find? fun w => name == w.name).map Subworkflow.toDocument by
    rw [hlookup]
  induction program.reverse with
  | nil => rfl
  | cons w rest ih =>
    rw [List.map_cons, List.lookup_cons, List.find?_cons]
    cases name == w.name with
    | true => rfl
    | false => exact ih

theorem Step.loopHead?_unnamed (step : NamedStep) : step.unnamed.loopHead? = step.loopHead? := by
  obtain ⟨label, action⟩ := step
  cases action with
  | _ => rfl

/-- Names change nothing about what loops run over. -/
theorem iterables_last?_named (program : Program Unit) (name : String) :
    (program.named.last? name).map Subworkflow.iterables =
      (program.last? name).map Subworkflow.iterables := by
  have hsame := (Subworkflow.namedAll_spec program .zero).1
  have hiterables (w : Subworkflow String) :
      Subworkflow.iterables ⟨w.name, w.params, Step.unnamedAll w.steps⟩ = w.iterables := by
    rw [Subworkflow.iterables, Subworkflow.walk, Step.walkAll_unnamedAll, List.filterMap_map,
      Subworkflow.iterables]
    refine List.filterMap_congr fun step _ => ?_
    rw [Function.comp_apply, step.loopHead?_unnamed]
  conv => rhs; rw [← hsame]
  rw [Program.last?, Program.last?, Program.unnamed, ← List.map_reverse, List.find?_map,
    Option.map_map]
  exact Option.map_congr fun w _ => (hiterables w).symm

/-- In a compiled document, whatever checks were left out, the loops of the last subworkflow of
each name run over its expressions, lowered: a list, a text that is evaluated later or, for a map
that is not literal, an object. So all of them can be run over exactly if no loop of these
subworkflows runs over a map. -/
theorem compile_iterables (disabled : List Check) (source : String) (program : Program Unit)
    (document : Document) (hbuild : build source = .ok program)
    (h : compile disabled source = .ok document) :
    (∀ field ∈ document.fields, ∃ w, program.last? field.1 = some w ∧
      List.Forall₂ LoopsOver field.2.iterables w.iterables) ∧
    ((∀ field ∈ document.fields, ∀ d ∈ field.2.iterables, d.Iterates) ↔
      ∀ name w, program.last? name = some w → ∀ e ∈ w.iterables, e.isMap = false) := by
  obtain ⟨built, hbuilt, -, rfl⟩ := exists_program_of_compile h
  cases hbuild.symm.trans hbuilt
  have hfields : ∀ field ∈ program.named.toDocument.fields, ∃ w,
      program.last? field.1 = some w ∧ List.Forall₂ LoopsOver field.2.iterables w.iterables := by
    intro field hfield
    obtain ⟨named, hlast, hdocument⟩ := Program.mem_fields_toDocument.mp hfield
    have hformed := formed_named (formed_of_build hbuild) named
      (List.mem_reverse.mp (List.mem_of_find?_eq_some hlast))
    have hiterables := iterables_last?_named program field.1
    rw [hlast, Option.map_some, eq_comm, Option.map_eq_some_iff] at hiterables
    obtain ⟨w, hw, hiterables⟩ := hiterables
    refine ⟨w, hw, ?_⟩
    rw [hiterables, ← hdocument]
    exact hformed.loopsOver
  refine ⟨hfields, fun hall name w hw => ?_, fun hall field hfield => ?_⟩
  · have hiterables := iterables_last?_named program name
    rw [hw, Option.map_some, Option.map_eq_some_iff] at hiterables
    obtain ⟨named, hlast, -⟩ := hiterables
    have hfield : (name, named.toDocument) ∈ program.named.toDocument.fields :=
      Program.mem_fields_toDocument.mpr ⟨named, hlast, rfl⟩
    obtain ⟨w', hw', hloops⟩ := hfields _ hfield
    cases hw.symm.trans hw'
    exact (forall_iterates_iff hloops).mp (hall _ hfield)
  · obtain ⟨w, hw, hloops⟩ := hfields field hfield
    exact (forall_iterates_iff hloops).mpr (hall field.1 w hw)

/-- Loops over a list with a map in it, over a reference and over a call, one of them parallel and
inside another. -/
theorem compile_iterables_sample : ∃ (program : Program Unit) (document : Document),
    build ("workflow main() \x7b for (i in [1, \x7ba: y\x7d, x]) \x7b " ++
      "parallel for (j in i.rows) \x7b for (k in f(j)) \x7b k = 1 \x7d \x7d \x7d \x7d") =
        .ok program ∧
    compile [] ("workflow main() \x7b for (i in [1, \x7ba: y\x7d, x]) \x7b " ++
      "parallel for (j in i.rows) \x7b for (k in f(j)) \x7b k = 1 \x7d \x7d \x7d \x7d") =
        .ok document ∧
    (document.fields.map fun field => field.2.iterables.map Document.isArray) =
      [[true, false, false]] ∧
    ∀ field ∈ document.fields, ∀ d ∈ field.2.iterables, d.Iterates := by
  generalize hsource : "workflow main() \x7b for (i in [1, \x7ba: y\x7d, x]) \x7b " ++
    "parallel for (j in i.rows) \x7b for (k in f(j)) \x7b k = 1 \x7d \x7d \x7d \x7d" = source
  have hmaps : (build source).toOption.map
      (List.all · fun w => w.iterables.all fun e => !e.isMap) = some true := by
    rw [← hsource]
    decide +kernel
  have harrays : (compile [] source).toOption.map (fun document =>
      document.fields.map fun field => field.2.iterables.map Document.isArray) =
        some [[true, false, false]] := by
    rw [← hsource]
    decide +kernel
  obtain ⟨program, hprogram, hmaps⟩ := Option.map_eq_some_iff.mp hmaps
  obtain ⟨document, hdocument, harrays⟩ := Option.map_eq_some_iff.mp harrays
  have hbuild := eq_ok_of_toOption hprogram
  have hcompile := eq_ok_of_toOption hdocument
  refine ⟨program, document, hbuild, hcompile, harrays,
    (compile_iterables [] source program document hbuild hcompile).2.mpr ?_⟩
  intro name w hw e he
  have hmem : w ∈ program := List.mem_reverse.mp (List.mem_of_find?_eq_some hw)
  simpa using List.all_eq_true.mp (List.all_eq_true.mp hmaps w hmem) e he

/-- A loop over a map with a reference in it passes all checks and runs over an object. -/
theorem exists_iterable_not_iterates : ∃ document : Document,
    compile [] "workflow main() \x7b for (x in \x7ba: y\x7d) \x7b \x7d \x7d" = .ok document ∧
      ∃ field ∈ document.fields, ∃ d ∈ field.2.iterables, ¬ d.Iterates := by
  have hfields : (compile []
      "workflow main() \x7b for (x in \x7ba: y\x7d) \x7b \x7d \x7d").toOption.map (fun document =>
        document.fields.map fun field => field.2.iterables.map fun d => Fields.names d.fields) =
      some [[["a"]]] := by
    decide +kernel
  obtain ⟨document, hdocument, hfields⟩ := Option.map_eq_some_iff.mp hfields
  obtain ⟨field, hfield, hiterables⟩ := List.map_eq_singleton_iff.mp hfields
  obtain ⟨d, hd, hnames⟩ := List.map_eq_singleton_iff.mp hiterables
  refine ⟨document, eq_ok_of_toOption hdocument, field, hfield ▸ List.mem_singleton_self field, d,
    hd ▸ List.mem_singleton_self d, fun hiterates => ?_⟩
  -- only an object has a field
  cases d with
  | object fields => exact hiterates
  | _ => cases hnames

end Workflow
