import Workflow.Proofs.Expr.Lowering
import Workflow.Proofs.Program.WellFormed

/-!
# Lowering the expressions of programs

Lowering is exact at every path of every expression. An expression that is built repeats no key, so
that one whose value is not known always shows the text of a leaf.
-/

namespace Workflow

namespace Expr

theorem AllFormed.child {e part : Expr} (h : e.AllFormed) {s : Selector}
    (hpart : e.child? s = some part) : part.AllFormed := by
  unfold child? at hpart
  split at hpart
  · have hitems := (Expr.allFormed_mk.mp h).1.2
    exact Expr.forall_mem_allParts.mp hitems part (List.mem_of_getElem? hpart)
  · have hentries := (Expr.allFormed_mk.mp h).1.2
    obtain ⟨front, rest, hsplit, -⟩ := List.lookup_eq_some_iff.mp hpart
    have hmem := List.mem_reverse.mp (hsplit ▸ List.mem_append_cons_self)
    exact Expr.forall_mem_entryParts.mp hentries _ hmem
  · cases hpart

theorem AllFormed.distinctKeys {e : Expr} (h : e.AllFormed) : e.DistinctKeys := by
  intro path
  induction path generalizing e with
  | nil =>
    intro entries hentries
    cases hentries
    exact (Expr.allFormed_mk.mp h).1.1
  | cons s path ih =>
    intro entries hentries
    rw [at?_cons] at hentries
    obtain ⟨part, hpart, hrest⟩ := Option.bind_eq_some_iff.mp hentries
    exact ih (h.child hpart) entries hrest

end Expr

/-- The expressions that the steps of a program hold are formed. -/
theorem allFormed_of_build {source : String} {program : Program Unit}
    (h : build source = .ok program) {w : Subworkflow Unit} (hw : w ∈ program)
    {step : RawStep} (hstep : step ∈ w.walk) : ∀ e ∈ step.action.expressions, e.AllFormed := by
  obtain ⟨tokens, ts, htokens, hfront, hbuilt⟩ := exists_builtFrom h
  have hfinite : FiniteTokens ts :=
    fun t ht => finiteTokens_of_tokenize htokens t (hfront.subset ht)
  exact fun e he => (((hbuilt w hw).steps.every step hstep).expressions e he).allFormed hfinite

/-- A path leads to a value of the document of an expression exactly if it leads to a part of the
expression, and the value is what the part becomes. An expression is literal exactly if its leaves
are. If it is not, and no map in it has a key twice, the document has the text of a leaf that is
not literal. The expressions of a program that is built from a text repeat no key. -/
theorem toDocument_exact :
    (∀ e : Expr,
      (∀ path, Option.Rel Expr.LoweredTo (e.at? path) (e.toDocument.at? path)) ∧
      (e.isLiteral = true ↔ ∀ leaf, e.Leaf leaf → leaf.isLiteral = true) ∧
      (e.isLiteral = false → e.DistinctKeys →
        ∃ path leaf, e.at? path = some leaf ∧ leaf.isLiteral = false ∧
          e.toDocument.at? path = some (.string ("$\x7b" ++ leaf.text ++ "\x7d")))) ∧
    ∀ source program, build source = .ok program → ∀ w ∈ program, ∀ step ∈ w.walk,
      ∀ e ∈ step.action.expressions, e.DistinctKeys := by
  refine ⟨fun e => ⟨fun path => ?_, e.isLiteral_iff_leaves, Expr.exists_text_of_not_literal⟩, ?_⟩
  · rw [e.at?_toDocument]
    cases e.at? path with
    | none => exact .none
    | some part => exact .some part.loweredTo_toDocument
  · intro source program h w hw step hstep e he
    exact (allFormed_of_build h hw hstep e he).distinctKeys

/-- A map with a reference inside a list, and the opposite of the least integer next to it. -/
theorem toDocument_exact_sample : ∃ (program : Program Unit) (w : Subworkflow Unit)
    (step : RawStep) (e : Expr),
    build "workflow w() \x7b return \x7ba: [x, - -9223372036854775808], b: 1\x7d \x7d" =
      .ok program ∧ w ∈ program ∧ step ∈ w.walk ∧ e ∈ step.action.expressions ∧
    e.isLiteral = false ∧ e.DistinctKeys ∧
    (∃ path leaf, e.at? path = some leaf ∧ leaf.isLiteral = false ∧
      e.toDocument.at? path = some (.string ("$\x7b" ++ leaf.text ++ "\x7d"))) := by
  have hliterals : (build
      "workflow w() \x7b return \x7ba: [x, - -9223372036854775808], b: 1\x7d \x7d").toOption.map
        (List.map fun w => w.walk.map fun step => step.action.expressions.map Expr.isLiteral) =
      some [[[false]]] := by
    decide +kernel
  obtain ⟨program, hprogram, hliterals⟩ := Option.map_eq_some_iff.mp hliterals
  obtain ⟨w, rfl, hsteps⟩ := List.map_eq_singleton_iff.mp hliterals
  obtain ⟨step, hwalk, hvalues⟩ := List.map_eq_singleton_iff.mp hsteps
  obtain ⟨e, hexpressions, hliteral⟩ := List.map_eq_singleton_iff.mp hvalues
  have hbuild := eq_ok_of_toOption hprogram
  have hw : w ∈ [w] := List.mem_singleton_self w
  have hstep : step ∈ w.walk := hwalk ▸ List.mem_singleton_self step
  have he : e ∈ step.action.expressions := hexpressions ▸ List.mem_singleton_self e
  have hkeys := toDocument_exact.2 _ [w] hbuild w hw step hstep e he
  exact ⟨[w], w, step, e, hbuild, hw, hstep, he, hliteral, hkeys,
    (toDocument_exact.1 e).2.2 hliteral hkeys⟩

/-- A literal entry hides one of the same key whose value is not known. -/
theorem exists_not_literal_without_text : ∃ e : Expr, e.isLiteral = false ∧
    ∀ path text, e.toDocument.at? path ≠ some (.string ("$\x7b" ++ text ++ "\x7d")) := by
  refine ⟨.ofOperand (.map [("a", .reference "x"),
    ("a", .ofOperand (.primitive (.number (.int 1))))]), rfl, ?_⟩
  generalize hd : Expr.toDocument _ = d
  have hd : d = .object [("a", .int 1)] := hd.symm.trans rfl
  have hchild (s : Selector) : d.child? s = none ∨ d.child? s = some (.int 1) := by
    rw [hd]
    cases s with
    | item i => exact .inl rfl
    | field key =>
      by_cases hkey : key = "a"
      · exact .inr (by simp [Document.child?, hkey])
      · exact .inl (by simp [Document.child?, hkey])
  intro path text h
  cases path with
  | nil => cases hd.symm.trans (Option.some.inj h)
  | cons s path =>
    rw [Document.at?_cons] at h
    rcases hchild s with hs | hs
    · rw [hs] at h
      cases h
    · rw [hs, Option.bind_some] at h
      -- no step leads on from the number
      cases path with
      | nil => cases h
      | cons t path => cases h

end Workflow
