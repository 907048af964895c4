import Workflow.Proofs.Expr.Terms
import Workflow.Proofs.Program.Built

/-!
# Well-formed programs

A program that is built from a text is well-formed. Beside the form of each step, no block has two
assignments next to each other, each map names each of its keys once, and all numbers are finite,
in every subworkflow and at every depth.
-/

namespace Workflow

/-! ## Expressions -/

/-- A number is finite and a map has each key once. -/
def Operand.Formed : Operand → Prop
  | .primitive (.number n) => n.IsFinite
  | .map entries => (Fields.names entries).Nodup
  | _ => True

/-- The terms of an expression are formed, the expressions inside them apart. -/
def Expr.Formed (e : Expr) : Prop := ∀ term ∈ e.terms, term.operand.Formed

/-- An expression and the expressions inside it are formed. -/
def Expr.AllFormed (e : Expr) : Prop := ∀ part ∈ e.parts, part.Formed

/-- An operand and the expressions inside it are formed. -/
def Operand.AllFormed (o : Operand) : Prop := o.Formed ∧ ∀ part ∈ o.parts, part.Formed

theorem Operand.allFormed_iff {o : Operand} :
    o.AllFormed ↔ o.Formed ∧ ∀ inner ∈ o.inner, inner.AllFormed := by
  rw [Operand.AllFormed, Operand.forall_mem_parts]
  rfl

theorem Expr.allFormed_mk {head : Term} {tail : List (BinaryOp × Term)} :
    (Expr.mk head tail).AllFormed ↔
      head.operand.AllFormed ∧ ∀ pair ∈ tail, pair.2.operand.AllFormed := by
  have hterms := Expr.eachTerm_iff (P := fun t => t.operand.Formed) (e := .mk head tail)
  rw [Expr.terms, List.forall_mem_cons, List.forall_mem_map] at hterms
  simp only [Operand.allFormed_iff]
  exact hterms

theorem Expr.allFormed_ofOperand {o : Operand} (h : o.AllFormed) : (Expr.ofOperand o).AllFormed :=
  Expr.allFormed_mk.mpr ⟨h, List.forall_mem_nil _⟩

/-! ## Tokens -/

/-- The numbers among tokens are finite. -/
def FiniteTokens (tokens : List Token) : Prop :=
  ∀ t ∈ tokens, ∀ n, t.lexeme = .number n → n.IsFinite

/-- A numeral that would be infinite is no number. -/
theorem isFinite_number? {numeral : Numeral} {n : Number} (h : numeral.number? = some n) :
    n.IsFinite := by
  have float {x : Binary64} (h : (if x.isFinite then some (Number.float x) else none) = some n) :
      n.IsFinite := by
    obtain ⟨hfinite, heq⟩ := Option.ite_none_right_eq_some.mp h
    cases heq
    exact hfinite
  unfold Numeral.number? at h
  dsimp only at h
  split at h
  · split at h
    · rcases Option.or_eq_some_iff.mp h with hint | ⟨_, hfloat⟩
      · rw [Number.ofInt?] at hint
        obtain ⟨_, heq⟩ := Option.ite_none_right_eq_some.mp hint
        cases heq
        trivial
      · exact float hfloat
    · split at h
      · split at h
        · cases h
          trivial
        · exact float h
      · exact float h
  · exact float h

theorem Token.isFinite_of_scanned {afterValue : Bool} {t : Token} (h : Token.Scanned afterValue t)
    {n : Number} (ht : t.lexeme = .number n) : n.IsFinite := by
  obtain ⟨numeral, -, -, hnumber⟩ := exists_numeral_of_scanned h ht
  exact isFinite_number? hnumber

theorem finiteTokens_of_tokenize {source : String} {tokens : List Token}
    (h : tokenize source = .ok tokens) : FiniteTokens tokens := by
  have hread : Token.ofChars false (.behind []) source.toList = .ok tokens := mapError_eq_ok.mp h
  intro t ht n hn
  have hne : t.lexeme ≠ .endOfInput := by
    intro hstop
    rw [hstop] at hn
    cases hn
  obtain ⟨afterValue, hscanned⟩ := (Token.tiling_ofChars hread).2.scanned t ht hne
  exact Token.isFinite_of_scanned hscanned hn

namespace Phrase

open Grammar

theorem isFinite_primitiveOf {value : Tok .literal} (h : FiniteTokens [value.val]) {n : Number}
    (hn : primitiveOf value = .number n) : n.IsFinite := by
  refine h value.val List.mem_cons_self n ?_
  unfold primitiveOf at hn
  split at hn
  · cases hn
  · rename_i m hm
    cases hn
    exact hm
  · cases hn
  · cases hn
  · cases hn

theorem Operand.formed_built (d : Operand) (h : FiniteTokens d.tokens) {o : Workflow.Operand}
    (hb : d.built = .ok o) : o.Formed := by
  cases d with
  | literal value =>
    cases hb
    cases hprimitive : primitiveOf value with
    | number n => exact isFinite_primitiveOf h hprimitive
    | _ => trivial
  | object start entries =>
    rw [Operand.built] at hb
    obtain ⟨pairs, _, hb⟩ := bind_eq_ok.mp hb
    cases hb
    exact Fields.nodup_names_ofPairs pairs
  | expression token =>
    cases hb
    trivial
  | array start items | paren start inner stop | reference place | call name start args =>
    rw [Operand.built] at hb
    obtain ⟨found, _, hb⟩ := bind_eq_ok.mp hb
    cases hb
    trivial

theorem eachBuilt_formed {tokens : List Token} (h : FiniteTokens tokens) :
    EachBuilt Workflow.Operand.Formed tokens :=
  fun d hd _ hb => d.formed_built (fun t ht => h t (hd.subset ht)) hb

theorem Expression.allFormed_built (d : Expression) (h : FiniteTokens d.tokens) {e : Expr}
    (hb : d.built = .ok e) : e.AllFormed :=
  d.eachTerm_built (eachBuilt_formed h) hb

theorem Parameter.isFinite_built (d : Parameter) (h : FiniteTokens d.tokens) {n : Number}
    (hn : d.built.default = some (.number n)) : n.IsFinite := by
  cases d with
  | plain name => cases hn
  | default name assign value =>
    refine isFinite_primitiveOf (fun t ht => h t ?_) (Option.some.inj hn)
    simp [Parameter.tokens, List.mem_singleton.mp ht]

end Phrase

/-! ## Programs -/

theorem Expr.Source.allFormed {tokens : List Token} (h : FiniteTokens tokens) {e : Expr}
    (he : e.Source tokens) : e.AllFormed := by
  cases he with
  | @phrase d e afterValue hamong hstart hb =>
    exact d.allFormed_built (fun t ht => h t (hamong.subset ht)) hb
  | temporary hname => exact Expr.allFormed_ofOperand ⟨trivial, List.forall_mem_nil _⟩
  | always => exact Expr.allFormed_ofOperand ⟨trivial, List.forall_mem_nil _⟩

/-- Every program that is built from a text is well-formed. Each step has the form of its kind, no
block has two assignments next to each other, and in each term of each expression a number is
finite and a map has each key once. -/
theorem build_wellFormed (source : String) (program : Program Unit)
    (h : build source = .ok program) :
    ∀ w ∈ program,
      (∀ p ∈ w.params, ∀ n, p.default = some (.number n) → n.IsFinite) ∧
      Step.Separated w.steps ∧
      ∀ step ∈ w.walk,
        step.action.Formed ∧
        (∀ block ∈ step.action.blocks, Step.Separated block) ∧
        ∀ e ∈ step.action.expressions, ∀ part ∈ e.parts, ∀ term ∈ part.terms,
          term.operand.Formed := by
  intro w hw
  obtain ⟨tokens, ts, htokens, hfront, hbuilt⟩ := exists_builtFrom h
  have hfinite : FiniteTokens ts :=
    fun t ht => finiteTokens_of_tokenize htokens t (hfront.subset ht)
  have hfrom := hbuilt w hw
  refine ⟨fun p hp n hn => ?_, hfrom.steps.separated, fun step hstep => ?_⟩
  · obtain ⟨parameter, hparameter, rfl⟩ := hfrom.params p hp
    exact parameter.isFinite_built (fun t ht => hfinite t (hparameter ht)) hn
  · have haction := hfrom.steps.every step hstep
    exact ⟨haction.formed, haction.blocks, fun e he => (haction.expressions e he).allFormed hfinite⟩

/-- Two assignments become one step, also where the second one is that of a temporary. -/
theorem build_wellFormed_sample : ∃ (program : Program Unit) (w : Subworkflow Unit),
    build ("workflow w() \x7b a = \x7bk: 1, k: 2.5\x7d b = 3 " ++
      "for (i in a) \x7b c.d = f() e = i \x7d \x7d") = .ok program ∧
    w ∈ program ∧ w.walk.length = 4 ∧
    (∀ p ∈ w.params, ∀ n, p.default = some (.number n) → n.IsFinite) ∧
    Step.Separated w.steps ∧
    ∀ step ∈ w.walk,
      step.action.Formed ∧
      (∀ block ∈ step.action.blocks, Step.Separated block) ∧
      ∀ e ∈ step.action.expressions, ∀ part ∈ e.parts, ∀ term ∈ part.terms,
        term.operand.Formed := by
  generalize hsource : "workflow w() \x7b a = \x7bk: 1, k: 2.5\x7d b = 3 " ++
    "for (i in a) \x7b c.d = f() e = i \x7d \x7d" = source
  have hwalks : (build source).toOption.map (List.map fun w => w.walk.length) = some [4] := by
    rw [← hsource]
    decide +kernel
  obtain ⟨program, hprogram, hlengths⟩ := Option.map_eq_some_iff.mp hwalks
  obtain ⟨w, rfl, hlength⟩ := List.map_eq_singleton_iff.mp hlengths
  have h := eq_ok_of_toOption hprogram
  exact ⟨[w], w, h, List.mem_singleton_self w, hlength,
    build_wellFormed _ [w] h w (List.mem_singleton_self w)⟩

end Workflow
