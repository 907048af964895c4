import Mathlib.Data.List.Infix
import Workflow.Proofs.Expr.Splicing
import Workflow.Proofs.Program.RoundTrip
import Workflow.Proofs.Program.WellFormed

/-!
# Expression literals in the texts of programs

The text of an expression literal is part of the text of each expression that it stands in. Where
these texts are expressions, the text of the whole is built into the whole with their terms and
operators in their places.
-/

namespace Workflow

open Token

/-! ## Texts inside texts -/

theorem infix_intercalate {separator s : String} {texts : List String} (h : s ∈ texts) :
    s.toList <:+: (separator.intercalate texts).toList := by
  induction texts with
  | nil => cases h
  | cons first rest ih =>
    cases rest with
    | nil =>
      rw [String.intercalate_singleton, List.mem_singleton.mp h]
    | cons second rest =>
      rw [String.intercalate_cons_cons, toList_enclosed]
      rcases List.mem_cons.mp h with rfl | h
      · exact (List.prefix_append _ _).isInfix
      · exact (ih h).trans ((List.suffix_append _ _).trans (List.suffix_append _ _)).isInfix

theorem infix_enclosed {cs : List Char} {inner : String} (h : cs <:+: inner.toList)
    (start stop : String) : cs <:+: (start ++ inner ++ stop).toList := by
  rw [toList_enclosed]
  exact h.trans ⟨start.toList, stop.toList, List.append_assoc _ _ _⟩

theorem Expr.text_mem_texts {e : Expr} {items : List Expr} (h : e ∈ items) :
    e.text ∈ Expr.texts items := by
  induction items with
  | nil => cases h
  | cons first rest ih =>
    rcases List.mem_cons.mp h with rfl | h
    · exact List.mem_cons_self
    · exact List.mem_cons_of_mem _ (ih h)

theorem Expr.infix_entryTexts {entry : String × Expr} {entries : List (String × Expr)}
    (h : entry ∈ entries) :
    entry.2.text.toList <:+: (", ".intercalate (Expr.entryTexts entries)).toList := by
  have hmem : Text.quote entry.1 ++ ": " ++ entry.2.text ∈ Expr.entryTexts entries := by
    induction entries with
    | nil => cases h
    | cons first rest ih =>
      rcases List.mem_cons.mp h with rfl | h
      · exact List.mem_cons_self
      · exact List.mem_cons_of_mem _ (ih h)
  refine List.IsInfix.trans ?_ (infix_intercalate hmem)
  rw [String.toList_append]
  exact (List.suffix_append _ _).isInfix

theorem Operand.infix_of_mem_inner {o : Operand} {e : Expr} (h : e ∈ o.inner) :
    e.text.toList <:+: o.text.toList := by
  cases o with
  | primitive p => cases h
  | list items => exact infix_enclosed (infix_intercalate (Expr.text_mem_texts h)) _ _
  | map entries =>
    obtain ⟨entry, hentry, rfl⟩ := List.mem_map.mp h
    exact infix_enclosed (Expr.infix_entryTexts hentry) _ _
  | reference text => cases h
  | call name args => exact infix_enclosed (infix_intercalate (Expr.text_mem_texts h)) _ _
  | paren inner =>
    cases List.mem_singleton.mp h
    exact infix_enclosed List.infix_rfl _ _

theorem Term.infix_operand (t : Term) : t.operand.text.toList <:+: t.text.toList := by
  obtain ⟨unary, o⟩ := t
  rw [Term.text, String.toList_append]
  exact (List.suffix_append _ _).isInfix

theorem Expr.infix_tailText {pair : BinaryOp × Term} {tail : List (BinaryOp × Term)}
    (h : pair ∈ tail) : pair.2.text.toList <:+: (Expr.tailText tail).toList := by
  induction tail with
  | nil => cases h
  | cons first rest ih =>
    rcases List.mem_cons.mp h with rfl | hrest
    · exact infix_enclosed List.infix_rfl _ _
    · obtain ⟨op, t⟩ := first
      rw [Expr.tailText, String.toList_append]
      exact (ih hrest).trans (List.suffix_append _ _).isInfix

theorem Expr.infix_of_mem_terms {e : Expr} {t : Term} (h : t ∈ e.terms) :
    t.operand.text.toList <:+: e.text.toList := by
  refine t.infix_operand.trans ?_
  obtain ⟨head, tail⟩ := e
  rw [Expr.text, String.toList_append]
  rcases List.mem_cons.mp h with rfl | h
  · exact (List.prefix_append _ _).isInfix
  · obtain ⟨pair, hpair, rfl⟩ := List.mem_map.mp h
    exact (Expr.infix_tailText hpair).trans (List.suffix_append _ _).isInfix

theorem Expr.infix_of_mem_parts {e part : Expr} (h : part ∈ e.parts) :
    part.text.toList <:+: e.text.toList := by
  induction e using Expr.inner_induction generalizing part with
  | step e ih =>
    refine Expr.forall_mem_parts (P := fun part => part.text.toList <:+: e.text.toList) |>.mpr
      ⟨List.infix_rfl, fun t ht inner hinner part hpart => ?_⟩ part h
    exact (ih t ht inner hinner hpart).trans
      ((Operand.infix_of_mem_inner hinner).trans (Expr.infix_of_mem_terms ht))

/-! ## Texts that are kept -/

/-- The text of an expression literal among tokens is part of a text. -/
def LiteralWithin (tokens : List Token) (text : String) : Prop :=
  ∃ t ∈ tokens, ∃ inner, t.lexeme = .expression inner ∧ inner.toList <:+: text.toList

theorem LiteralWithin.mono {tokens : List Token} {text text' : String}
    (h : LiteralWithin tokens text) (hwithin : text.toList <:+: text'.toList) :
    LiteralWithin tokens text' := by
  obtain ⟨t, ht, inner, hlexeme, hinner⟩ := h
  exact ⟨t, ht, inner, hlexeme, hinner.trans hwithin⟩

theorem LiteralWithin.behind {tokens : List Token} {text : String} (h : LiteralWithin tokens text)
    (s : String) : LiteralWithin tokens (s ++ text) :=
  h.mono (by rw [String.toList_append]; exact (List.suffix_append _ _).isInfix)

theorem LiteralWithin.append {tokens : List Token} {text : String} (h : LiteralWithin tokens text)
    (s : String) : LiteralWithin tokens (text ++ s) :=
  h.mono (by rw [String.toList_append]; exact (List.prefix_append _ _).isInfix)

/-- A text is that of an operand among the tokens, and an expression literal of this operand is part
of it. -/
def HoldsLiteral (tokens : List Token) (text : String) : Prop :=
  ∃ d : Phrase.Operand, d.tokens <:+: tokens ∧ d.built = .ok (.reference text) ∧
    LiteralWithin d.tokens text

/-- The name of a call is a name, and a text is that of a reference unless it holds a literal. -/
def Operand.Kept (holds : String → Prop) : Operand → Prop
  | .call name _ => IsDottedName name
  | .reference text => holds text ∨ ∃ text', ReadsReference text text'
  | _ => True

section

variable {holds : String → Prop}

/-- A term can be read if each text in it that holds a literal is an expression, without an operator
in front where one stands in front of it. -/
theorem Term.readable_of_kept {t : Term} (hformed : t.operand.Formed)
    (hkept : t.operand.Kept holds)
    (hliteral : ∀ text, t.operand = .reference text → holds text →
      ∃ e, ReadsAs text e ∧ (t.operator? ≠ none → e.head.operator? = none)) : t.Readable := by
  obtain ⟨unary, o⟩ := t
  cases o with
  | primitive p =>
    cases p with
    | number n =>
      cases n with
      | int n => trivial
      | float x => exact hformed
    | _ => trivial
  | list items => trivial
  | map entries => exact hformed
  | reference text =>
    rcases hkept with hholds | ⟨text', href⟩
    · exact hliteral text rfl hholds
    · exact ⟨_, readsAs_reference href, fun _ => rfl⟩
  | call name args => exact hkept
  | paren inner => trivial

/-- Only a text that holds a literal may be more than a single term. -/
theorem Operand.grouped_iff_of_kept {o : Operand} (h : o.Kept holds) :
    o.Grouped ↔ ∀ text, o = .reference text → holds text →
      ∃ single, Expr.ofText? text = some (.mk single []) := by
  cases o with
  | reference text =>
    constructor
    · rintro hgrouped _ ⟨⟩ -
      exact hgrouped
    · intro hsingle
      rcases h with hholds | ⟨text', href⟩
      · exact hsingle text rfl hholds
      · exact ⟨_, (readsAs_reference href).ofText?⟩
  | _ => exact iff_of_true trivial fun text htext => by cases htext

end

/-- An index in which no expression literal stands is read as one. -/
theorem exists_readsIndex {tokens : List Token} {e : Expr} (hformed : e.AllFormed)
    (hkept : e.EachTerm fun t => t.operand.Kept (LiteralWithin tokens)) {p : Position} {text : String}
    (h : subscriptText e p = .ok text) (hfree : ¬ LiteralWithin tokens text) :
    ∃ text', ReadsIndex text text' := by
  obtain ⟨hnone, rfl⟩ | hindex := subscriptText_cases h
  · have hreference : e.EachTerm fun t => ∀ text, t.operand = .reference text →
        ∃ text', ReadsReference text text' := by
      intro part hpart t ht text htext
      have hwithin := (Expr.infix_of_mem_terms ht).trans (Expr.infix_of_mem_parts hpart)
      have hoperand := hkept part hpart t ht
      rw [htext] at hwithin hoperand
      exact hoperand.resolve_left fun hholds => hfree (hholds.mono hwithin)
    have hreadable : e.EachTerm Term.Readable := by
      intro part hpart t ht
      refine Term.readable_of_kept (hformed part hpart t ht) (hkept part hpart t ht) ?_
      intro text htext _
      obtain ⟨text', href⟩ := hreference part hpart t ht text htext
      exact ⟨_, readsAs_reference href, fun _ => rfl⟩
    have hrefers : e.EachTerm Term.Refers := by
      intro part hpart t ht text htext
      obtain ⟨text', href⟩ := hreference part hpart t ht text htext
      exact ⟨text', (readsAs_reference href).ofText?⟩
    obtain ⟨e', hread, hspliced⟩ := hreadable.splices
    -- what is not literal stays so, and stands for its text
    refine ⟨e'.text, hread.readsIndex (if_neg fun hliteral => ?_)⟩
    rw [Expr.literal?, if_pos (hspliced.isLiteral hrefers hliteral)] at hnone
    cases hnone
  · exact ⟨text, hindex⟩

namespace Phrase

variable {tokens : List Token} {bound : Nat}

/-- Indices of fewer than some number of tokens are read, if no expression literal is in them. -/
def IndicesRead (tokens : List Token) (bound : Nat) : Prop :=
  ∀ (index : Expression) (e : Expr) (p : Position) (text : String), index.tokens ⊆ tokens →
    index.tokens.length < bound → index.built = .ok e → subscriptText e p = .ok text →
      ¬ LiteralWithin tokens text → ∃ text', ReadsIndex text text'

theorem Subscripts.exists_reads (d : Subscripts) (h : IndicesRead tokens bound)
    (hd : d.tokens ⊆ tokens) (hbound : d.tokens.length ≤ bound) {text : String}
    (hb : d.text = .ok text) (hfree : ¬ LiteralWithin tokens text) :
    ∃ text', ReadsSubscripts text text' := by
  match d with
  | .nil =>
    cases hb
    exact ⟨"", readsSubscripts_nil⟩
  | .cons start index stop rest =>
    rw [Subscripts.tokens] at hd hbound
    rw [Subscripts.text] at hb
    obtain ⟨e, he, hb⟩ := bind_eq_ok.mp hb
    obtain ⟨first, hfirst, hb⟩ := bind_eq_ok.mp hb
    obtain ⟨others, hothers, hb⟩ := bind_eq_ok.mp hb
    cases hb
    simp only [List.length_cons, List.length_append] at hbound
    rw [List.cons_subset, List.append_subset, List.cons_subset] at hd
    obtain ⟨first', hindex⟩ := h index e _ first hd.2.1 (by omega) he hfirst fun hholds =>
      hfree (((hholds.behind "[").append "]").append others)
    obtain ⟨others', hrest⟩ := rest.exists_reads h hd.2.2.2 (by omega) hothers fun hholds =>
      hfree (hholds.behind ("[" ++ first ++ "]"))
    exact ⟨_, readsSubscripts_cons hindex hrest⟩

theorem Part.exists_reads (d : Part) (hnamed : NamedTokens tokens) (h : IndicesRead tokens bound)
    (hd : d.tokens ⊆ tokens) (hbound : d.tokens.length ≤ bound) {text : String}
    (hb : d.text = .ok text) (hfree : ¬ LiteralWithin tokens text) :
    ∃ text', ReadsPart text text' := by
  match d with
  | .mk name subscripts =>
    rw [Part.tokens] at hd hbound
    rw [Part.text] at hb
    obtain ⟨found, hfound, hb⟩ := bind_eq_ok.mp hb
    cases hb
    rw [List.cons_subset] at hd
    rw [List.length_cons] at hbound
    obtain ⟨found', hread⟩ := subscripts.exists_reads h hd.2 (by omega) hfound fun hholds =>
      hfree (hholds.behind name.val.image)
    exact ⟨_, readsPart_append (hnamed _ hd.1 name.property) hread⟩

theorem Reference.exists_reads (d : Reference) (hnamed : NamedTokens tokens)
    (h : IndicesRead tokens bound) (hd : d.tokens ⊆ tokens) (hbound : d.tokens.length ≤ bound)
    {parts : List String} (hb : d.partTexts = .ok parts)
    (hfree : ¬ LiteralWithin tokens (".".intercalate parts)) :
    ∃ part rest part' rest', parts = part :: rest ∧ ReadsPart part part' ∧
      List.Forall₂ ReadsPart rest rest' := by
  match d with
  | .last part =>
    rw [Reference.tokens] at hd hbound
    rw [Reference.partTexts] at hb
    obtain ⟨text, htext, hb⟩ := bind_eq_ok.mp hb
    cases hb
    rw [String.intercalate_singleton] at hfree
    obtain ⟨text', hread⟩ := part.exists_reads hnamed h hd hbound htext hfree
    exact ⟨text, [], text', [], rfl, hread, .nil⟩
  | .dotted part dot rest =>
    rw [Reference.tokens] at hd hbound
    rw [Reference.partTexts] at hb
    obtain ⟨text, htext, hb⟩ := bind_eq_ok.mp hb
    obtain ⟨others, hothers, hb⟩ := bind_eq_ok.mp hb
    cases hb
    simp only [List.length_cons, List.length_append] at hbound
    rw [List.append_subset, List.cons_subset] at hd
    obtain ⟨second, more, rfl⟩ := rest.exists_partTexts hothers
    rw [String.intercalate_cons_cons] at hfree
    obtain ⟨text', hread⟩ := part.exists_reads hnamed h hd.1 (by omega) htext fun hholds =>
      hfree ((hholds.append ".").append _)
    obtain ⟨_, _, second', more', hsplit, hsecond, hmore⟩ :=
      rest.exists_reads hnamed h hd.2.2 (by omega) hothers fun hholds =>
        hfree (hholds.behind (text ++ "."))
    cases hsplit
    exact ⟨text, second :: more, text', second' :: more', rfl, hread, .cons hsecond hmore⟩

/-- By induction on the number of tokens: the indices of a reference have fewer. -/
theorem Operand.kept_built (d : Operand) (hnamed : NamedTokens tokens)
    (hfinite : FiniteTokens tokens) (hd : d.tokens ⊆ tokens) {o : Workflow.Operand}
    (hb : d.built = .ok o) : o.Kept (LiteralWithin tokens) := by
  induction hn : d.tokens.length using Nat.strong_induction_on generalizing d o with
  | _ n ih =>
    have hindices : IndicesRead tokens n := by
      intro index e p text hsub hlt hbuilt htext hfree
      have hformed := index.allFormed_built (fun t ht => hfinite t (hsub ht)) hbuilt
      refine exists_readsIndex hformed (index.eachTerm_built ?_ hbuilt) htext hfree
      intro d' hd' o' hb'
      exact ih _ (Nat.lt_of_le_of_lt hd'.length_le hlt) d' (fun t ht => hsub (hd'.subset ht))
        hb' rfl
    match d with
    | .literal value =>
      cases hb
      trivial
    | .expression ⟨token, text, htext⟩ =>
      cases hb
      refine .inl ⟨token, hd List.mem_cons_self, text, htext, ?_⟩
      simp only [expressionText, htext]
      exact List.infix_rfl
    | .reference place =>
      rw [Operand.tokens] at hd hn
      rw [Operand.built] at hb
      obtain ⟨parts, hparts, hb⟩ := bind_eq_ok.mp hb
      cases hb
      by_cases hholds : LiteralWithin tokens (".".intercalate parts)
      · exact .inl hholds
      · obtain ⟨part, rest, part', rest', rfl, hpart, hrest⟩ :=
          place.exists_reads hnamed hindices hd (Nat.le_of_eq hn) hparts hholds
        exact .inr ⟨_, readsReference_intercalate hpart hrest⟩
    | .call name start args =>
      rw [Operand.tokens, List.append_subset] at hd
      rw [Operand.built] at hb
      obtain ⟨found, _, hb⟩ := bind_eq_ok.mp hb
      cases hb
      exact (name.joinsNames fun t ht => hnamed t (hd.1 ht)).isDottedName
    | .array start items | .object start entries | .paren start inner stop =>
      rw [Operand.built] at hb
      obtain ⟨found, _, hb⟩ := bind_eq_ok.mp hb
      cases hb
      trivial

/-- What an operand among the tokens is built into holds only its own literals. -/
theorem Operand.kept_among (d : Operand) (hnamed : NamedTokens tokens)
    (hfinite : FiniteTokens tokens) (hd : d.tokens <:+: tokens) {o : Workflow.Operand}
    (hb : d.built = .ok o) : o.Kept (HoldsLiteral tokens) := by
  have hkept := d.kept_built (fun t ht => hnamed t (hd.subset ht))
    (fun t ht => hfinite t (hd.subset ht)) (List.Subset.refl _) hb
  cases o with
  | reference text => exact hkept.imp_left fun hwithin => ⟨d, hd, hb, hwithin⟩
  | call name args => exact hkept
  | primitive _ | list _ | map _ | paren _ => trivial

end Phrase

/-! ## Programs -/

theorem Expr.Source.kept {tokens ts : List Token} (hnamed : NamedTokens tokens)
    (hfinite : FiniteTokens tokens) (hts : ts <+: tokens) {e : Expr} (h : e.Source ts) :
    e.EachTerm fun t => t.operand.Formed ∧ t.operand.Kept (HoldsLiteral tokens) := by
  cases h with
  | @phrase d e afterValue hamong _ hb =>
    refine d.eachTerm_built (P := fun o => o.Formed ∧ o.Kept (HoldsLiteral tokens))
      (fun operand hoperand o ho => ?_) hb
    have hwithin : operand.tokens <:+: tokens := (hoperand.trans hamong.isInfix).trans hts.isInfix
    exact ⟨operand.formed_built (fun t ht => hfinite t (hwithin.subset ht)) ho,
      operand.kept_among hnamed hfinite hwithin ho⟩
  | temporary hname =>
    exact Expr.eachTerm_ofOperand.mpr
      ⟨⟨trivial, .inr ⟨_, readsReference_name hname⟩⟩, List.forall_mem_nil _⟩
  | always => exact Expr.eachTerm_ofOperand.mpr ⟨⟨trivial, trivial⟩, List.forall_mem_nil _⟩

/-- What the expressions of a program keep as texts is that of references, unless it is that of an
operand with an expression literal in it. -/
theorem kept_of_build {source : String} {tokens : List Token} {program : Program Unit} {e : Expr}
    (htokens : tokenize source = .ok tokens) (hprogram : build source = .ok program)
    (he : e ∈ program.expressions) :
    e.EachTerm fun t => t.operand.Formed ∧ t.operand.Kept (HoldsLiteral tokens) := by
  obtain ⟨_, ts, htokens', hfront, hbuilt⟩ := exists_builtFrom hprogram
  cases htokens.symm.trans htokens'
  obtain ⟨whole, hsource, hpart⟩ := Program.exists_source hbuilt he
  exact (hsource.kept (namedTokens_of_tokenize htokens) (finiteTokens_of_tokenize htokens)
    hfront).of_mem_parts hpart

/-- The text of an expression literal is part of the text of the expression that it stands in, as it
is. So if each text with an expression literal in it is an expression, which no operator starts
where one stands in front of it, then the text of the whole is built into the whole with the terms
and operators of these texts in their places. There are as many operators as before exactly if each
such text among the terms is a single term. Then they are the same ones, and term by term an
operator in front of a text is in front of all of it. -/
theorem build_splices {source : String} {tokens : List Token} {program : Program Unit} {e : Expr}
    (htokens : tokenize source = .ok tokens) (hprogram : build source = .ok program)
    (he : e ∈ program.expressions)
    (hliterals : ∀ part ∈ e.parts, ∀ t ∈ part.terms, ∀ text, t.operand = .reference text →
      HoldsLiteral tokens text →
        ∃ inner, IsText text inner ∧ (t.operator? ≠ none → inner.head.operator? = none)) :
    ∃ e', Expr.ofText? e.text = some e' ∧ e.SplicedTo e' ∧
      build ("workflow w() \x7b return " ++ e.text ++ " \x7d") =
        .ok [⟨"w", [], [.mk () (.return (some e'))]⟩] ∧
      (e'.tail.length = e.tail.length ↔ ∀ t ∈ e.terms, ∀ text, t.operand = .reference text →
        HoldsLiteral tokens text → ∃ single, Expr.ofText? text = some (.mk single [])) ∧
      (e'.tail.length = e.tail.length → e'.tail.map Prod.fst = e.tail.map Prod.fst ∧
        List.Forall₂ (fun t t' => t.SplicedTo (.mk t' [])) e.terms e'.terms) := by
  have hkept := kept_of_build htokens hprogram he
  have hreadable : e.EachTerm Term.Readable := by
    intro part hpart t ht
    obtain ⟨hformed, hoperand⟩ := hkept part hpart t ht
    refine Term.readable_of_kept hformed hoperand fun text htext hholds => ?_
    obtain ⟨inner, hinner, hoperator⟩ := hliterals part hpart t ht text htext hholds
    exact ⟨inner, hinner.readsAs, hoperator⟩
  obtain ⟨e', hread, hspliced⟩ := hreadable.splices
  have hgrouped : (∀ t ∈ e.terms, t.operand.Grouped) ↔ _ := forall₂_congr fun t ht =>
    Operand.grouped_iff_of_kept (hkept e e.mem_parts_self t ht).2
  refine ⟨e', hread.ofText?, hspliced, ?_, hspliced.length_tail_iff.trans hgrouped, fun hlength =>
    hspliced.of_grouped (hspliced.length_tail_iff.mp hlength)⟩
  obtain ⟨d, hbounded, hbuilt⟩ := hread
  exact build_of_spelled (Phrase.settled_returning d) (Phrase.spelled_returning hbounded)
    (Phrase.ofTree_returning hbuilt)

/-- A literal with an operator, one in a subscript, and a number behind a sign. -/
theorem build_splices_sample : ∃ (program : Program Unit) (e e' : Expr),
    build "workflow v() \x7b return 2 * $\x7ba + b\x7d - d[$\x7bi\x7d] + -$\x7b3\x7d \x7d" =
      .ok program ∧ e ∈ program.expressions ∧ e.text = "2 * a + b - d[i] + -3" ∧
    e.SplicedTo e' ∧ e.tail.length = 3 ∧ e'.tail.length = 4 ∧
    build ("workflow w() \x7b return " ++ e.text ++ " \x7d") =
      .ok [⟨"w", [], [.mk () (.return (some e'))]⟩] := by
  have htexts : (build
      "workflow v() \x7b return 2 * $\x7ba + b\x7d - d[$\x7bi\x7d] + -$\x7b3\x7d \x7d").toOption.map
        (fun program => program.expressions.map fun e => (e.text, e.tail.length,
          e.parts.flatMap fun part => part.terms.map fun t => t.operand.text)) =
      some [("2 * a + b - d[i] + -3", 3, ["2", "a + b", "d[i]", "3"])] := by
    decide +kernel
  have hchecked : ∀ text ∈ ["2", "a + b", "d[i]", "3"],
      (Expr.ofText? text).map (·.head.operator?) = some none ∧
        (Expr.ofText? ("(" ++ text ++ ")")).isSome = true := by
    decide +kernel
  have hlength : (Expr.ofText? "2 * a + b - d[i] + -3").map (·.tail.length) = some 4 := by
    decide +kernel
  obtain ⟨program, hprogram, hexpressions⟩ := Option.map_eq_some_iff.mp htexts
  obtain ⟨e, hsingle, hshown⟩ := List.map_eq_singleton_iff.mp hexpressions
  obtain ⟨htext, hshown⟩ := Prod.mk.inj hshown
  obtain ⟨htail, hoperands⟩ := Prod.mk.inj hshown
  have hbuild := eq_ok_of_toOption hprogram
  have he : e ∈ program.expressions := hsingle ▸ List.mem_singleton_self e
  obtain ⟨_, tokens, _, _, htokens, _⟩ := exists_phrase_of_build hbuild
  obtain ⟨e', hread, hspliced, hagain, -⟩ := build_splices htokens hbuild he
    fun part hpart t ht text hreference _ => by
      have hmem : text ∈ ["2", "a + b", "d[i]", "3"] := by
        rw [← hoperands, List.mem_flatMap]
        refine ⟨part, hpart, List.mem_map.mpr ⟨t, ht, ?_⟩⟩
        rw [hreference]
        rfl
      obtain ⟨hoperator, hparen⟩ := hchecked text hmem
      obtain ⟨inner, hinner, hnone⟩ := Option.map_eq_some_iff.mp hoperator
      exact ⟨inner, ⟨hinner, hparen⟩, fun _ => hnone⟩
  refine ⟨program, e, e', hbuild, he, htext, hspliced, htail, ?_, hagain⟩
  rw [htext] at hread
  rw [hread] at hlength
  exact Option.some.inj hlength

/-- Neither a product nor a sign in front of an expression literal reaches behind its first term. -/
theorem exists_not_grouped : ∃ (program : Program Unit) (e e' : Expr),
    build "workflow main() \x7b x = 2 * -$\x7ba + b\x7d \x7d" = .ok program ∧
      e ∈ program.expressions ∧ (Expr.ofText? "a + b").isSome = true ∧
      Expr.ofText? e.text = some e' ∧ e.terms.map Term.text = ["2", "-a + b"] ∧
      e'.terms.map Term.text = ["2", "-a", "b"] := by
  have hshown : (build "workflow main() \x7b x = 2 * -$\x7ba + b\x7d \x7d").toOption.map
      (fun program => program.expressions.map fun e => (e.terms.map Term.text,
        (Expr.ofText? e.text).map fun e' => e'.terms.map Term.text)) =
      some [(["2", "-a + b"], some ["2", "-a", "b"])] := by
    decide +kernel
  obtain ⟨program, hprogram, hexpressions⟩ := Option.map_eq_some_iff.mp hshown
  obtain ⟨e, hsingle, hboth⟩ := List.map_eq_singleton_iff.mp hexpressions
  obtain ⟨hterms, hagain⟩ := Prod.mk.inj hboth
  obtain ⟨e', he', hterms'⟩ := Option.map_eq_some_iff.mp hagain
  exact ⟨program, e, e', eq_ok_of_toOption hprogram, hsingle ▸ List.mem_singleton_self e,
    by decide +kernel, he', hterms, hterms'⟩

end Workflow
