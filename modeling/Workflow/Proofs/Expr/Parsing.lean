import Workflow.Proofs.Expr.Reading
import Workflow.Proofs.Grammar.Completeness
import Workflow.Proofs.Grammar.Soundness
import Workflow.Proofs.Layout.Expressions
import Workflow.Proofs.Layout.Parsing

/-!
# Texts that are expressions

A text is an expression if it is read as one to its end. This is so wherever delimiters stand
around it, but for a comment at its end, which would go on: then the text is no expression between
parentheses.
-/

namespace Workflow

open Token

/-- The expression that a text is, if it is nothing else. -/
def Expr.ofText? (text : String) : Option Expr := do
  let tokens ← (Token.ofSource text).toOption
  let read ← (Grammar.expression .start tokens).toOption
  if read.rest.map (·.lexeme) = [.endOfInput] then (Expr.ofNode read.value).toOption else none

/-- A text is an expression, and it is one between parentheses too, so that no comment is open at
its end. -/
def IsText (text : String) (e : Expr) : Prop :=
  Expr.ofText? text = some e ∧ (Expr.ofText? ("(" ++ text ++ ")")).isSome = true

/-- An expression is read from tokens that are alike, and what is left is alike. -/
theorem Grammar.Reads.expression_alike {s s' r : List Token} {n : Node} (hs : Alikes s s')
    (h : Grammar.Reads (Grammar.expression .start s) n r) :
    ∃ m q, Grammar.Reads (Grammar.expression .start s') m q ∧ n.Alike m ∧ Alikes r q := by
  have hagree : Grammar.Agrees Node.Alike (Grammar.expression .start s)
      (Grammar.expression .start s') := Grammar.expression_alike hs
  obtain ⟨_, hread⟩ := h
  rw [hread] at hagree
  cases hread' : Grammar.expression .start s' with
  | error e =>
    rw [hread'] at hagree
    cases hagree
  | ok found =>
    rw [hread'] at hagree
    cases hagree with
    | ok halike => exact ⟨found.value, found.rest, Grammar.reads_of_eq_ok rfl, halike.1, halike.2⟩

namespace Phrase

open Grammar

theorem endsExpression_endOfInput (stop : Position) :
    EndsExpression [⟨.endOfInput, "", stop⟩] where
  bracket := rfl
  dot := rfl
  paren := rfl
  operator := rfl

theorem Expression.reads_whole (d : Expression) (stop : Position) :
    Reads (expression .start (d.tokens ++ [⟨.endOfInput, "", stop⟩])) d.node
      [⟨.endOfInput, "", stop⟩] :=
  d.reads (endsExpression_endOfInput stop)

/-- The tokens need not be those of the phrase, only alike. -/
theorem Expression.exists_reads (d : Expression) {ts : List Token} (h : Alikes d.tokens ts)
    (stop : Position) :
    ∃ n rest, Reads (expression .start (ts ++ [⟨.endOfInput, "", stop⟩])) n rest ∧
      d.node.Alike n ∧ Alikes [⟨.endOfInput, "", stop⟩] rest :=
  (d.reads_whole stop).expression_alike (List.rel_append h (.cons ⟨rfl, rfl⟩ .nil))

end Phrase

namespace Expr

variable {text : String} {e : Expr}

theorem ofText?_of_reads {tokens rest : List Token} {n : Node}
    (htokens : Token.ofSource text = .ok tokens)
    (hread : Grammar.Reads (Grammar.expression .start tokens) n rest)
    (hrest : rest.map (·.lexeme) = [.endOfInput]) (hbuilt : Expr.ofNode n = .ok e) :
    ofText? text = some e := by
  obtain ⟨_, hread⟩ := hread
  rw [ofText?, htokens]
  show (Grammar.expression .start tokens).toOption.bind _ = some e
  rw [hread]
  show (if rest.map (·.lexeme) = [.endOfInput] then (Expr.ofNode n).toOption else none) = some e
  rw [if_pos hrest, hbuilt]
  rfl

/-- The tokens of a text that is an expression are those of a phrase. -/
theorem exists_phrase_of_ofText? (h : ofText? text = some e) :
    ∃ (d : Phrase.Expression) (stop : Position),
      Token.ofSource text = .ok (d.tokens ++ [⟨.endOfInput, "", stop⟩]) ∧ d.built = .ok e := by
  obtain ⟨tokens, htokens, h⟩ := Option.bind_eq_some_iff.mp h
  obtain ⟨read, hread, h⟩ := Option.bind_eq_some_iff.mp h
  obtain ⟨hrest, hbuilt⟩ := Option.ite_none_right_eq_some.mp h
  have htokens := eq_ok_of_toOption htokens
  obtain ⟨d, hd, hnode, -⟩ := Grammar.exists_expression
    (Grammar.reads_of_eq_ok (eq_ok_of_toOption hread))
  obtain ⟨last, hlast, hlexeme⟩ := List.map_eq_singleton_iff.mp hrest
  obtain ⟨w, stop, -, -, hw, -⟩ := Token.ofChars_append_rest htokens
  rw [hlast, hw] at hd
  obtain ⟨rfl, -⟩ := List.append_inj' hd rfl
  refine ⟨d, stop, hw ▸ htokens, ?_⟩
  rw [← d.ofNode_node, ← hnode]
  exact eq_ok_of_toOption hbuilt

end Expr

theorem map_lexeme_of_alikes {ts us : List Token} (h : Alikes ts us) :
    ts.map (·.lexeme) = us.map (·.lexeme) := by
  induction h with
  | nil => rfl
  | cons ht _ ih => rw [List.map_cons, List.map_cons, ht.1, ih]

/-- What is read as an expression in front of delimiters is that expression. -/
theorem ReadsAs.ofText? {text : String} {e : Expr} (h : ReadsAs text e) :
    Expr.ofText? text = some e := by
  obtain ⟨d, hbounded, hbuilt⟩ := h
  obtain ⟨ts, stop, halike, hsource⟩ := hbounded.ofSource
  obtain ⟨n, rest, hagain, hnode, hrest⟩ := d.exists_reads halike stop
  refine Expr.ofText?_of_reads hsource hagain (map_lexeme_of_alikes hrest).symm ?_
  have hbuilds := Expr.ofNode_agrees hnode
  rw [d.ofNode_node, hbuilt] at hbuilds
  exact hbuilds.eq_ok

/-- Behind an opening parenthesis an expression is read, and then a closing one. -/
theorem Grammar.exists_inner {t : Token} (ht : t.lexeme = .symbol .lparen) {stop : Position}
    {s q : List Token} {n : Node} (h : Grammar.Reads (Grammar.expression stop (t :: s)) n q) :
    ∃ inner close r, Grammar.Reads (Grammar.expression stop s) inner (close :: r) ∧
      close.lexeme = .symbol .rparen := by
  rw [expression, reads_bind] at h
  obtain ⟨_, _, hterm, -⟩ := h
  have hunary : accept? .unaryOperator (t :: s) = none := by
    simp [accept?, Terminal.accepts, ht, Lexeme.isUnaryOp, Lexeme.unaryOp?]
  rw [term, hunary] at hterm
  simp only [reads_bind] at hterm
  obtain ⟨_, _, hoperand, -⟩ := hterm
  rw [operand] at hoperand
  simp only [ht, Lexeme.isLiteral, Bool.false_eq_true, if_false, reads_bind, reads_after,
    reads_expect] at hoperand
  obtain ⟨inner, _, hinner, close, r, ⟨hclose, rfl⟩, -⟩ := hoperand
  exact ⟨inner, close, r, hinner, of_decide_eq_true hclose⟩

theorem Token.ofSource_paren (text : String) : Token.ofSource ("(" ++ text ++ ")") =
    (⟨.symbol .lparen, "(", .start⟩ :: ·) <$>
      ofChars false (Position.start.advance ['(']) (text.toList ++ [')']) := by
  rw [Token.ofSource, toList_enclosed]
  exact ((scanned_symbol .lparen .start).mono false).ofChars_image id (fun _ _ => rfl) .start

/-- A comment at the end of an expression would take the parenthesis behind it. -/
theorem ofText?_paren_of_openComment {text : String} {d : Phrase.Expression} {last : List Char}
    (hopen : OpenComment last) {afterValue : Bool}
    (hread : ∀ q rest, Delimited rest → ∃ w r, Alikes d.tokens w ∧
      ofChars false q (text.toList ++ rest) = (w ++ ·) <$> ofChars afterValue r (last ++ rest)) :
    Expr.ofText? ("(" ++ text ++ ")") = none := by
  by_contra hsome
  obtain ⟨e, hsome⟩ := Option.ne_none_iff_exists'.mp hsome
  obtain ⟨outer, stop, hsource, -⟩ := Expr.exists_phrase_of_ofText? hsome
  obtain ⟨w, r, halike, hread⟩ := hread (Position.start.advance ['(']) [')']
    (delimited_cons.mpr (by decide))
  rw [ofChars_openComment (hopen.append (List.forall_mem_singleton.mpr (by decide)))] at hread
  have htokens : outer.tokens ++ [⟨.endOfInput, "", stop⟩] =
      ⟨.symbol .lparen, "(", .start⟩ :: (w ++ [⟨.endOfInput, "", r.advance (last ++ [')'])⟩]) := by
    rw [Token.ofSource_paren, hread] at hsource
    exact (Except.ok.inj hsource).symm
  -- behind the parenthesis the expression is read to the end of input
  have houter := outer.reads_whole stop
  rw [htokens] at houter
  obtain ⟨_, close, rest, hinner, hclose⟩ := Grammar.exists_inner rfl houter
  obtain ⟨_, q, ⟨_, hagain⟩, -, hq⟩ := d.exists_reads halike (r.advance (last ++ [')']))
  obtain ⟨_, hinner⟩ := hinner
  cases hagain.symm.trans hinner
  cases hq with
  | cons hstop _ =>
    rw [← hstop.1] at hclose
    cases hclose

/-- A text that is an expression, also between parentheses, is read as one in front of
delimiters. -/
theorem IsText.readsAs {text : String} {e : Expr} (h : IsText text e) : ReadsAs text e := by
  obtain ⟨d, stop, hsource, hbuilt⟩ := Expr.exists_phrase_of_ofText? h.1
  obtain ⟨w, stop', afterValue, last, hw, -, hlast, hread⟩ := Token.ofChars_append_rest hsource
  obtain ⟨rfl, -⟩ := List.append_inj' hw rfl
  have hread : ∀ q rest, Delimited rest → ∃ w r, Alikes d.tokens w ∧ ofChars false q
      (text.toList ++ rest) = (w ++ ·) <$> ofChars afterValue r (last ++ rest) := by
    intro q rest hrest
    obtain ⟨w, r, halike, -, hread⟩ := hread q rest hrest
    exact ⟨w, r, halike, hread⟩
  rcases hlast with rfl | hopen
  · refine ⟨d, bounded_of_forall ?_ fun p rest hrest => ?_, hbuilt⟩
    · intro hnil
      rw [Token.ofSource, hnil, ofChars_nil] at hsource
      have hempty := (List.append_eq_singleton_iff.mp (Except.ok.inj hsource).symm).resolve_right
        fun hone => List.cons_ne_nil _ _ hone.2
      exact d.startsWith.ne_nil hempty.1
    · obtain ⟨w, q, halike, hread⟩ := hread p rest hrest
      exact ⟨w, afterValue, q, halike, hread⟩
  · have hsome := h.2
    rw [ofText?_paren_of_openComment hopen hread] at hsome
    cases hsome

end Workflow
