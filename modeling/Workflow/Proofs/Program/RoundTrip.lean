import Workflow.Proofs.Grammar.Language
import Workflow.Proofs.Layout.Invariance
import Workflow.Proofs.Program.Built

/-!
# Texts of expressions are built again

The text of an expression of a program is put into a program of its own, which returns it. Building
that program gives the expression back, with the signs of positive integers folded into them.
-/

namespace Workflow

open Token

/-! ## Tokens without negated zeros -/

/-- Somewhere a minus stands directly in front of a zero, and no value has ended in front of the
minus, so that it is a sign. -/
def NegatesZero (ts : List Token) : Prop :=
  ∃ i < ts.length, ts[i]?.map (·.lexeme) = some (.symbol .minus) ∧
    ts[i + 1]?.map (·.lexeme) = some (.number (.int 0)) ∧ lastEndsValue (ts.take i) = false

instance (ts : List Token) : Decidable (NegatesZero ts) :=
  inferInstanceAs (Decidable (∃ i < ts.length, _))

theorem NegatesZero.append {ts : List Token} (h : NegatesZero ts) (us : List Token) :
    NegatesZero (ts ++ us) := by
  obtain ⟨i, hi, hminus, hnumber, hends⟩ := h
  have hi' : i + 1 < ts.length := by
    by_contra hle
    rw [List.getElem?_eq_none (Nat.not_lt.mp hle)] at hnumber
    cases hnumber
  refine ⟨i, by rw [List.length_append]; omega, ?_, ?_, ?_⟩
  · rw [List.getElem?_append_left hi]
    exact hminus
  · rw [List.getElem?_append_left hi']
    exact hnumber
  · rw [List.take_append_of_le_length (Nat.le_of_lt hi)]
    exact hends

theorem plainTokens_of_forall {ts : List Token} (hplain : ∀ t ∈ ts, t.Plain)
    (hzero : ¬ NegatesZero ts) : PlainTokens false ts := by
  -- by induction on the tokens, where a value may have ended in front of them or not
  suffices h : ∀ afterValue, (∀ i < ts.length, ts[i]?.map (·.lexeme) = some (.symbol .minus) →
      ts[i + 1]?.map (·.lexeme) = some (.number (.int 0)) →
      ((ts.take i).getLast?.map (·.lexeme.endsValue)).getD afterValue = true) →
      PlainTokens afterValue ts by
    refine h false fun i hi hminus hnumber => ?_
    by_contra hends
    exact hzero ⟨i, hi, hminus, hnumber, Bool.not_eq_true _ ▸ hends⟩
  clear hzero
  induction ts with
  | nil => exact fun _ _ => trivial
  | cons t rest ih =>
    intro afterValue h
    refine ⟨hplain t List.mem_cons_self, fun hav hminus u hu hnumber => ?_,
      ih (fun u hu => hplain u (List.mem_cons_of_mem t hu)) t.lexeme.endsValue
        fun i hi hminus hnumber => ?_⟩
    · have hnext : (t :: rest)[0 + 1]?.map (·.lexeme) = some (.number (.int 0)) := by
        rw [List.getElem?_cons_succ, ← List.head?_eq_getElem?, hu]
        exact congrArg some hnumber
      have hends := h 0 (Nat.zero_lt_succ _) (congrArg some hminus) hnext
      exact absurd (hav.symm.trans hends) Bool.false_ne_true
    · have hends := h (i + 1) (Nat.succ_lt_succ hi) hminus hnumber
      rw [List.take_succ_cons, List.getLast?_cons] at hends
      cases hlast : (rest.take i).getLast? with
      | none => simpa [hlast] using hends
      | some last => simpa [hlast] using hends

/-! ## Plain expressions -/

theorem PlainTokens.append_behind {afterValue : Bool} {ts us : List Token}
    (h : PlainTokens afterValue (ts ++ us)) :
    PlainTokens ((ts.getLast?.map (·.lexeme.endsValue)).getD afterValue) us := by
  induction ts generalizing afterValue with
  | nil => exact h
  | cons t rest ih =>
    rw [List.getLast?_cons]
    have hrest := ih h.2.2
    cases hlast : rest.getLast? with
    | none => simpa [hlast] using hrest
    | some last => simpa [hlast] using hrest

/-- Behind a value, too, a name that comes first is no sign. -/
theorem PlainTokens.of_startsWith {afterValue : Bool} {ts : List Token}
    (h : PlainTokens afterValue ts)
    (hstart : afterValue = true → Phrase.StartsWith Lexeme.isIdentifier ts) :
    PlainTokens false ts := by
  cases afterValue with
  | false => exact h
  | true =>
    obtain ⟨t, rest, rfl, ht⟩ := hstart rfl
    refine ⟨h.1, fun _ hminus => ?_, h.2.2⟩
    rw [hminus] at ht
    cases ht

theorem Expr.Source.plain {tokens : List Token} (h : PlainTokens false tokens) {e : Expr}
    (he : e.Source tokens) : e.Plain := by
  cases he with
  | @phrase d e afterValue hamong hstart hb =>
    obtain ⟨front, back, rfl, rfl⟩ := hamong
    exact d.plain_built (h.append_left.append_behind.of_startsWith hstart) hb
  | temporary hname => exact Expr.plain_ofOperand (readsReference_name hname)
  | always => exact Expr.plain_ofOperand trivial

/-- Every expression that occurs in a program is plain if the program is built from plain tokens. -/
theorem Program.plain_of_mem_expressions {p : Phrase.Program} {stop : Position}
    {program : Program Unit} (h : PlainTokens false p.tokens) (hs : p.Settled)
    (hb : Program.ofTree (p.node stop) = .ok program) {e : Expr}
    (he : e ∈ program.expressions) : e.Plain := by
  rw [Phrase.Program.ofTree_node] at hb
  obtain ⟨⟨built, count⟩, hrun, rfl⟩ := map_eq_ok.mp hb
  have hbuilt := p.builtFrom h.named (.self p.tokens) hs 0 built count hrun
  obtain ⟨whole, hsource, hpart⟩ := Program.exists_source hbuilt he
  exact (hsource.plain h).of_mem_parts hpart

/-! ## A program that returns an expression -/

/-- The program `w` without parameters that returns an expression. -/
def Phrase.returning (d : Phrase.Expression) : Phrase.Program :=
  [.mk (wordToken .workflow) (nameToken "w") (signToken .lparen) (.none (signToken .rparen))
    (.mk (signToken .lbrace) (.cons (.returnValue (wordToken .return) d) .nil)
      (signToken .rbrace))]

theorem Phrase.settled_returning (d : Phrase.Expression) :
    Phrase.Program.Settled (Phrase.returning d) :=
  List.forall_mem_singleton.mpr ⟨trivial, trivial⟩

theorem Phrase.ofTree_returning {d : Phrase.Expression} {e : Expr} (h : d.built = .ok e)
    (stop : Position) : Program.ofTree (Phrase.Program.node stop (Phrase.returning d)) =
      .ok [⟨"w", [], [.mk () (.return (some e))]⟩] := by
  rw [Phrase.Program.ofTree_node, Phrase.returning, Phrase.Program.built, Phrase.Program.built,
    Phrase.Definition.built, Phrase.Block.built, Phrase.Statements.built, Phrase.Statements.built,
    Phrase.Statement.built, h]
  rfl

theorem Phrase.spelled_returning {d : Phrase.Expression} {text : String}
    (h : Bounded false text.toList d.tokens) :
    Spelled false ("workflow w() \x7b return " ++ text ++ " \x7d").toList
      (Phrase.Program.tokens (Phrase.returning d)) := by
  have hw : IsName "w" := ⟨'w', [], rfl, by decide, List.forall_mem_nil _, by decide⟩
  have hclose := (spelled_token (scanned_symbol .rbrace .start)).blank
  have hvalue := h.append_spelled hclose (delimited_cons.mpr (by decide))
  have hreturn := Spelled.cons (scanned_keyword .return .start) hvalue.blank
    (stopsAt_cons.mpr (by decide)) (by decide)
  have hbody := Spelled.cons (scanned_symbol .lbrace .start) hreturn.blank (fun _ _ => rfl)
    fun _ => rfl
  have hstop := Spelled.cons (scanned_symbol .rparen .start) hbody.blank (fun _ _ => rfl)
    fun _ => rfl
  have hstart := Spelled.cons (scanned_symbol .lparen .start) hstop (fun _ _ => rfl) fun _ => rfl
  have hname := Spelled.cons (scanned_name hw .start) hstart (stopsAt_cons.mpr (by decide))
    fun _ => rfl
  have hall := Spelled.cons ((scanned_keyword .workflow .start).mono false) hname.blank
    (stopsAt_cons.mpr (by decide)) fun _ => rfl
  have hchars : ("workflow w() \x7b return " ++ text ++ " \x7d").toList =
      "workflow".toList ++ ' ' :: ("w".toList ++ ("(".toList ++ (")".toList ++ ' ' ::
        ("\x7b".toList ++ ' ' :: ("return".toList ++ ' ' ::
          (text.toList ++ ' ' :: "\x7d".toList)))))) := by
    rw [toList_enclosed]
    simp
  have htokens : Phrase.Program.tokens (Phrase.returning d) = (wordToken .workflow).val ::
      (nameToken "w").val :: (signToken .lparen).val :: (signToken .rparen).val ::
      (signToken .lbrace).val :: (wordToken .return).val ::
      (d.tokens ++ [(signToken .rbrace).val]) := by
    simp [Phrase.Program.tokens, Phrase.returning, Phrase.Definition.tokens,
      Phrase.ParametersUpTo.tokens, Phrase.Block.tokens, Phrase.Statements.tokens,
      Phrase.Statement.tokens]
  rw [hchars, htokens]
  exact hall

/-- A text that spells the tokens of a program is built into that program. -/
theorem build_of_spelled {p : Phrase.Program} (hsettled : p.Settled) {source : String}
    (h : Spelled false source.toList p.tokens) {program : Program Unit}
    (hprogram : ∀ stop, Program.ofTree (p.node stop) = .ok program) :
    build source = .ok program := by
  -- the tokens of the text differ from those of the phrase in positions only
  obtain ⟨ts, stop, halike, hread⟩ := h.ofSource
  have hread' : ofChars false (.behind []) source.toList =
      .ok (ts ++ [⟨.endOfInput, "", stop⟩]) := hread
  obtain ⟨w, q, hw, hne⟩ := (tiling_ofChars hread').2.exists_stop
  obtain ⟨rfl, -⟩ := List.append_inj' hw rfl
  have hne' : ∀ t ∈ p.tokens, t.lexeme ≠ .endOfInput := by
    intro t ht
    have hmem := List.mem_map_of_mem (f := fun t : Token => (t.lexeme, t.image)) ht
    rw [← map_lexeme_image halike] at hmem
    obtain ⟨t', ht', hsame⟩ := List.mem_map.mp hmem
    have hlexeme : t'.lexeme = t.lexeme := congrArg Prod.fst hsame
    rw [← hlexeme]
    exact hne t' ht'
  have hparse : Node.ofTokens (p.tokens ++ [⟨.endOfInput, "", stop⟩]) = .ok (p.node stop) :=
    (ofTokens_eq_ok_iff hne' rfl).mpr ⟨p, hsettled, rfl, rfl⟩
  have hbuilt : parseTokens (p.tokens ++ [⟨.endOfInput, "", stop⟩]) >>= buildProgram =
      .ok program := by
    rw [parseTokens, hparse]
    show buildProgram (p.node stop) = _
    rw [buildProgram, hprogram]
    rfl
  have hagree := buildProgram_agrees (List.rel_append halike
    (.cons ⟨rfl, rfl⟩ .nil : Alikes [⟨.endOfInput, "", stop⟩] [⟨.endOfInput, "", stop⟩]))
  rw [hbuilt] at hagree
  have hsource : build source =
      parseTokens (ts ++ [⟨.endOfInput, "", stop⟩]) >>= buildProgram := by
    rw [build, parse, tokenize, hread]
    rfl
  rw [hsource]
  exact hagree.eq_ok

/-- The text of an expression is built into that expression again, with the signs of positive
integers folded into them: for every expression of a program whose source text has no expression
literal, only integers for numbers and no zero directly behind a sign. -/
theorem build_text {source : String} {tokens : List Token} {program : Program Unit} {e : Expr}
    (htokens : tokenize source = .ok tokens) (hprogram : build source = .ok program)
    (hexpression : ∀ t ∈ tokens, ∀ text, t.lexeme ≠ .expression text)
    (hinteger : ∀ t ∈ tokens, ∀ x, t.lexeme = .number x → ∃ n, x = .int n)
    (hzero : ¬ NegatesZero tokens) (he : e ∈ program.expressions) :
    build ("workflow w() \x7b return " ++ e.text ++ " \x7d") =
      .ok [⟨"w", [], [.mk () (.return (some e.folded))]⟩] := by
  have hread : ofChars false (.behind []) source.toList = .ok tokens := mapError_eq_ok.mp htokens
  have hchain := (tiling_ofChars hread).2
  obtain ⟨w, stop, rfl, hne⟩ := hchain.exists_stop
  -- the first half: whatever is built from these tokens is plain
  have hplain : ∀ t ∈ w, t.Plain := by
    intro t ht
    have hmem := List.mem_append_left [⟨.endOfInput, "", stop⟩] ht
    refine ⟨hchain.scanned t hmem (hne t ht), hexpression t hmem, fun x hx => ?_⟩
    obtain ⟨n, hn⟩ := hinteger t hmem _ hx
    cases hn
  obtain ⟨p, rfl, hsettled, hbuilt⟩ : ∃ p : Phrase.Program, p.tokens = w ∧ p.Settled ∧
      Program.ofTree (p.node stop) = .ok program := by
    rw [build, parse, htokens] at hprogram
    obtain ⟨tree, htree, hbuild⟩ := bind_eq_ok.mp hprogram
    obtain ⟨p, hsettled, hp, rfl⟩ := (ofTokens_eq_ok_iff hne rfl).mp (mapError_eq_ok.mp htree)
    exact ⟨p, hp, hsettled, mapError_eq_ok.mp hbuild⟩
  have hw : PlainTokens false p.tokens :=
    plainTokens_of_forall hplain fun hnegates => hzero (hnegates.append _)
  -- the second half: the text of a plain expression is read back
  obtain ⟨d, hspelled, hagain⟩ := (Program.plain_of_mem_expressions hw hsettled hbuilt he).readable
  exact build_of_spelled (Phrase.settled_returning d) (Phrase.spelled_returning hspelled)
    (Phrase.ofTree_returning hagain)

/-- A subscript, a zero behind a minus that is an operator, and a sign that is folded. -/
theorem build_text_sample : ∃ (program : Program Unit) (e : Expr),
    build "workflow v() \x7b return a[i - 0] + - 5 \x7d" = .ok program ∧
      e ∈ program.expressions ∧ e.text = "a[i - 0] + -5" ∧
      build ("workflow w() \x7b return " ++ e.text ++ " \x7d") =
        .ok [⟨"w", [], [.mk () (.return (some e.folded))]⟩] := by
  let tokens : List Token := [(Lexeme.keyword .workflow, "workflow", 0), (.identifier "v", "v", 9),
    (.symbol .lparen, "(", 10), (.symbol .rparen, ")", 11), (.symbol .lbrace, "\x7b", 13),
    (.keyword .return, "return", 15), (.identifier "a", "a", 22), (.symbol .lbracket, "[", 23),
    (.identifier "i", "i", 24), (.symbol .minus, "-", 26), (.number (.int 0), "0", 28),
    (.symbol .rbracket, "]", 29), (.symbol .plus, "+", 31), (.symbol .minus, "-", 33),
    (.number (.int 5), "5", 35), (.symbol .rbrace, "\x7d", 37), (.endOfInput, "", 38)].map
      fun (lexeme, image, offset) => ⟨lexeme, image, ⟨offset, 1, offset + 1⟩⟩
  have htokens : tokenize "workflow v() \x7b return a[i - 0] + - 5 \x7d" = .ok tokens :=
    eq_ok_of_toOption (by decide +kernel)
  have htexts : (build "workflow v() \x7b return a[i - 0] + - 5 \x7d").toOption.map
      (·.expressions.map Expr.text) = some ["a[i - 0] + -5"] := by
    decide +kernel
  obtain ⟨program, hprogram, hexpressions⟩ := Option.map_eq_some_iff.mp htexts
  obtain ⟨e, he, htext⟩ : ∃ e ∈ program.expressions, e.text = "a[i - 0] + -5" := by
    rw [← List.mem_map, hexpressions]
    exact List.mem_singleton_self _
  have hbuild := eq_ok_of_toOption hprogram
  refine ⟨program, e, hbuild, he, htext, build_text htokens hbuild ?_ ?_ ?_ he⟩
  · simp [tokens]
  · simp [tokens]
  · decide

end Workflow
