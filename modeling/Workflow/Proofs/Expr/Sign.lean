import Workflow.Proofs.Expr.Reading
import Workflow.Proofs.Grammar.Opening
import Workflow.Proofs.Number.Written

/-!
# A minus in front of a text

A minus in front of a text is an operator in front of its first operand, unless the text starts
with a digit: then it is the sign of the number that stands there.
-/

namespace Workflow

open Token

namespace Numeral

theorem chars_negated {n : Numeral} (h : n.isNegative = false) :
    n.negated.chars = '-' :: n.chars := by
  rw [chars_eq, chars_eq, h]
  rfl

/-- Where a digit stands, the same numeral is read with a sign in front. -/
theorem scan_minus_digit {c : Char} (hc : Decimal.isDigit c = true) (cs : List Char) :
    scan ('-' :: c :: cs) = (scan (c :: cs)).negated := by
  have hsign : c ≠ '-' := by
    rintro rfl
    exact absurd hc (by decide)
  rw [scan_minus (by simpa using hsign)]
  rfl

end Numeral

/-- A text that starts with a digit starts with a number, and so does the text with a minus in
front. What is read behind the number is the same. -/
theorem Token.ofChars_digit {c : Char} (hc : Decimal.isDigit c = true) {cs : List Char} {x : Number}
    (hx : (Numeral.scan (c :: cs)).number? = some x) :
    ∃ (y : Number) (image tail : List Char), x = y.neg ∧ ∀ rest, Delimited rest → ∀ p,
      ofChars false p (c :: cs ++ rest) = (⟨.number x, String.ofList image, p⟩ :: ·) <$>
        ofChars true (p.advance image) (tail ++ rest) ∧
      ofChars false p ('-' :: (c :: cs ++ rest)) =
        (⟨.number y, String.ofList ('-' :: image), p⟩ :: ·) <$>
          ofChars true ((p.next '-').advance image) (tail ++ rest) := by
  obtain ⟨hregular, hpositive, tail, htail⟩ := Numeral.scan_digit_spec hc cs
  obtain ⟨y, hy, hxy⟩ := Numeral.exists_number?_negated hpositive hx
  obtain ⟨body, himage, rfl⟩ : ∃ body, (Numeral.scan (c :: cs)).chars = c :: body ∧
      cs = body ++ tail := by
    cases hchars : (Numeral.scan (c :: cs)).chars with
    | nil => exact absurd hchars hregular.chars_ne_nil
    | cons d body =>
      rw [hchars] at htail
      cases htail
      exact ⟨body, rfl, rfl⟩
  refine ⟨y, c :: body, tail, hxy, fun rest hrest p => ⟨?_, ?_⟩⟩
  · have hscan : Lexeme.scan? false c (body ++ (tail ++ rest)) =
        some (.number x, body.length + 1) := by
      rw [Lexeme.scan?_numeral (by simp [Lexeme.startsNumeral, hc]), ← List.append_assoc,
        Numeral.scan_digit_append_rest hrest hc, hx, himage]
      rfl
    have hstart := startsToken_of_class (p := Decimal.isDigit) (by decide) hc
      (body ++ (tail ++ rest))
    rw [List.cons_append, List.append_assoc]
    exact ofChars_lexeme hstart hscan p
  · have hscan : Lexeme.scan? false '-' ((c :: body) ++ (tail ++ rest)) =
        some (.number y, (c :: body).length + 1) := by
      rw [List.cons_append, Lexeme.scan?_numeral (by simp [Lexeme.startsNumeral, hc]),
        Numeral.scan_minus_digit hc, ← List.append_assoc, Numeral.scan_digit_append_rest hrest hc,
        hy, Numeral.chars_negated hpositive, himage]
      rfl
    have hstart : StartsToken '-' ((c :: body) ++ (tail ++ rest)) :=
      startsToken_of_class (p := (· = '-')) (by decide) (by decide) _
    rw [List.cons_append, List.append_assoc]
    exact ofChars_lexeme hstart hscan p

theorem eq_of_map_cons {t u : Token} {us : List Token} {x y : Except LexError (List Token)}
    (h : (t :: ·) <$> x = (u :: us ++ ·) <$> y) : x = (us ++ ·) <$> y := by
  cases x with
  | error e =>
    cases y with
    | error e' =>
      cases h
      rfl
    | ok others => cases h
  | ok behind =>
    cases y with
    | error e' => cases h
    | ok others =>
      cases h
      rfl

/-- A minus in front of a text that starts with a digit is the sign of a number. -/
theorem Bounded.sign {c : Char} (hc : Decimal.isDigit c = true) {cs : List Char} {t : Token}
    {ts : List Token} (h : Bounded false (c :: cs) (t :: ts)) :
    ∃ (y : Number) (image : String), t.lexeme = .number y.neg ∧
      Bounded false ('-' :: c :: cs) (⟨.number y, image, .start⟩ :: ts) := by
  obtain ⟨ts', a, q, halike, halone⟩ := h.reads false .start [] id delimited_nil
  rw [ofChars_nil] at halone
  cases hx : (Numeral.scan (c :: cs)).number? with
  | none =>
    have hscan : Lexeme.scan? false c cs = none := by
      rw [Lexeme.scan?_numeral (by simp [Lexeme.startsNumeral, hc]), hx]
      rfl
    rw [List.append_nil, ofChars_error (startsToken_of_class (by decide) hc cs) hscan] at halone
    cases halone
  | some x =>
    obtain ⟨y, image, tail, rfl, hread⟩ := Token.ofChars_digit hc hx
    refine ⟨y, String.ofList ('-' :: image), ?_, bounded_of_forall (List.cons_ne_nil _ _) ?_⟩
    · rw [(hread [] delimited_nil .start).1] at halone
      obtain ⟨others, _, hothers⟩ := map_eq_ok.mp halone
      cases halike with
      | cons ht _ =>
        cases hothers
        exact ht.1
    · intro p rest hrest
      obtain ⟨us, b, r, hus, hbehind⟩ := h.reads false (p.next '-') rest id hrest
      cases hus with
      | @cons _ u _ us _ hus =>
        refine ⟨⟨.number y, String.ofList ('-' :: image), p⟩ :: us, b, r, .cons ⟨rfl, rfl⟩ hus, ?_⟩
        -- the two readings differ in the first token only
        rw [(hread rest hrest (p.next '-')).1] at hbehind
        rw [List.cons_append, (hread rest hrest p).2, eq_of_map_cons hbehind]
        exact map_append_map [_] us _

/-! ## Operators in front of texts -/

namespace Phrase

open Grammar

/-- Only a literal starts with a number. -/
theorem Operand.eq_literal_of_number (d : Operand) {t : Token} {ts : List Token} {x : Number}
    (htokens : d.tokens = t :: ts) (ht : t.lexeme = .number x) :
    ∃ value : Tok .literal, d = .literal value ∧ primitiveOf value = .number x := by
  have hname (h : StartsWith Lexeme.isIdentifier d.tokens) : False := by
    obtain ⟨name, rest, hsame, hidentifier⟩ := h
    cases htokens.symm.trans hsame
    rw [ht] at hidentifier
    cases hidentifier
  have hsign {s : Symbol} {sign : Sign s} (hsign : sign.val = t) : False := by
    have hsymbol := lexeme_sign sign
    rw [hsign, ht] at hsymbol
    cases hsymbol
  match d with
  | .literal ⟨value, hvalue⟩ =>
    cases htokens
    refine ⟨_, rfl, ?_⟩
    obtain ⟨lexeme, image, p⟩ := value
    cases ht
    rfl
  | .array start items => exact (hsign (List.cons.inj htokens).1).elim
  | .object start entries => exact (hsign (List.cons.inj htokens).1).elim
  | .paren start inner stop => exact (hsign (List.cons.inj htokens).1).elim
  | .expression ⟨token, text, htext⟩ =>
    cases htokens
    rw [ht] at htext
    cases htext
  | .reference place => exact (hname place.startsWith).elim
  | .call name start args => exact (hname (name.startsWith.append _)).elim

end Phrase

/-- A minus in front of a text that starts with a digit is the sign of the number there. -/
theorem readsAs_sign {text : String} {c : Char} {cs : List Char} (htext : text.toList = c :: cs)
    (hc : Decimal.isDigit c = true) {o : Operand} {tail : List (BinaryOp × Term)}
    (h : ReadsAs text (.mk (.mk none o) tail)) :
    ∃ n : Number, o = .primitive (.number n.neg) ∧
      ReadsAs (UnaryOp.minus.leading ++ text) (.mk (.mk none (.primitive (.number n))) tail) := by
  obtain ⟨⟨head, others⟩, hbounded, hbuilt⟩ := h
  rw [Phrase.Expression.built] at hbuilt
  obtain ⟨t, ht, hbuilt⟩ := bind_eq_ok.mp hbuilt
  obtain ⟨own, hown, hbuilt⟩ := bind_eq_ok.mp hbuilt
  cases hbuilt
  obtain ⟨operand, rfl, hoperand⟩ := Phrase.Term.exists_plain ht
  obtain ⟨first, ts, hfirst⟩ := List.exists_cons_of_ne_nil operand.startsWith.ne_nil
  rw [htext, Phrase.Expression.tokens, Phrase.Term.tokens, hfirst, List.cons_append] at hbounded
  obtain ⟨n, image, hnumber, hsigned⟩ := hbounded.sign hc
  obtain ⟨value, rfl, hvalue⟩ := operand.eq_literal_of_number hfirst hnumber
  cases hoperand
  cases hfirst
  refine ⟨n, congrArg Operand.primitive hvalue, ?_⟩
  refine ⟨.mk (.plain (.literal ⟨⟨.number n, image, .start⟩, rfl⟩)) others, ?_, ?_⟩
  · rw [String.toList_append, htext]
    exact hsigned
  · rw [Phrase.Expression.built, hown]
    rfl

/-- What an operator and the operand behind it are read as: the operator is kept, or a minus goes
into the number behind it. -/
inductive UnaryOp.Joined : UnaryOp → Operand → Term → Prop
  | kept (op : UnaryOp) (o : Operand) : Joined op o (.mk (some op) o)
  | sign (n : Number) :
    Joined .minus (.primitive (.number n.neg)) (.mk none (.primitive (.number n)))

/-- An operator in front of a text goes to its first operand, and to nothing behind it. -/
theorem exists_readsAs_unary (op : UnaryOp) {text : String} {o : Operand}
    {tail : List (BinaryOp × Term)} (h : ReadsAs text (.mk (.mk none o) tail)) :
    ∃ t, op.Joined o t ∧ ReadsAs (op.leading ++ text) (.mk t tail) := by
  obtain ⟨c, cs, htext⟩ : ∃ c cs, text.toList = c :: cs := by
    obtain ⟨d, hbounded, -⟩ := h
    exact List.exists_cons_of_ne_nil hbounded.chars_ne_nil
  by_cases hsign : op = .minus ∧ Decimal.isDigit c = true
  · obtain ⟨rfl, hc⟩ := hsign
    obtain ⟨n, rfl, hread⟩ := readsAs_sign htext hc h
    exact ⟨_, .sign n, hread⟩
  · refine ⟨_, .kept op o, readsAs_unary h fun hminus => ?_⟩
    rw [htext]
    exact stopsAt_cons.mpr (Bool.eq_false_of_not_eq_true fun hc => hsign ⟨hminus, hc⟩)

end Workflow
