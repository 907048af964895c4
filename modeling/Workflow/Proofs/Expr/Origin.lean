import Workflow.Proofs.Expr.Reference

/-!
# Where plain expressions come from

Expressions are plain if they are built from tokens of a text, and neither an expression literal,
nor a floating-point number, nor a zero behind a sign is among the tokens.
-/

namespace Workflow

open Token

/-! ## Plain tokens -/

/-- A token of a text that is neither an expression literal nor a floating-point number. -/
structure Token.Plain (t : Token) : Prop where
  scanned : ∃ afterValue, Scanned afterValue t
  not_expression : ∀ text, t.lexeme ≠ .expression text
  not_float : ∀ x, t.lexeme ≠ .number (.float x)

/-- Plain tokens, no zero among them behind a minus that is a sign. A minus is a sign where no
value has just ended. -/
def PlainTokens (afterValue : Bool) : List Token → Prop
  | [] => True
  | t :: rest => t.Plain ∧
      (afterValue = false → t.lexeme = .symbol .minus →
        ∀ u ∈ rest.head?, u.lexeme ≠ .number (.int 0)) ∧
      PlainTokens t.lexeme.endsValue rest

namespace PlainTokens

variable {afterValue : Bool} {ts us : List Token}

theorem append_left (h : PlainTokens afterValue (ts ++ us)) : PlainTokens afterValue ts := by
  induction ts generalizing afterValue with
  | nil => trivial
  | cons t rest ih =>
    refine ⟨h.1, fun hav hminus u hu => h.2.1 hav hminus u ?_, ih h.2.2⟩
    cases rest with
    | nil => cases hu
    | cons v others => exact hu

theorem append_right (h : PlainTokens afterValue (ts ++ us)) :
    ∃ afterValue', PlainTokens afterValue' us := by
  induction ts generalizing afterValue with
  | nil => exact ⟨afterValue, h⟩
  | cons t rest ih => exact ih h.2.2

theorem behind_sign {s : Symbol} {t : Phrase.Sign s} (h : PlainTokens afterValue (t.val :: ts))
    (hs : (Lexeme.symbol s).endsValue = false) : PlainTokens false ts := by
  have hrest := h.2.2
  rw [Phrase.lexeme_sign, hs] at hrest
  exact hrest

end PlainTokens

theorem Token.Plain.isName {t : Phrase.Tok .identifier} (h : t.val.Plain) :
    IsName t.val.image := by
  obtain ⟨afterValue, hscanned⟩ := h.scanned
  exact (isName_of_scanned hscanned t.property).2

theorem PlainTokens.named {afterValue : Bool} {ts : List Token} (h : PlainTokens afterValue ts) :
    NamedTokens ts := by
  induction ts generalizing afterValue with
  | nil => exact List.forall_mem_nil _
  | cons t rest ih =>
    exact namedTokens_cons.mpr ⟨fun ht => Plain.isName (t := ⟨t, ht⟩) h.1, ih h.2.2⟩

/-! ## Expressions -/

theorem Expr.plainEntries_of_forall {entries : List (String × Expr)}
    (h : ∀ entry ∈ entries, entry.2.Plain) : Expr.PlainEntries entries := by
  induction entries with
  | nil => trivial
  | cons entry rest ih =>
    exact ⟨h entry List.mem_cons_self, ih fun other hother =>
      h other (List.mem_cons_of_mem entry hother)⟩

namespace Phrase

open Grammar

theorem endsValue_binaryOperator (t : Tok .binaryOperator) :
    t.val.lexeme.endsValue = false := by
  obtain ⟨⟨l, image, p⟩, h⟩ := t
  cases l with
  | symbol s => cases s with
    | rparen | rbracket | rbrace => cases h
    | _ => rfl
  | keyword w => cases w with
    | true | false | null => cases h
    | _ => rfl
  | _ => cases h

theorem lexeme_of_unaryOpOf_minus {t : Tok .unaryOperator} (h : unaryOpOf t = .minus) :
    t.val.lexeme = .symbol .minus := by
  obtain ⟨⟨l, image, p⟩, ht⟩ := t
  cases l with
  | symbol s => cases s with
    | minus => rfl
    | plus => cases h
    | _ => cases ht
  | keyword w => cases w with
    | not => cases h
    | _ => cases ht
  | _ => cases ht

theorem plain_primitiveOf {t : Tok .literal} (h : t.val.Plain) :
    (Workflow.Operand.primitive (primitiveOf t)).Plain := by
  obtain ⟨⟨l, image, p⟩, ht⟩ := t
  cases l with
  | string s => trivial
  | number x => cases x with
    | int n => trivial
    | float x => exact absurd rfl (h.not_float x)
  | keyword w => cases w with
    | true | false | null => trivial
    | _ => cases ht
  | _ => cases ht

theorem lexeme_of_primitiveOf_isZero {t : Tok .literal}
    (h : (Workflow.Operand.primitive (primitiveOf t)).isZero = true) :
    t.val.lexeme = .number (.int 0) := by
  obtain ⟨⟨l, image, p⟩, ht⟩ := t
  cases l with
  | string s => cases h
  | number x => cases x with
    | int n =>
      have hn : n = 0 := of_decide_eq_true h
      rw [hn]
    | float x => cases h
  | keyword w => cases w with
    | true | false | null => cases h
    | _ => cases ht
  | _ => cases ht

/-- Only the literal zero is built into zero. -/
theorem Operand.head?_of_isZero {d : Operand} {o : Workflow.Operand} (hb : d.built = .ok o)
    (h : o.isZero = true) : ∃ t : Token, t ∈ d.tokens.head? ∧ t.lexeme = .number (.int 0) := by
  cases d with
  | literal value =>
    cases hb
    exact ⟨value.val, rfl, lexeme_of_primitiveOf_isZero h⟩
  | expression token =>
    cases hb
    cases h
  | array start items | object start entries | paren start inner stop | reference d
  | call name start args =>
    rw [Operand.built] at hb
    obtain ⟨value, -, hb⟩ := bind_eq_ok.mp hb
    cases hb
    cases h

mutual

/-- An expression of plain tokens is plain. -/
theorem Expression.plain_built (d : Expression) {e : Expr} (h : PlainTokens false d.tokens)
    (hb : d.built = .ok e) : e.Plain := by
  match d with
  | .mk head tail =>
    rw [Expression.tokens] at h
    rw [Expression.built] at hb
    obtain ⟨t, ht, hb⟩ := bind_eq_ok.mp hb
    obtain ⟨others, hothers, hb⟩ := bind_eq_ok.mp hb
    cases hb
    obtain ⟨_, htail⟩ := h.append_right
    exact ⟨head.plain_built h.append_left ht, tail.plain_built htail hothers⟩

theorem Operations.plain_built (d : Operations) {afterValue : Bool}
    {tail : List (BinaryOp × Workflow.Term)} (h : PlainTokens afterValue d.tokens)
    (hb : d.built = .ok tail) : Expr.PlainTail tail := by
  match d with
  | .nil =>
    cases hb
    trivial
  | .cons operator term rest =>
    rw [Operations.tokens] at h
    rw [Operations.built] at hb
    obtain ⟨t, ht, hb⟩ := bind_eq_ok.mp hb
    obtain ⟨others, hothers, hb⟩ := bind_eq_ok.mp hb
    cases hb
    -- an operator ends no value, so that a minus behind it is a sign
    have hterm := h.2.2
    rw [endsValue_binaryOperator] at hterm
    obtain ⟨_, htail⟩ := hterm.append_right
    exact ⟨term.plain_built hterm.append_left ht, rest.plain_built htail hothers⟩

theorem Term.plain_built (d : Term) {t : Workflow.Term} (h : PlainTokens false d.tokens)
    (hb : d.built = .ok t) : t.Plain := by
  match d with
  | .plain operand =>
    rw [Term.tokens] at h
    rw [Term.built] at hb
    obtain ⟨o, ho, hb⟩ := bind_eq_ok.mp hb
    cases hb
    exact Term.plain_none (operand.plain_built h ho)
  | .unary operator operand =>
    rw [Term.tokens] at h
    rw [Term.built] at hb
    obtain ⟨o, ho, hb⟩ := bind_eq_ok.mp hb
    cases hb
    refine ⟨operand.plain_built h.2.2 ho, fun hminus => ?_⟩
    have hsign := lexeme_of_unaryOpOf_minus (Option.some.inj hminus)
    by_contra hzero
    obtain ⟨u, hu, hlexeme⟩ := Operand.head?_of_isZero ho (Bool.not_eq_false _ ▸ hzero)
    exact h.2.1 rfl hsign u hu hlexeme

theorem Operand.plain_built (d : Operand) {afterValue : Bool} {o : Workflow.Operand}
    (h : PlainTokens afterValue d.tokens) (hb : d.built = .ok o) : o.Plain := by
  match d with
  | .literal value =>
    cases hb
    exact plain_primitiveOf h.1
  | .array start items =>
    rw [Operand.tokens] at h
    rw [Operand.built] at hb
    obtain ⟨found, hfound, hb⟩ := bind_eq_ok.mp hb
    cases hb
    exact items.plain_built (h.behind_sign rfl) hfound
  | .object start entries =>
    rw [Operand.tokens] at h
    rw [Operand.built] at hb
    obtain ⟨pairs, hpairs, hb⟩ := bind_eq_ok.mp hb
    cases hb
    -- of entries with one name the last is kept, so that the names differ
    have hplain := entries.plain_built h.2.2 hpairs
    exact ⟨Expr.plainEntries_of_forall fun entry hentry =>
      hplain entry (Fields.mem_of_mem_ofPairs hentry), Fields.nodup_names_ofPairs pairs⟩
  | .paren start inner stop =>
    rw [Operand.tokens] at h
    rw [Operand.built] at hb
    obtain ⟨e, he, hb⟩ := bind_eq_ok.mp hb
    cases hb
    exact inner.plain_built (h.behind_sign rfl).append_left he
  | .expression token =>
    obtain ⟨text, htext⟩ := token.property
    exact absurd htext (h.1.not_expression text)
  | .reference reference =>
    rw [Operand.tokens] at h
    rw [Operand.built] at hb
    obtain ⟨parts, hparts, hb⟩ := bind_eq_ok.mp hb
    cases hb
    obtain ⟨part, rest, rfl, hpart, hrest⟩ := reference.exists_parts h hparts
    exact readsReference_intercalate hpart (List.forall₂_same.mpr hrest)
  | .call name start args =>
    rw [Operand.tokens] at h
    rw [Operand.built] at hb
    obtain ⟨found, hfound, hb⟩ := bind_eq_ok.mp hb
    cases hb
    obtain ⟨_, hargs⟩ := h.append_right
    exact ⟨(name.joinsNames h.append_left.named).isDottedName,
      args.plain_built (hargs.behind_sign rfl) hfound⟩

theorem Reference.exists_parts (d : Reference) {afterValue : Bool} {parts : List String}
    (h : PlainTokens afterValue d.tokens) (hb : d.partTexts = .ok parts) :
    ∃ part rest, parts = part :: rest ∧ ReadsPart part part ∧ ∀ s ∈ rest, ReadsPart s s := by
  match d with
  | .last part =>
    rw [Reference.tokens] at h
    rw [Reference.partTexts] at hb
    obtain ⟨text, htext, hb⟩ := bind_eq_ok.mp hb
    cases hb
    exact ⟨text, [], rfl, part.readsPart h htext, List.forall_mem_nil _⟩
  | .dotted part dot rest =>
    rw [Reference.tokens] at h
    rw [Reference.partTexts] at hb
    obtain ⟨text, htext, hb⟩ := bind_eq_ok.mp hb
    obtain ⟨others, hothers, hb⟩ := bind_eq_ok.mp hb
    cases hb
    obtain ⟨_, hrest⟩ := h.append_right
    obtain ⟨second, more, rfl, hsecond, hmore⟩ := rest.exists_parts hrest.2.2 hothers
    exact ⟨text, second :: more, rfl, part.readsPart h.append_left htext,
      List.forall_mem_cons.mpr ⟨hsecond, hmore⟩⟩

theorem Part.readsPart (d : Part) {afterValue : Bool} {text : String}
    (h : PlainTokens afterValue d.tokens) (hb : d.text = .ok text) : ReadsPart text text := by
  match d with
  | .mk name subscripts =>
    rw [Part.tokens] at h
    rw [Part.text] at hb
    obtain ⟨found, hfound, hb⟩ := bind_eq_ok.mp hb
    cases hb
    exact readsPart_append h.1.isName (subscripts.readsSubscripts h.2.2 hfound)

theorem Subscripts.readsSubscripts (d : Subscripts) {afterValue : Bool} {text : String}
    (h : PlainTokens afterValue d.tokens) (hb : d.text = .ok text) : ReadsSubscripts text text := by
  match d with
  | .nil =>
    cases hb
    exact readsSubscripts_nil
  | .cons start index stop rest =>
    rw [Subscripts.tokens] at h
    rw [Subscripts.text] at hb
    obtain ⟨e, he, hb⟩ := bind_eq_ok.mp hb
    obtain ⟨text, htext, hb⟩ := bind_eq_ok.mp hb
    obtain ⟨others, hothers, hb⟩ := bind_eq_ok.mp hb
    cases hb
    have hindex := h.behind_sign rfl
    obtain ⟨_, hrest⟩ := hindex.append_right
    have hplain := index.plain_built hindex.append_left he
    exact readsSubscripts_cons (readsIndex_of_plain hplain htext)
      (rest.readsSubscripts hrest.2.2 hothers)

theorem Arguments.plain_built (d : Arguments) {items : List Expr} (h : PlainTokens false d.tokens)
    (hb : d.built = .ok items) : Expr.AllPlain items := by
  match d with
  | .last value =>
    rw [Arguments.tokens] at h
    rw [Arguments.built] at hb
    obtain ⟨e, he, hb⟩ := bind_eq_ok.mp hb
    cases hb
    exact ⟨value.plain_built h he, trivial⟩
  | .cons value comma rest =>
    rw [Arguments.tokens] at h
    rw [Arguments.built] at hb
    obtain ⟨e, he, hb⟩ := bind_eq_ok.mp hb
    obtain ⟨others, hothers, hb⟩ := bind_eq_ok.mp hb
    cases hb
    obtain ⟨_, hrest⟩ := h.append_right
    exact ⟨value.plain_built h.append_left he, rest.plain_built (hrest.behind_sign rfl) hothers⟩

theorem ArgumentsUpTo.plain_built {close : Symbol} (d : ArgumentsUpTo close) {items : List Expr}
    (h : PlainTokens false d.tokens) (hb : d.built = .ok items) : Expr.AllPlain items := by
  match d with
  | .none stop =>
    cases hb
    trivial
  | .some args stop =>
    rw [ArgumentsUpTo.tokens] at h
    exact args.plain_built h.append_left hb

theorem Entries.plain_built (d : Entries) {afterValue : Bool} {pairs : List (String × Expr)}
    (h : PlainTokens afterValue d.tokens) (hb : d.built = .ok pairs) :
    ∀ pair ∈ pairs, pair.2.Plain := by
  match d with
  | .last key colon value =>
    rw [Entries.tokens] at h
    rw [Entries.built] at hb
    obtain ⟨e, he, hb⟩ := bind_eq_ok.mp hb
    cases hb
    exact List.forall_mem_singleton.mpr (value.plain_built (h.2.2.behind_sign rfl) he)
  | .cons key colon value comma rest =>
    rw [Entries.tokens] at h
    rw [Entries.built] at hb
    obtain ⟨e, he, hb⟩ := bind_eq_ok.mp hb
    obtain ⟨others, hothers, hb⟩ := bind_eq_ok.mp hb
    cases hb
    have hvalue := h.2.2.behind_sign rfl
    obtain ⟨_, hrest⟩ := hvalue.append_right
    exact List.forall_mem_cons.mpr ⟨value.plain_built hvalue.append_left he,
      rest.plain_built hrest.2.2 hothers⟩

theorem EntriesUpTo.plain_built (d : EntriesUpTo) {afterValue : Bool} {pairs : List (String × Expr)}
    (h : PlainTokens afterValue d.tokens) (hb : d.built = .ok pairs) :
    ∀ pair ∈ pairs, pair.2.Plain := by
  match d with
  | .none stop =>
    cases hb
    exact List.forall_mem_nil _
  | .some entries stop =>
    rw [EntriesUpTo.tokens] at h
    exact entries.plain_built h.append_left hb

end

end Phrase

end Workflow
