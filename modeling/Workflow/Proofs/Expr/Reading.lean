import Workflow.Proofs.Build.Expression
import Workflow.Proofs.Fields
import Workflow.Proofs.Token.Bounded

/-!
# Texts that are read as expressions

A text is read as an expression if its tokens are those of a phrase that is built into the
expression. Texts of compounds are put together from texts of their parts as the texts of
expressions are.
-/

namespace Workflow

open Token

/-! ## Tokens -/

namespace Phrase

open Grammar

def signToken (s : Symbol) : Sign s := ⟨⟨.symbol s, s.text, .start⟩, decide_eq_true rfl⟩

def wordToken (w : Keyword) : Word w := ⟨⟨.keyword w, w.text, .start⟩, decide_eq_true rfl⟩

def nameToken (name : String) : Tok .identifier := ⟨⟨.identifier name, name, .start⟩, rfl⟩

def keyToken (key : String) : Tok .objectKey := ⟨⟨.string key, Text.quote key, .start⟩, rfl⟩

end Phrase

/-- The lexeme of an operator between two terms. -/
def BinaryOp.lexeme : BinaryOp → Lexeme
  | .add => .symbol .plus
  | .sub => .symbol .minus
  | .mul => .symbol .star
  | .div => .symbol .slash
  | .rem => .symbol .percent
  | .lt => .symbol .lt
  | .lte => .symbol .lte
  | .gt => .symbol .gt
  | .gte => .symbol .gte
  | .eq => .symbol .eq
  | .neq => .symbol .neq
  | .and => .keyword .and
  | .or => .keyword .or
  | .in => .keyword .in

/-- The lexeme of an operator in front of an operand. -/
def UnaryOp.lexeme : UnaryOp → Lexeme
  | .minus => .symbol .minus
  | .plus => .symbol .plus
  | .not => .keyword .not

namespace Phrase

open Grammar

def binaryToken (op : BinaryOp) : Tok .binaryOperator :=
  ⟨⟨op.lexeme, op.text, .start⟩, by cases op <;> rfl⟩

def unaryToken (op : UnaryOp) : Tok .unaryOperator :=
  ⟨⟨op.lexeme, op.text, .start⟩, by cases op <;> rfl⟩

theorem binaryOpOf_binaryToken (op : BinaryOp) : binaryOpOf (binaryToken op) = op := by
  cases op with
  | _ => rfl

theorem unaryOpOf_unaryToken (op : UnaryOp) : unaryOpOf (unaryToken op) = op := by
  cases op with
  | _ => rfl

theorem scanned_binaryToken (op : BinaryOp) : Scanned true (binaryToken op).val := by
  cases op with
  | and => exact scanned_keyword .and _
  | or => exact scanned_keyword .or _
  | «in» => exact scanned_keyword .in _
  | add => exact scanned_symbol .plus _
  | sub => exact scanned_symbol .minus _
  | mul => exact scanned_symbol .star _
  | div => exact scanned_symbol .slash _
  | rem => exact scanned_symbol .percent _
  | lt => exact scanned_symbol .lt _
  | lte => exact scanned_symbol .lte _
  | gt => exact scanned_symbol .gt _
  | gte => exact scanned_symbol .gte _
  | eq => exact scanned_symbol .eq _
  | neq => exact scanned_symbol .neq _

theorem scanned_unaryToken (op : UnaryOp) : Scanned true (unaryToken op).val := by
  cases op with
  | not => exact scanned_keyword .not _
  | minus => exact scanned_symbol .minus _
  | plus => exact scanned_symbol .plus _

end Phrase

/-! ## Names and references -/

/-- A text that starts like a word. -/
def StartsWord (s : String) : Prop :=
  ∃ c cs, s.toList = c :: cs ∧ Text.isWordStart c = true

/-- A text is read as a reference, whose text may differ in the subscripts. -/
def ReadsReference (text text' : String) : Prop :=
  StartsWord text ∧ ∃ d : Phrase.Reference, Spelled true text.toList d.tokens ∧ d.text = .ok text'

/-- A text that is read as a dotted name with that text. -/
def IsDottedName (text : String) : Prop :=
  StartsWord text ∧ ∃ q : Phrase.QualifiedName, Spelled true text.toList q.tokens ∧ q.text = text

/-! ## Texts of expressions -/

/-- A text is read as an expression, in front of nothing and of every delimiter. -/
def ReadsAs (text : String) (e : Expr) : Prop :=
  ∃ d : Phrase.Expression, Bounded false text.toList d.tokens ∧ d.built = .ok e

/-- A text is read as operators with terms behind them, or it is nothing. -/
def ReadsTail (text : String) (tail : List (BinaryOp × Term)) : Prop :=
  Delimited text.toList ∧ ∃ d : Phrase.Operations, ((text.toList = [] ∧ d.tokens = []) ∨
    Bounded true text.toList d.tokens) ∧ d.built = .ok tail

/-- A text is read as an entry of a map. -/
def ReadsEntry (text : String) (entry : String × Expr) : Prop :=
  ∃ value, text = Text.quote entry.1 ++ ": " ++ value ∧ ReadsAs value entry.2

theorem toList_enclosed (start inner stop : String) :
    (start ++ inner ++ stop).toList = start.toList ++ (inner.toList ++ stop.toList) := by
  rw [String.toList_append, String.toList_append, List.append_assoc]

namespace Phrase

/-- Operators and terms, and more of them behind. -/
def Operations.append : Operations → Operations → Operations
  | .nil, others => others
  | .cons operator term rest, others => .cons operator term (rest.append others)

theorem Operations.tokens_append (d others : Operations) :
    (d.append others).tokens = d.tokens ++ others.tokens := by
  cases d with
  | nil =>
    rw [Operations.append, Operations.tokens]
    rfl
  | cons operator term rest =>
    rw [Operations.append, Operations.tokens, Operations.tokens, rest.tokens_append,
      List.cons_append, List.append_assoc]

theorem Operations.built_append {d others : Operations}
    {tail more : List (BinaryOp × Workflow.Term)} (h : d.built = .ok tail) (hothers : others.built = .ok more) :
    (d.append others).built = .ok (tail ++ more) := by
  cases d with
  | nil =>
    cases h
    exact hothers
  | cons operator term rest =>
    rw [Operations.built] at h
    obtain ⟨t, ht, h⟩ := bind_eq_ok.mp h
    obtain ⟨own, hown, h⟩ := bind_eq_ok.mp h
    cases h
    rw [Operations.append, Operations.built, ht, ok_bind, Operations.built_append hown hothers]
    rfl

theorem Term.exists_plain {d : Term} {o : Workflow.Operand} (h : d.built = .ok (.mk none o)) :
    ∃ operand : Operand, d = .plain operand ∧ operand.built = .ok o := by
  cases d with
  | plain operand =>
    rw [Term.built] at h
    obtain ⟨found, hfound, h⟩ := bind_eq_ok.mp h
    cases h
    exact ⟨operand, rfl, hfound⟩
  | unary operator operand =>
    rw [Term.built] at h
    obtain ⟨found, _, h⟩ := bind_eq_ok.mp h
    cases h

end Phrase

/-! ## Terms and operators -/

theorem readsAs_operand {text : String} {d : Phrase.Operand} {o : Operand}
    (h : Bounded false text.toList d.tokens) (hb : d.built = .ok o) :
    ReadsAs text (.ofOperand o) := by
  refine ⟨.mk (.plain d) .nil, ?_, ?_⟩
  · rw [Phrase.Expression.tokens, Phrase.Term.tokens, Phrase.Operations.tokens, List.append_nil]
    exact h
  · rw [Phrase.Expression.built, Phrase.Term.built, hb]
    rfl

/-- An operator in front of a text, if it is kept. -/
theorem UnaryOp.bounded_leading (op : UnaryOp) {text : String} {ts : List Token}
    (h : Bounded false text.toList ts)
    (hminus : op = .minus → StopsAt (Lexeme.symbol .minus).continuesWith text.toList) :
    Bounded false (op.leading ++ text).toList ((Phrase.unaryToken op).val :: ts) := by
  have htoken := (Phrase.scanned_unaryToken op).mono false
  rw [String.toList_append]
  cases op with
  | not =>
    have hbounded := Bounded.cons htoken h.blank (stopsAt_cons.mpr rfl) (by decide)
    have hleading : UnaryOp.not.leading.toList = UnaryOp.not.text.toList ++ [' '] := by decide
    rw [hleading, List.append_assoc]
    exact hbounded
  | plus => exact .cons htoken h (fun _ _ => rfl) (by decide)
  | minus => exact .cons htoken h (hminus rfl) (by decide)

/-- An operator in front of a text goes to its first operand. -/
theorem readsAs_unary {op : UnaryOp} {text : String} {o : Operand}
    {tail : List (BinaryOp × Term)} (h : ReadsAs text (.mk (.mk none o) tail))
    (hminus : op = .minus → StopsAt (Lexeme.symbol .minus).continuesWith text.toList) :
    ReadsAs (op.leading ++ text) (.mk (.mk (some op) o) tail) := by
  obtain ⟨⟨head, others⟩, hbounded, hbuilt⟩ := h
  rw [Phrase.Expression.built] at hbuilt
  obtain ⟨t, ht, hbuilt⟩ := bind_eq_ok.mp hbuilt
  obtain ⟨own, hown, hbuilt⟩ := bind_eq_ok.mp hbuilt
  cases hbuilt
  obtain ⟨operand, rfl, hoperand⟩ := Phrase.Term.exists_plain ht
  refine ⟨.mk (.unary (Phrase.unaryToken op) operand) others, ?_, ?_⟩
  · rw [Phrase.Expression.tokens, Phrase.Term.tokens] at hbounded
    rw [Phrase.Expression.tokens, Phrase.Term.tokens]
    exact op.bounded_leading hbounded hminus
  · rw [Phrase.Expression.built, Phrase.Term.built, hoperand, hown, Phrase.unaryOpOf_unaryToken]
    rfl

theorem readsTail_nil : ReadsTail "" [] :=
  ⟨delimited_nil, .nil, .inl ⟨rfl, rfl⟩, rfl⟩

/-- An operator and a text behind it, which may have operators of its own. -/
theorem readsTail_cons {op : BinaryOp} {text others : String} {t : Term}
    {own tail : List (BinaryOp × Term)} (h : ReadsAs text (.mk t own))
    (hothers : ReadsTail others tail) :
    ReadsTail (" " ++ op.text ++ " " ++ text ++ others) ((op, t) :: (own ++ tail)) := by
  obtain ⟨⟨head, rest⟩, hbounded, hbuilt⟩ := h
  obtain ⟨hdelimited, more, hmore, hmorebuilt⟩ := hothers
  rw [Phrase.Expression.built] at hbuilt
  obtain ⟨found, hhead, hbuilt⟩ := bind_eq_ok.mp hbuilt
  obtain ⟨foundOwn, hown, hbuilt⟩ := bind_eq_ok.mp hbuilt
  cases hbuilt
  have htext : (" " ++ op.text ++ " " ++ text ++ others).toList =
      ' ' :: (op.text.toList ++ (' ' :: (text.toList ++ others.toList))) := by
    simp
  refine ⟨?_, .cons (Phrase.binaryToken op) head (rest.append more), .inr ?_, ?_⟩
  · rw [htext]
    exact delimited_cons.mpr (by decide)
  · have hall := hbounded.append_optional hmore hdelimited
    have hends : (Phrase.binaryToken op).val.lexeme.endsValue = false := by cases op <;> rfl
    rw [Phrase.Expression.tokens, List.append_assoc, ← Phrase.Operations.tokens_append] at hall
    rw [htext, Phrase.Operations.tokens]
    refine (Bounded.cons (Phrase.scanned_binaryToken op) hall.blank ?_ ?_).blank
    · exact stopsAt_cons.mpr (Lexeme.continuesWith_of_mem_delimiters (by decide) _)
    · rw [hends]
      exact fun h => absurd h Bool.false_ne_true
  · rw [Phrase.Operations.built, hhead, Phrase.Operations.built_append hown hmorebuilt,
      Phrase.binaryOpOf_binaryToken]
    rfl

/-- A text that may have operators of its own, and more of them behind it. -/
theorem readsAs_append {text others : String} {t : Term} {own tail : List (BinaryOp × Term)}
    (h : ReadsAs text (.mk t own)) (hothers : ReadsTail others tail) :
    ReadsAs (text ++ others) (.mk t (own ++ tail)) := by
  obtain ⟨⟨head, rest⟩, hbounded, hbuilt⟩ := h
  obtain ⟨hdelimited, more, hmore, hmorebuilt⟩ := hothers
  rw [Phrase.Expression.built] at hbuilt
  obtain ⟨found, hhead, hbuilt⟩ := bind_eq_ok.mp hbuilt
  obtain ⟨foundOwn, hown, hbuilt⟩ := bind_eq_ok.mp hbuilt
  cases hbuilt
  refine ⟨.mk head (rest.append more), ?_, ?_⟩
  · have hall := hbounded.append_optional hmore hdelimited
    rw [Phrase.Expression.tokens, List.append_assoc, ← Phrase.Operations.tokens_append] at hall
    rw [String.toList_append, Phrase.Expression.tokens]
    exact hall
  · rw [Phrase.Expression.built, hhead, Phrase.Operations.built_append hown hmorebuilt]
    rfl

/-! ## Lists and entries -/

/-- A comma and a blank behind a text, and more behind them. -/
theorem Bounded.comma {cs ds : List Char} {ts us : List Token} (h : Bounded false cs ts)
    (h' : Bounded false ds us) :
    Bounded false (cs ++ (", ".toList ++ ds)) (ts ++ (Phrase.signToken .comma).val :: us) := by
  have hcomma := Bounded.cons (scanned_symbol .comma .start) h'.blank (fun _ _ => rfl) (by decide)
  exact h.append hcomma (delimited_cons.mpr (by decide))

theorem exists_arguments {texts : List String} {items : List Expr}
    (h : List.Forall₂ ReadsAs texts items) (hne : texts ≠ []) :
    ∃ d : Phrase.Arguments, Bounded false (", ".intercalate texts).toList d.tokens ∧
      d.built = .ok items := by
  induction h with
  | nil => exact absurd rfl hne
  | @cons text e texts items htext hrest ih =>
    obtain ⟨d, hbounded, hbuilt⟩ := htext
    cases hrest with
    | nil =>
      refine ⟨.last d, ?_, ?_⟩
      · rw [String.intercalate_singleton, Phrase.Arguments.tokens]
        exact hbounded
      · rw [Phrase.Arguments.built, hbuilt]
        rfl
    | cons =>
      obtain ⟨others, hothers, hbuilt'⟩ := ih (List.cons_ne_nil _ _)
      refine ⟨.cons d (Phrase.signToken .comma) others, ?_, ?_⟩
      · rw [String.intercalate_cons_cons, toList_enclosed, Phrase.Arguments.tokens]
        exact hbounded.comma hothers
      · rw [Phrase.Arguments.built, hbuilt, hbuilt']
        rfl

theorem bounded_entry {text : String} {ts : List Token} (h : Bounded false text.toList ts)
    (key : String) : Bounded false (Text.quote key ++ ": " ++ text).toList
      ((Phrase.keyToken key).val :: (Phrase.signToken .colon).val :: ts) := by
  have hcolon : Bounded true (": ".toList ++ text.toList) ((Phrase.signToken .colon).val :: ts) :=
    Bounded.cons (scanned_symbol .colon .start) h.blank (fun _ _ => rfl) (by decide)
  have hkey : Scanned false (Phrase.keyToken key).val := (scanned_quote key .start).mono false
  have hentry := Bounded.cons hkey hcolon (fun _ _ => rfl) fun _ => rfl
  rw [toList_enclosed]
  exact hentry

theorem exists_entries {texts : List String} {entries : List (String × Expr)}
    (h : List.Forall₂ ReadsEntry texts entries) (hne : texts ≠ []) :
    ∃ d : Phrase.Entries, Bounded false (", ".intercalate texts).toList d.tokens ∧
      d.built = .ok entries := by
  induction h with
  | nil => exact absurd rfl hne
  | @cons text entry texts entries htext hrest ih =>
    obtain ⟨value, rfl, d, hbounded, hbuilt⟩ := htext
    have hentry := bounded_entry hbounded entry.1
    cases hrest with
    | nil =>
      refine ⟨.last (Phrase.keyToken entry.1) (Phrase.signToken .colon) d, ?_, ?_⟩
      · rw [String.intercalate_singleton, Phrase.Entries.tokens]
        exact hentry
      · rw [Phrase.Entries.built, hbuilt]
        rfl
    | cons =>
      obtain ⟨others, hothers, hbuilt'⟩ := ih (List.cons_ne_nil _ _)
      refine ⟨.cons (Phrase.keyToken entry.1) (Phrase.signToken .colon) d
        (Phrase.signToken .comma) others, ?_, ?_⟩
      · rw [String.intercalate_cons_cons, toList_enclosed, Phrase.Entries.tokens]
        exact hentry.comma hothers
      · rw [Phrase.Entries.built, hbuilt, hbuilt']
        rfl

/-- A closing sign behind arguments, perhaps none. -/
theorem exists_argumentsUpTo (close : Symbol) (hclose : Delimited close.text.toList)
    {texts : List String} {items : List Expr} (h : List.Forall₂ ReadsAs texts items) :
    ∃ d : Phrase.ArgumentsUpTo close,
      Spelled false ((", ".intercalate texts).toList ++ close.text.toList) d.tokens ∧
        d.built = .ok items := by
  have hsign := spelled_token (scanned_symbol close .start)
  cases h with
  | nil => exact ⟨.none (Phrase.signToken close), hsign.mono, rfl⟩
  | cons htext hrest =>
    obtain ⟨d, hbounded, hbuilt⟩ := exists_arguments (.cons htext hrest) (List.cons_ne_nil _ _)
    exact ⟨.some d (Phrase.signToken close), hbounded.append_spelled hsign hclose, hbuilt⟩

/-- A closing brace behind entries, perhaps none. -/
theorem exists_entriesUpTo {texts : List String} {entries : List (String × Expr)}
    (h : List.Forall₂ ReadsEntry texts entries) :
    ∃ d : Phrase.EntriesUpTo,
      Spelled false ((", ".intercalate texts).toList ++ "\x7d".toList) d.tokens ∧
        d.built = .ok entries := by
  have hsign := spelled_token (scanned_symbol .rbrace .start)
  cases h with
  | nil => exact ⟨.none (Phrase.signToken .rbrace), hsign.mono, rfl⟩
  | cons htext hrest =>
    obtain ⟨d, hbounded, hbuilt⟩ := exists_entries (.cons htext hrest) (List.cons_ne_nil _ _)
    exact ⟨.some d (Phrase.signToken .rbrace),
      hbounded.append_spelled hsign (delimited_cons.mpr (by decide)), hbuilt⟩

/-! ## Operands -/

theorem readsAs_literal {t : Phrase.Tok .literal} (h : Scanned false t.val) :
    ReadsAs t.val.image (.ofOperand (.primitive (Phrase.primitiveOf t))) := by
  refine readsAs_operand (d := .literal t) ?_ rfl
  rw [Phrase.Operand.tokens]
  exact (spelled_token h).bounded

theorem readsAs_list {texts : List String} {items : List Expr}
    (h : List.Forall₂ ReadsAs texts items) :
    ReadsAs ("[" ++ ", ".intercalate texts ++ "]") (.ofOperand (.list items)) := by
  obtain ⟨d, hspelled, hbuilt⟩ :=
    exists_argumentsUpTo .rbracket (delimited_cons.mpr (by decide)) h
  refine readsAs_operand (d := .array (Phrase.signToken .lbracket) d) ?_ ?_
  · rw [toList_enclosed, Phrase.Operand.tokens]
    exact .cons ((scanned_symbol .lbracket .start).mono false) hspelled.bounded (fun _ _ => rfl)
      (by decide)
  · rw [Phrase.Operand.built, hbuilt]
    rfl

theorem readsAs_map {texts : List String} {entries : List (String × Expr)}
    (h : List.Forall₂ ReadsEntry texts entries) (hnames : (Fields.names entries).Nodup) :
    ReadsAs ("\x7b" ++ ", ".intercalate texts ++ "\x7d") (.ofOperand (.map entries)) := by
  obtain ⟨d, hspelled, hbuilt⟩ := exists_entriesUpTo h
  refine readsAs_operand (d := .object (Phrase.signToken .lbrace) d) ?_ ?_
  · rw [toList_enclosed, Phrase.Operand.tokens]
    exact .cons ((scanned_symbol .lbrace .start).mono false) hspelled.bounded (fun _ _ => rfl)
      (by decide)
  · -- the names differ, so that inserting the entries once more changes nothing
    rw [Phrase.Operand.built, hbuilt]
    exact congrArg (Except.ok ∘ Operand.map) (Fields.ofPairs_of_nodup hnames)

theorem readsAs_reference {text text' : String} (h : ReadsReference text text') :
    ReadsAs text (.ofOperand (.reference text')) := by
  obtain ⟨-, d, hspelled, htext⟩ := h
  refine readsAs_operand (d := .reference d) hspelled.mono.bounded ?_
  obtain ⟨parts, hparts, hjoined⟩ := bind_eq_ok.mp htext
  cases hjoined
  rw [Phrase.Operand.built, hparts]
  rfl

theorem readsAs_call {name : String} (hname : IsDottedName name) {texts : List String}
    {args : List Expr} (h : List.Forall₂ ReadsAs texts args) :
    ReadsAs (name ++ "(" ++ ", ".intercalate texts ++ ")") (.ofOperand (.call name args)) := by
  obtain ⟨-, q, hq, hqtext⟩ := hname
  obtain ⟨d, hspelled, hbuilt⟩ := exists_argumentsUpTo .rparen (delimited_cons.mpr (by decide)) h
  have hargs := Spelled.cons (scanned_symbol .lparen .start) hspelled (fun _ _ => rfl) (by decide)
  refine readsAs_operand (d := .call q (Phrase.signToken .lparen) d) ?_ ?_
  · rw [toList_enclosed, String.toList_append, List.append_assoc, Phrase.Operand.tokens]
    exact (hq.mono.append hargs (stopsAt_of_mem_delimiters (by decide) _ _) fun _ => rfl).bounded
  · rw [Phrase.Operand.built, hbuilt, hqtext]
    rfl

theorem readsAs_paren {text : String} {e : Expr} (h : ReadsAs text e) :
    ReadsAs ("(" ++ text ++ ")") (.ofOperand (.paren e)) := by
  obtain ⟨d, hbounded, hbuilt⟩ := h
  have hclose := hbounded.append_spelled (spelled_token (scanned_symbol .rparen .start))
    (delimited_cons.mpr (by decide))
  refine readsAs_operand
    (d := .paren (Phrase.signToken .lparen) d (Phrase.signToken .rparen)) ?_ ?_
  · rw [toList_enclosed, Phrase.Operand.tokens]
    exact .cons ((scanned_symbol .lparen .start).mono false) hclose.bounded (fun _ _ => rfl)
      (by decide)
  · rw [Phrase.Operand.built, hbuilt]
    rfl

end Workflow
