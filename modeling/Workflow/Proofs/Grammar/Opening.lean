import Workflow.Proofs.Grammar.Reading

/-!
# How phrases start

The first token of an expression is one of those that `Lexeme.startsExpression` knows, and each of
them starts some expression. A qualified name is a reference without subscripts.
-/

namespace Workflow

/-- Whether a term without its operator can start with a lexeme. -/
def Lexeme.startsOperand (l : Lexeme) : Bool := l.startsExpression && !l.isUnaryOp

namespace Phrase

open Grammar

/-- Tokens whose first one has a lexeme of a kind. -/
def StartsWith (p : Lexeme → Bool) (tokens : List Token) : Prop :=
  ∃ t rest, tokens = t :: rest ∧ p t.lexeme = true

section

variable {p p' : Lexeme → Bool} {tokens : List Token}

theorem startsWith_cons {t : Token} {rest : List Token} (h : p t.lexeme = true) :
    StartsWith p (t :: rest) :=
  ⟨t, rest, rfl, h⟩

theorem StartsWith.ne_nil (h : StartsWith p tokens) : tokens ≠ [] := by
  obtain ⟨t, rest, rfl, _⟩ := h
  simp

theorem StartsWith.append (h : StartsWith p tokens) (more : List Token) :
    StartsWith p (tokens ++ more) := by
  obtain ⟨t, rest, rfl, ht⟩ := h
  exact ⟨t, rest ++ more, rfl, ht⟩

theorem StartsWith.mono (h : StartsWith p tokens) (hp : ∀ l, p l = true → p' l = true) :
    StartsWith p' tokens := by
  obtain ⟨t, rest, rfl, ht⟩ := h
  exact ⟨t, rest, rfl, hp _ ht⟩

theorem StartsWith.any_head? (h : StartsWith p tokens) :
    tokens.head?.any (p ·.lexeme) = true := by
  obtain ⟨t, rest, rfl, ht⟩ := h
  exact ht

/-- A token of a class is not read where another kind of token comes first. -/
theorem StartsWith.accept?_eq_none {k : Terminal} (h : StartsWith p tokens)
    (hk : ∀ l, p l = true → k.accepts l = false) : accept? k tokens = none := by
  obtain ⟨t, rest, rfl, ht⟩ := h
  simp [accept?, hk _ ht]

theorem StartsWith.accept?_symbol {s : Symbol} (h : StartsWith p tokens)
    (hs : p (.symbol s) = false) : accept? (.symbol s) tokens = none := by
  refine h.accept?_eq_none fun l hl => decide_eq_false fun hl' => ?_
  rw [hl', hs] at hl
  cases hl

theorem StartsWith.accept?_keyword {w : Keyword} (h : StartsWith p tokens)
    (hw : p (.keyword w) = false) : accept? (.keyword w) tokens = none := by
  refine h.accept?_eq_none fun l hl => decide_eq_false fun hl' => ?_
  rw [hl', hw] at hl
  cases hl

end

theorem accept?_sign_ne {s s' : Symbol} (t : Sign s) (h : s' ≠ s) (r : List Token) :
    accept? (.symbol s') (t.val :: r) = none :=
  (startsWith_cons t.property : StartsWith (Terminal.symbol s).accepts _).accept?_symbol
    (decide_eq_false fun h' => h (Lexeme.symbol.inj h'))

theorem isIdentifier_name (t : Tok .identifier) : t.val.lexeme.isIdentifier = true :=
  t.property

/-! ## First tokens -/

theorem startsOperand_of_isIdentifier (l : Lexeme) (h : l.isIdentifier = true) :
    l.startsOperand = true := by
  cases l with
  | identifier name => rfl
  | _ => cases h

theorem startsOperand_of_isLiteral (l : Lexeme) (h : l.isLiteral = true) :
    l.startsOperand = true := by
  have hunary : l.isUnaryOp = false := by
    cases l with
    | keyword word => cases word <;> first | rfl | cases h
    | symbol sign => cases h
    | _ => rfl
  simp [Lexeme.startsOperand, Lexeme.startsExpression, h, hunary]

theorem startsExpression_of_startsOperand (l : Lexeme) (h : l.startsOperand = true) :
    l.startsExpression = true := (Bool.and_eq_true_iff.mp h).1

theorem QualifiedName.startsWith (name : QualifiedName) :
    StartsWith Lexeme.isIdentifier name.tokens := by
  cases name with
  | last name => exact startsWith_cons name.property
  | dotted name dot rest => exact startsWith_cons name.property

theorem Part.startsWith (part : Part) : StartsWith Lexeme.isIdentifier part.tokens := by
  cases part with
  | mk name subscripts => exact startsWith_cons name.property

theorem Reference.startsWith (reference : Reference) :
    StartsWith Lexeme.isIdentifier reference.tokens := by
  cases reference with
  | last part => exact part.startsWith
  | dotted part dot rest => exact part.startsWith.append _

theorem Operand.startsWith (operand : Operand) :
    StartsWith Lexeme.startsOperand operand.tokens := by
  cases operand with
  | literal value => exact startsWith_cons (startsOperand_of_isLiteral _ value.property)
  | array start items => exact startsWith_cons (by rw [lexeme_sign]; rfl)
  | object start entries => exact startsWith_cons (by rw [lexeme_sign]; rfl)
  | paren start inner stop => exact startsWith_cons (by rw [lexeme_sign]; rfl)
  | expression token =>
    obtain ⟨t, text, h⟩ := token
    exact startsWith_cons (by rw [h]; rfl)
  | reference reference => exact reference.startsWith.mono startsOperand_of_isIdentifier
  | call name start args =>
    exact (name.startsWith.mono startsOperand_of_isIdentifier).append _

theorem Term.startsWith (term : Term) : StartsWith Lexeme.startsExpression term.tokens := by
  cases term with
  | plain operand => exact operand.startsWith.mono startsExpression_of_startsOperand
  | unary operator operand =>
    have h : operator.val.lexeme.isUnaryOp = true := operator.property
    exact startsWith_cons (by simp [Lexeme.startsExpression, h])

theorem Expression.startsWith (e : Expression) :
    StartsWith Lexeme.startsExpression e.tokens := by
  cases e with
  | mk head tail => exact head.startsWith.append _

theorem Arguments.startsWith (args : Arguments) :
    StartsWith Lexeme.startsExpression args.tokens := by
  cases args with
  | last value => exact value.startsWith
  | cons value comma rest => exact value.startsWith.append _

theorem Entries.startsWith (entries : Entries) :
    StartsWith Terminal.objectKey.accepts entries.tokens := by
  cases entries with
  | last key colon value => exact startsWith_cons key.property
  | cons key colon value comma rest => exact startsWith_cons key.property

theorem NamedArguments.startsWith (args : NamedArguments) :
    StartsWith Lexeme.isIdentifier args.tokens := by
  cases args with
  | last name assign value => exact startsWith_cons name.property
  | cons name assign value comma rest => exact startsWith_cons name.property

theorem ArgumentsUpTo.tokens_ne_nil {close : Symbol} (args : ArgumentsUpTo close) :
    args.tokens ≠ [] := by
  cases args with
  | none stop => simp [ArgumentsUpTo.tokens]
  | some args stop => simp [ArgumentsUpTo.tokens]

/-- A token of any class, with a lexeme of that class. -/
def Tok.ofLexeme {k : Terminal} (l : Lexeme) (h : k.accepts l = true) : Tok k :=
  ⟨⟨l, "", .nowhere⟩, h⟩

/-- `Lexeme.startsExpression` knows just the tokens that can start an expression. -/
theorem canStartExpression_iff {t : Token} :
    CanStartExpression t ↔ t.lexeme.startsExpression = true := by
  constructor
  · rintro ⟨e, he⟩
    obtain ⟨u, rest, hu, hstarts⟩ := e.startsWith
    rw [hu] at he
    cases he
    exact hstarts
  · intro h
    have operand (d : Operand) (hd : d.tokens.head? = some t) : CanStartExpression t := by
      refine ⟨.mk (.plain d) .nil, ?_⟩
      simpa [Expression.tokens, Term.tokens, Operations.tokens] using hd
    let null : Operand := .literal (.ofLexeme (.keyword .null) rfl)
    simp only [Lexeme.startsExpression, Bool.or_eq_true] at h
    obtain ((hliteral | hunary) | hname) | hother := h
    · exact operand (.literal ⟨t, hliteral⟩) rfl
    · exact ⟨.mk (.unary ⟨t, hunary⟩ null) .nil, rfl⟩
    · exact operand (.reference (.last (.mk ⟨t, hname⟩ .nil))) rfl
    · split at hother
      · rename_i text ht
        exact operand (.expression ⟨t, text, ht⟩) rfl
      · rename_i ht
        exact operand (.paren ⟨t, decide_eq_true ht⟩ (.mk (.plain null) .nil)
          (.ofLexeme (.symbol .rparen) rfl)) rfl
      · rename_i ht
        exact operand (.array ⟨t, decide_eq_true ht⟩
          (.none (.ofLexeme (.symbol .rbracket) rfl))) rfl
      · rename_i ht
        exact operand (.object ⟨t, decide_eq_true ht⟩
          (.none (.ofLexeme (.symbol .rbrace) rfl))) rfl
      · cases hother

/-! ## Names as references -/

/-- The reference that a qualified name is where no parenthesis follows it. -/
def QualifiedName.reference : QualifiedName → Reference
  | .last name => .last (.mk name .nil)
  | .dotted name dot rest => .dotted (.mk name .nil) dot rest.reference

@[simp] theorem QualifiedName.tokens_reference (name : QualifiedName) :
    name.reference.tokens = name.tokens := by
  induction name with
  | last name => rfl
  | dotted name dot rest ih =>
    simp [QualifiedName.reference, QualifiedName.tokens, Reference.tokens, Part.tokens,
      Subscripts.tokens, ih]

@[simp] theorem QualifiedName.isSubscripted_reference (name : QualifiedName) :
    isSubscripted name.reference.nodes = false := by
  induction name with
  | last name => rfl
  | dotted name dot rest ih =>
    change (false || isSubscripted rest.reference.nodes) = false
    rw [ih, Bool.or_false]

@[simp] theorem QualifiedName.nameNode_reference (name : QualifiedName) (position : Position) :
    nameNode position name.reference.nodes =
      .mk .qualifiedName position (name.names.map (.token .identifier)) := by
  induction name with
  | last name => rfl
  | dotted name dot rest ih =>
    simp only [nameNode, Node.mk.injEq, true_and] at ih ⊢
    exact congrArg (Child.token .identifier name.val :: ·) ih

/-- A reference whose tree has no subscript is a qualified name. -/
theorem Reference.exists_qualifiedName : (d : Reference) → isSubscripted d.nodes = false →
    ∃ name : QualifiedName, name.reference = d
  | .last (.mk name .nil), _ => ⟨.last name, rfl⟩
  | .last (.mk name (.cons _ _ _ _)), h => by
    simp [isSubscripted, Reference.nodes, Part.node, Subscripts.nodes, Node.has, Node.children,
      Child.slot] at h
  | .dotted (.mk name .nil) dot rest, h => by
    have hrest : isSubscripted rest.nodes = false := by
      simp only [isSubscripted, Reference.nodes, List.any_cons, Bool.or_eq_false_iff] at h
      exact h.2
    obtain ⟨others, rfl⟩ := rest.exists_qualifiedName hrest
    exact ⟨.dotted name dot others, rfl⟩
  | .dotted (.mk name (.cons _ _ _ _)) dot rest, h => by
    simp [isSubscripted, Reference.nodes, Part.node, Subscripts.nodes, Node.has, Node.children,
      Child.slot] at h

/-! ## Looking ahead -/

/-- Looking ahead passes over the name of a call. -/
theorem namedCallAhead_name (name : QualifiedName) (start : Sign .lparen) (r : List Token) :
    namedCallAhead (name.tokens ++ start.val :: r) = namedOrNoArgumentsAhead r := by
  induction name with
  | last name =>
    simp [QualifiedName.tokens, namedCallAhead, isIdentifier_name, lexeme_sign]
  | dotted name dot rest ih =>
    simp [QualifiedName.tokens, namedCallAhead, isIdentifier_name, lexeme_sign, ih]

theorem namedOrNoArgumentsAhead_close (stop : Sign .rparen) {r : List Token}
    (h : accept? .binaryOperator r = none) :
    namedOrNoArgumentsAhead (stop.val :: r) = true := by
  rw [accept?_eq_none_iff] at h
  cases r with
  | nil => simp [namedOrNoArgumentsAhead, lexeme_sign]
  | cons t rest =>
    have ht : t.lexeme.isBinaryOp = false := h t rfl
    simp [namedOrNoArgumentsAhead, lexeme_sign, ht]

theorem namedCallAhead_of_isEmptyCall {value : Expression} {r : List Token}
    (hvalue : value.isEmptyCall = true) (hr : accept? .binaryOperator r = none) :
    namedCallAhead (value.tokens ++ r) = true := by
  unfold Expression.isEmptyCall at hvalue
  split at hvalue
  · rename_i name start stop
    have htokens : (Expression.mk (.plain (.call name start (.none stop))) .nil).tokens ++ r =
        name.tokens ++ start.val :: stop.val :: r := by
      simp [Expression.tokens, Term.tokens, Operand.tokens, ArgumentsUpTo.tokens,
        Operations.tokens]
    rw [htokens, namedCallAhead_name, namedOrNoArgumentsAhead_close stop hr]
  · cases hvalue

end Phrase

end Workflow
