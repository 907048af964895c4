import Workflow.Proofs.Grammar.Opening

/-!
# Every phrase is read

The tokens of a phrase are read as that phrase, whatever comes behind, as long as it cannot be
taken for more of the phrase. The statements follow the structure of phrases.
-/

namespace Workflow

/-- Whether a statement can start with a lexeme. -/
def Lexeme.startsStatement : Lexeme → Bool
  | .identifier _ => true
  | .keyword word =>
    word ∈ [Keyword.if, .for, .parallel, .try, .throw, .break, .continue, .return]
  | _ => false

/-- Whether a lexeme may follow a statement: it starts another one or closes the block. -/
def Lexeme.followsStatement (l : Lexeme) : Bool := l = .symbol .rbrace || l.startsStatement

/-- Whether a lexeme may follow an expression: it closes or separates, or follows a statement. -/
def Lexeme.followsExpression (l : Lexeme) : Bool :=
  l ∈ [.symbol .rparen, .symbol .rbracket, .symbol .comma] || l.followsStatement

namespace Phrase

open Grammar

variable {stop : Position} {r : List Token}

/-! ## What may come behind a phrase -/

/-- Tokens that do not go on with a term. -/
structure EndsTerm (r : List Token) : Prop where
  bracket : accept? (.symbol .lbracket) r = none
  dot : accept? (.symbol .dot) r = none
  paren : accept? (.symbol .lparen) r = none

/-- Tokens that do not go on with an expression. -/
structure EndsExpression (r : List Token) : Prop extends EndsTerm r where
  operator : accept? .binaryOperator r = none

theorem isBinaryOp_of_followsExpression (l : Lexeme) (h : l.followsExpression = true) :
    l.isBinaryOp = false := by
  cases l with
  | keyword word => cases word <;> first | rfl | exact absurd h (by decide)
  | symbol sign => cases sign <;> first | rfl | exact absurd h (by decide)
  | _ => rfl

theorem endsExpression_of_startsWith (h : StartsWith Lexeme.followsExpression r) :
    EndsExpression r where
  bracket := h.accept?_symbol rfl
  dot := h.accept?_symbol rfl
  paren := h.accept?_symbol rfl
  operator := h.accept?_eq_none isBinaryOp_of_followsExpression

theorem endsExpression_sign {close : Symbol} (t : Sign close)
    (hclose : (Lexeme.symbol close).followsExpression = true) (r : List Token) :
    EndsExpression (t.val :: r) :=
  endsExpression_of_startsWith (startsWith_cons (by rw [lexeme_sign]; exact hclose))

theorem endsTerm_operator (operator : Tok .binaryOperator) (r : List Token) :
    EndsTerm (operator.val :: r) := by
  have h : StartsWith Lexeme.isBinaryOp (operator.val :: r) := startsWith_cons operator.property
  exact ⟨h.accept?_symbol rfl, h.accept?_symbol rfl, h.accept?_symbol rfl⟩

theorem Operations.endsTerm (d : Operations) (hr : EndsExpression r) :
    EndsTerm (d.tokens ++ r) := by
  cases d with
  | nil => exact hr.toEndsTerm
  | cons operator term rest => exact endsTerm_operator operator _

/-! ## Expressions -/

theorem reads_operand_reference {s : List Token} {parts : List Node}
    (hs : StartsWith Lexeme.isIdentifier s) (hparts : Reads (reference stop s) parts r)
    (hr : accept? (.symbol .lparen) r = none) :
    Reads (operand stop s) [.node .variableReference (referenceNode (here stop s) parts)] r := by
  obtain ⟨t, rest, rfl, ht⟩ := hs
  rw [operand]
  cases hl : t.lexeme with
  | identifier name =>
    simp only [Lexeme.isLiteral, Bool.false_eq_true, if_false, reads_bind]
    refine ⟨parts, r, hparts, ?_⟩
    simp only [hr, after_none, reads_pure, here_cons, and_self]
  | _ => simp [hl, Lexeme.isIdentifier] at ht

theorem reads_operand_call {s inside : List Token} {start : Sign .lparen} {parts args : List Node}
    (hs : StartsWith Lexeme.isIdentifier s)
    (hparts : Reads (reference stop s) parts (start.val :: inside))
    (hplain : isSubscripted parts = false)
    (hargs : Reads (argumentsUpTo stop .rparen inside) args r) :
    Reads (operand stop s) [.node .callExpression (.mk .callExpression (here stop s)
      (.node .qualifiedName (nameNode (here stop s) parts) ::
        argumentChild (here stop inside) args))] r := by
  obtain ⟨t, rest, rfl, ht⟩ := hs
  rw [operand]
  cases hl : t.lexeme with
  | identifier name =>
    simp only [Lexeme.isLiteral, Bool.false_eq_true, if_false, reads_bind]
    refine ⟨parts, _, hparts, ?_⟩
    simp only [accept?_tok, after_some, Read.after, hplain, Bool.false_eq_true, if_false,
      reads_bind, reads_after, reads_pure]
    exact ⟨args, r, hargs, rfl, rfl⟩
  | _ => simp [hl, Lexeme.isIdentifier] at ht

theorem isIdentifier_of_isLiteral (l : Lexeme) (h : l.isLiteral = true) :
    l.isIdentifier = false := by
  cases l with
  | identifier name => cases h
  | _ => rfl

theorem isIdentifier_of_isUnaryOp (l : Lexeme) (h : l.isUnaryOp = true) :
    l.isIdentifier = false := by
  cases l with
  | identifier name => cases h
  | _ => rfl

theorem isUnaryOp_of_startsOperand (l : Lexeme) (h : l.startsOperand = true) :
    l.isUnaryOp = false := by
  simpa using (Bool.and_eq_true_iff.mp h).2

theorem reads_plainPart (name : Tok .identifier)
    (hbracket : accept? (.symbol .lbracket) r = none) :
    Reads (referencePart stop (name.val :: r)) (Part.mk name .nil).node r := by
  rw [referencePart]
  simp only [reads_bind, reads_expect, reads_afterSome, reads_pure]
  refine ⟨name.val, r, ⟨name.property, rfl⟩, [], r, ?_, rfl, rfl⟩
  rw [subscripts]
  simp only [hbracket, readsSome_ok, and_self]

/-- A qualified name is read as a reference, up to the parenthesis behind it. -/
theorem QualifiedName.reads (name : QualifiedName) (start : Sign .lparen) (r : List Token) :
    Reads (Grammar.reference stop (name.tokens ++ start.val :: r)) name.reference.nodes
      (start.val :: r) := by
  induction name with
  | last name =>
    rw [QualifiedName.tokens, List.singleton_append, Grammar.reference]
    simp only [reads_bind]
    refine ⟨_, _, reads_plainPart name (accept?_sign_ne start (by decide) r), ?_⟩
    simp only [accept?_sign_ne start (by decide : Symbol.dot ≠ .lparen), after_none, reads_pure,
      and_true]
    rfl
  | dotted name dot rest ih =>
    rw [QualifiedName.tokens, List.cons_append, List.cons_append, Grammar.reference]
    simp only [reads_bind]
    refine ⟨_, _, reads_plainPart name (accept?_sign_ne dot (by decide) _), ?_⟩
    simp only [accept?_tok, after_some, Read.after, reads_bind, reads_after, reads_pure]
    exact ⟨_, _, ih, rfl, rfl⟩

mutual

theorem Expression.reads {r : List Token} (d : Expression) (hr : EndsExpression r) :
    Reads (expression stop (d.tokens ++ r)) d.node r := by
  cases d with
  | mk head tail =>
    rw [Expression.tokens, List.append_assoc, expression]
    simp only [reads_bind, reads_afterSome, reads_pure]
    refine ⟨head.node, tail.tokens ++ r, head.reads (tail.endsTerm hr), tail.children, r,
      tail.reads hr, ?_, rfl⟩
    rw [here_append head.startsWith.ne_nil, Expression.node]

theorem Operations.reads {r : List Token} (d : Operations) (hr : EndsExpression r) :
    ReadsSome (operations stop (d.tokens ++ r)) d.children r := by
  cases d with
  | nil =>
    rw [Operations.tokens, List.nil_append, operations]
    simp only [hr.operator, readsSome_ok, Operations.children, and_self]
  | cons operator term rest =>
    rw [Operations.tokens, List.cons_append, List.append_assoc, operations]
    simp only [accept?_tok, readsSome_bind, reads_after, reads_afterSome, readsSome_pure]
    exact ⟨term.node, _, term.reads (rest.endsTerm hr), rest.children, r, rest.reads hr, rfl, rfl⟩

theorem Term.reads {r : List Token} (d : Term) (hr : EndsTerm r) :
    Reads (term stop (d.tokens ++ r)) d.node r := by
  cases d with
  | plain operand =>
    rw [Term.tokens, term]
    have hnone : accept? .unaryOperator (operand.tokens ++ r) = none :=
      (operand.startsWith.append r).accept?_eq_none isUnaryOp_of_startsOperand
    simp only [hnone, reads_bind, reads_pure]
    refine ⟨operand.children, r, operand.reads hr, ?_, rfl⟩
    rw [here_append operand.startsWith.ne_nil, Term.node]
  | unary operator operand =>
    rw [Term.tokens, List.cons_append, term]
    simp only [accept?_tok, reads_bind, reads_after, reads_pure]
    exact ⟨operand.children, r, operand.reads hr, rfl, rfl⟩

theorem Operand.reads {r : List Token} (d : Operand) (hr : EndsTerm r) :
    Reads (operand stop (d.tokens ++ r)) d.children r := by
  cases d with
  | literal value =>
    have hvalue : value.val.lexeme.isLiteral = true := value.property
    rw [Operand.tokens, List.singleton_append, operand]
    simp only [hvalue, if_true, reads_ok, Operand.children, literalNode, and_self]
  | array start items =>
    rw [Operand.tokens, List.cons_append, operand]
    simp only [lexeme_sign, Lexeme.isLiteral, Bool.false_eq_true, if_false, reads_bind,
      reads_after, reads_pure]
    exact ⟨items.nodes, r, items.reads (by decide), rfl, rfl⟩
  | object start entries =>
    rw [Operand.tokens, List.cons_append, operand]
    simp only [lexeme_sign, Lexeme.isLiteral, Bool.false_eq_true, if_false, reads_bind,
      reads_after, reads_pure]
    exact ⟨entries.children, r, entries.reads, rfl, rfl⟩
  | paren start inner close =>
    rw [Operand.tokens, List.cons_append, List.append_assoc, operand]
    simp only [lexeme_sign, Lexeme.isLiteral, Bool.false_eq_true, if_false, reads_bind,
      reads_after, reads_expect, reads_pure]
    exact ⟨inner.node, _, inner.reads (endsExpression_sign close (by decide) r), close.val, r,
      ⟨close.property, rfl⟩, rfl, rfl⟩
  | expression token =>
    obtain ⟨t, text, ht⟩ := token
    rw [Operand.tokens, List.singleton_append, operand]
    simp only [ht, Lexeme.isLiteral, Bool.false_eq_true, if_false, reads_ok, Operand.children,
      and_self]
  | reference reference =>
    have h := reads_operand_reference (reference.startsWith.append r)
      (reference.reads hr.bracket hr.dot : Reads (Grammar.reference stop _) _ _) hr.paren
    rwa [here_append reference.startsWith.ne_nil] at h
  | call name start args =>
    rw [Operand.tokens, List.append_assoc, List.cons_append]
    have h := reads_operand_call (name.startsWith.append _) (name.reads start (args.tokens ++ r))
      name.isSubscripted_reference (args.reads (by decide) : Reads (argumentsUpTo stop _ _) _ r)
    rwa [here_append name.startsWith.ne_nil, here_append args.tokens_ne_nil,
      name.nameNode_reference] at h

theorem Reference.reads {r : List Token} (d : Reference)
    (hbracket : accept? (.symbol .lbracket) r = none) (hdot : accept? (.symbol .dot) r = none) :
    Reads (reference stop (d.tokens ++ r)) d.nodes r := by
  cases d with
  | last part =>
    rw [Reference.tokens, reference]
    simp only [reads_bind]
    refine ⟨part.node, r, part.reads hbracket, ?_⟩
    simp only [hdot, after_none, reads_pure, Reference.nodes, and_self]
  | dotted part dot rest =>
    rw [Reference.tokens, List.append_assoc, List.cons_append, reference]
    simp only [reads_bind]
    refine ⟨part.node, _, part.reads ?_, ?_⟩
    · exact accept?_sign_ne dot (by decide) _
    · simp only [accept?_tok, after_some, Read.after, reads_bind, reads_after, reads_pure]
      exact ⟨rest.nodes, r, rest.reads hbracket hdot, rfl, rfl⟩

theorem Part.reads {r : List Token} (d : Part)
    (hbracket : accept? (.symbol .lbracket) r = none) :
    Reads (referencePart stop (d.tokens ++ r)) d.node r := by
  cases d with
  | mk name subscripts =>
    rw [Part.tokens, List.cons_append, referencePart]
    simp only [reads_bind, reads_expect, reads_afterSome, reads_pure]
    exact ⟨name.val, _, ⟨name.property, rfl⟩, subscripts.nodes, r, subscripts.reads hbracket,
      rfl, rfl⟩

theorem Subscripts.reads {r : List Token} (d : Subscripts)
    (hbracket : accept? (.symbol .lbracket) r = none) :
    ReadsSome (subscripts stop (d.tokens ++ r)) d.nodes r := by
  cases d with
  | nil =>
    rw [Subscripts.tokens, List.nil_append, subscripts]
    simp only [hbracket, readsSome_ok, Subscripts.nodes, and_self]
  | cons start index close rest =>
    rw [Subscripts.tokens, List.cons_append, List.append_assoc, List.cons_append, subscripts]
    simp only [accept?_tok, readsSome_bind, reads_after, reads_expect, reads_afterSome,
      readsSome_pure]
    exact ⟨index.node, _, index.reads (endsExpression_sign close (by decide) _), close.val, _,
      ⟨close.property, rfl⟩, rest.nodes, r, rest.reads hbracket, rfl, rfl⟩

theorem Arguments.reads {r : List Token} (d : Arguments) (hr : EndsExpression r)
    (hcomma : accept? (.symbol .comma) r = none) :
    Reads (arguments stop (d.tokens ++ r)) d.nodes r := by
  cases d with
  | last value =>
    rw [Arguments.tokens, arguments]
    simp only [reads_bind]
    refine ⟨value.node, r, value.reads hr, ?_⟩
    simp only [hcomma, after_none, reads_pure, Arguments.nodes, and_self]
  | cons value comma rest =>
    rw [Arguments.tokens, List.append_assoc, List.cons_append, arguments]
    simp only [reads_bind]
    refine ⟨value.node, _, value.reads (endsExpression_sign comma rfl _), ?_⟩
    simp only [accept?_tok, after_some, Read.after, reads_bind, reads_after, reads_pure]
    exact ⟨rest.nodes, r, rest.reads hr hcomma, rfl, rfl⟩

theorem ArgumentsUpTo.reads {close : Symbol} {r : List Token} (d : ArgumentsUpTo close)
    (hclose : close = .rparen ∨ close = .rbracket) :
    Reads (argumentsUpTo stop close (d.tokens ++ r)) d.nodes r := by
  cases d with
  | none last =>
    rw [ArgumentsUpTo.tokens, List.singleton_append, argumentsUpTo]
    simp only [accept?_tok, reads_ok, ArgumentsUpTo.nodes, and_self]
  | some args last =>
    rw [ArgumentsUpTo.tokens, List.append_assoc, List.singleton_append, argumentsUpTo]
    have hnone : accept? (.symbol close) (args.tokens ++ last.val :: r) = .none := by
      refine (args.startsWith.append _).accept?_symbol ?_
      obtain rfl | rfl := hclose <;> rfl
    have hargs : Reads (arguments stop (args.tokens ++ last.val :: r)) args.nodes
        (last.val :: r) := by
      refine args.reads (endsExpression_sign last ?_ r) ?_
      · obtain rfl | rfl := hclose <;> rfl
      · exact accept?_sign_ne last (by obtain rfl | rfl := hclose <;> decide) r
    simp only [hnone, reads_bind, reads_after, reads_expect, reads_pure]
    exact ⟨args.nodes, _, hargs, last.val, r, ⟨last.property, rfl⟩, rfl, rfl⟩

theorem Entries.reads {r : List Token} (d : Entries) (hr : EndsExpression r)
    (hcomma : accept? (.symbol .comma) r = none) :
    Reads (entries stop (d.tokens ++ r)) d.children r := by
  cases d with
  | last key colon value =>
    rw [Entries.tokens, List.cons_append, List.cons_append, entries]
    simp only [reads_bind, reads_after, reads_expect]
    refine ⟨key.val, _, ⟨key.property, rfl⟩, colon.val, _, ⟨colon.property, rfl⟩, value.node, r,
      value.reads hr, ?_⟩
    simp only [hcomma, after_none, reads_pure, Entries.children, and_self]
  | cons key colon value comma rest =>
    rw [Entries.tokens, List.cons_append, List.cons_append, List.append_assoc, List.cons_append,
      entries]
    simp only [reads_bind, reads_after, reads_expect]
    refine ⟨key.val, _, ⟨key.property, rfl⟩, colon.val, _, ⟨colon.property, rfl⟩, value.node, _,
      value.reads (endsExpression_sign comma rfl _), ?_⟩
    simp only [accept?_tok, after_some, Read.after, reads_bind, reads_after, reads_pure]
    exact ⟨rest.children, r, rest.reads hr hcomma, rfl, rfl⟩

theorem EntriesUpTo.reads {r : List Token} (d : EntriesUpTo) :
    Reads (entriesUpTo stop (d.tokens ++ r)) d.children r := by
  cases d with
  | none last =>
    rw [EntriesUpTo.tokens, List.singleton_append, entriesUpTo]
    simp only [accept?_tok, reads_ok, EntriesUpTo.children, and_self]
  | some entries last =>
    rw [EntriesUpTo.tokens, List.append_assoc, List.singleton_append, entriesUpTo]
    have hnone := (entries.startsWith.append (last.val :: r)).accept?_symbol (s := .rbrace) rfl
    simp only [hnone, reads_bind, reads_after, reads_expect, reads_pure]
    exact ⟨entries.children, _,
      entries.reads (endsExpression_sign last rfl r) (accept?_sign_ne last (by decide) r),
      last.val, r, ⟨last.property, rfl⟩, rfl, rfl⟩

end

/-! ## Looking ahead -/

section

variable {t : Token}

theorem namedArgumentAhead_of_not_name (h : t.lexeme.isIdentifier = false) :
    namedArgumentAhead (t :: r) = false := by
  cases r with
  | nil => rfl
  | cons u rest => simp [namedArgumentAhead, h]

theorem namedArgumentAhead_of_no_assign (h : accept? (.symbol .assign) r = none) :
    namedArgumentAhead (t :: r) = false := by
  cases r with
  | nil => rfl
  | cons u rest =>
    have hu : ¬ u.lexeme = .symbol .assign := of_decide_eq_false (accept?_eq_none_iff.mp h u rfl)
    simp [namedArgumentAhead, hu]

theorem namedCallAhead_of_not_name (h : t.lexeme.isIdentifier = false) :
    namedCallAhead (t :: r) = false := by
  cases r with
  | nil => simp [namedCallAhead]
  | cons u rest => simp [namedCallAhead, h]

theorem namedCallAhead_of_ends (hdot : accept? (.symbol .dot) r = none)
    (hparen : accept? (.symbol .lparen) r = none) : namedCallAhead (t :: r) = false := by
  cases r with
  | nil => simp [namedCallAhead]
  | cons u rest =>
    have hudot : ¬ u.lexeme = .symbol .dot :=
      of_decide_eq_false (accept?_eq_none_iff.mp hdot u rfl)
    have huparen : ¬ u.lexeme = .symbol .lparen :=
      of_decide_eq_false (accept?_eq_none_iff.mp hparen u rfl)
    simp [namedCallAhead, hudot, huparen]

end

theorem Subscripts.no_assign (d : Subscripts) (hr : accept? (.symbol .assign) r = none) :
    accept? (.symbol .assign) (d.tokens ++ r) = none := by
  cases d with
  | nil => exact hr
  | cons start index stop rest => exact accept?_sign_ne start (by decide) _

theorem Operations.no_assign (d : Operations) (hr : accept? (.symbol .assign) r = none) :
    accept? (.symbol .assign) (d.tokens ++ r) = none := by
  cases d with
  | nil => exact hr
  | cons operator term rest =>
    have h : StartsWith Lexeme.isBinaryOp (operator.val :: (term.tokens ++ rest.tokens ++ r)) :=
      startsWith_cons operator.property
    exact h.accept?_symbol rfl

/-- A reference is no named argument. -/
theorem Reference.namedArgumentAhead (d : Reference)
    (hr : accept? (.symbol .assign) r = none) :
    Grammar.namedArgumentAhead (d.tokens ++ r) = false := by
  cases d with
  | last part =>
    obtain ⟨name, subscripts⟩ := part
    exact namedArgumentAhead_of_no_assign (subscripts.no_assign hr)
  | dotted part dot rest =>
    obtain ⟨name, subscripts⟩ := part
    rw [Reference.tokens, Part.tokens, List.append_assoc, List.cons_append]
    exact namedArgumentAhead_of_no_assign
      (subscripts.no_assign (accept?_sign_ne dot (by decide) _))

theorem QualifiedName.namedArgumentAhead (name : QualifiedName) (start : Sign .lparen) :
    Grammar.namedArgumentAhead (name.tokens ++ start.val :: r) = false := by
  cases name with
  | last name => exact namedArgumentAhead_of_no_assign (accept?_sign_ne start (by decide) _)
  | dotted name dot rest =>
    exact namedArgumentAhead_of_no_assign (accept?_sign_ne dot (by decide) _)

theorem Operand.namedArgumentAhead (d : Operand) (hr : accept? (.symbol .assign) r = none) :
    Grammar.namedArgumentAhead (d.tokens ++ r) = false := by
  cases d with
  | literal value =>
    exact namedArgumentAhead_of_not_name (isIdentifier_of_isLiteral _ value.property)
  | array start items => exact namedArgumentAhead_of_not_name (by rw [lexeme_sign]; rfl)
  | object start entries => exact namedArgumentAhead_of_not_name (by rw [lexeme_sign]; rfl)
  | paren start inner stop => exact namedArgumentAhead_of_not_name (by rw [lexeme_sign]; rfl)
  | expression token =>
    obtain ⟨t, text, h⟩ := token
    exact namedArgumentAhead_of_not_name (by rw [h]; rfl)
  | reference reference => exact reference.namedArgumentAhead hr
  | call name start args =>
    rw [Operand.tokens, List.append_assoc, List.cons_append]
    exact name.namedArgumentAhead start

/-- Positional arguments are told from named ones. -/
theorem Expression.namedArgumentAhead (d : Expression)
    (hr : accept? (.symbol .assign) r = none) :
    Grammar.namedArgumentAhead (d.tokens ++ r) = false := by
  obtain ⟨head, tail⟩ := d
  rw [Expression.tokens, List.append_assoc]
  cases head with
  | plain operand => exact operand.namedArgumentAhead (tail.no_assign hr)
  | unary operator operand =>
    exact namedArgumentAhead_of_not_name (isIdentifier_of_isUnaryOp _ operator.property)

theorem Arguments.namedArgumentAhead (d : Arguments)
    (hr : accept? (.symbol .assign) r = none) :
    Grammar.namedArgumentAhead (d.tokens ++ r) = false := by
  cases d with
  | last value => exact value.namedArgumentAhead hr
  | cons value comma rest =>
    rw [Arguments.tokens, List.append_assoc, List.cons_append]
    exact value.namedArgumentAhead (accept?_sign_ne comma (by decide) _)

theorem ArgumentsUpTo.namedArgumentAhead (d : ArgumentsUpTo .rparen) :
    Grammar.namedArgumentAhead (d.tokens ++ r) = false := by
  cases d with
  | none last => exact namedArgumentAhead_of_not_name (by rw [lexeme_sign]; rfl)
  | some args last =>
    rw [ArgumentsUpTo.tokens, List.append_assoc]
    exact args.namedArgumentAhead (accept?_sign_ne last (by decide) _)

/-- A reference is no call with named arguments. -/
theorem Reference.namedCallAhead {r : List Token} : (d : Reference) → EndsTerm r →
    Grammar.namedCallAhead (d.tokens ++ r) = false
  | .last (.mk name .nil), hr => namedCallAhead_of_ends hr.dot hr.paren
  | .last (.mk name (.cons start index stop rest)), hr =>
    namedCallAhead_of_ends (accept?_sign_ne start (by decide) _)
      (accept?_sign_ne start (by decide) _)
  | .dotted (.mk name .nil) dot rest, hr => by
    have h := rest.namedCallAhead hr
    simp only [Reference.tokens, Part.tokens, Subscripts.tokens, List.cons_append,
      List.nil_append]
    simp [Grammar.namedCallAhead, lexeme_sign, h]
  | .dotted (.mk name (.cons start index stop rest)) dot others, hr =>
    namedCallAhead_of_ends (accept?_sign_ne start (by decide) _)
      (accept?_sign_ne start (by decide) _)

/-- An expression is told from a call statement, unless it is an empty call that no operator
follows. -/
theorem Expression.namedCallAhead (d : Expression) (hd : d.isEmptyCall = false)
    (hr : EndsExpression r) : Grammar.namedCallAhead (d.tokens ++ r) = false := by
  obtain ⟨head, tail⟩ := d
  rw [Expression.tokens, List.append_assoc]
  cases head with
  | unary operator operand =>
    exact namedCallAhead_of_not_name (isIdentifier_of_isUnaryOp _ operator.property)
  | plain operand =>
    cases operand with
    | literal value =>
      exact namedCallAhead_of_not_name (isIdentifier_of_isLiteral _ value.property)
    | array start items => exact namedCallAhead_of_not_name (by rw [lexeme_sign]; rfl)
    | object start entries => exact namedCallAhead_of_not_name (by rw [lexeme_sign]; rfl)
    | paren start inner stop => exact namedCallAhead_of_not_name (by rw [lexeme_sign]; rfl)
    | expression token =>
      obtain ⟨t, text, h⟩ := token
      exact namedCallAhead_of_not_name (by rw [h]; rfl)
    | reference reference => exact reference.namedCallAhead (tail.endsTerm hr)
    | call name start args =>
      rw [Term.tokens, Operand.tokens, List.append_assoc, List.cons_append, namedCallAhead_name]
      cases args with
      | none last =>
        cases tail with
        | nil => cases hd
        | cons operator term rest =>
          have hoperator : operator.val.lexeme.isBinaryOp = true := operator.property
          simp [ArgumentsUpTo.tokens, Operations.tokens, namedOrNoArgumentsAhead, lexeme_sign,
            hoperator]
      | some args last =>
        obtain ⟨t, rest, htokens, ht⟩ := args.startsWith
        have hnone := args.namedArgumentAhead
          (accept?_sign_ne last (by decide : Symbol.assign ≠ .rparen) (tail.tokens ++ r))
        have hclose : ¬ t.lexeme = .symbol .rparen := by
          intro h
          rw [h] at ht
          cases ht
        rw [ArgumentsUpTo.tokens, List.append_assoc, List.singleton_append]
        rw [htokens, List.cons_append] at hnone ⊢
        rw [namedOrNoArgumentsAhead, if_neg hclose, hnone]

/-! ## Named arguments and calls -/

theorem NamedArguments.reads {r : List Token} (d : NamedArguments) (hr : EndsExpression r)
    (hcomma : accept? (.symbol .comma) r = none) :
    Reads (namedEntries stop (d.tokens ++ r)) d.children r := by
  induction d with
  | last name assign value =>
    rw [NamedArguments.tokens, List.cons_append, List.cons_append, namedEntries]
    simp only [reads_bind, reads_after, reads_expect]
    refine ⟨name.val, _, ⟨name.property, rfl⟩, assign.val, _, ⟨assign.property, rfl⟩, value.node,
      r, value.reads hr, ?_⟩
    simp only [hcomma, after_none, reads_pure, NamedArguments.children, and_self]
  | cons name assign value comma rest ih =>
    rw [NamedArguments.tokens, List.cons_append, List.cons_append, List.append_assoc,
      List.cons_append, namedEntries]
    simp only [reads_bind, reads_after, reads_expect]
    refine ⟨name.val, _, ⟨name.property, rfl⟩, assign.val, _, ⟨assign.property, rfl⟩, value.node,
      _, value.reads (endsExpression_sign comma rfl _), ?_⟩
    simp only [accept?_tok, after_some, Read.after, reads_bind, reads_after, reads_pure]
    exact ⟨rest.children, r, ih, rfl, rfl⟩

theorem NamedUpTo.reads (d : NamedUpTo) :
    Reads (namedArgumentsUpTo stop (d.tokens ++ r)) d.child r := by
  obtain ⟨args, last⟩ := d
  have hargs : Reads (namedEntries stop (args.tokens ++ last.val :: r)) args.children
      (last.val :: r) :=
    args.reads (endsExpression_sign last rfl r) (accept?_sign_ne last (by decide) r)
  rw [NamedUpTo.tokens, List.append_assoc, List.singleton_append]
  simp only [namedArgumentsUpTo, namedArguments, reads_bind, reads_after, reads_expect,
    reads_pure]
  refine ⟨_, _, ⟨_, _, hargs, rfl, rfl⟩, last.val, r, ⟨last.property, rfl⟩, ?_, rfl⟩
  rw [here_append args.startsWith.ne_nil, NamedUpTo.child]

theorem NamedUpTo.namedArgumentAhead (d : NamedUpTo) :
    Grammar.namedArgumentAhead (d.tokens ++ r) = true := by
  obtain ⟨args, last⟩ := d
  cases args with
  | last name assign value =>
    simp [NamedUpTo.tokens, NamedArguments.tokens, Grammar.namedArgumentAhead, lexeme_sign,
      isIdentifier_name]
  | cons name assign value comma rest =>
    simp [NamedUpTo.tokens, NamedArguments.tokens, Grammar.namedArgumentAhead, lexeme_sign,
      isIdentifier_name]

theorem NamedUpTo.startsWith (d : NamedUpTo) : StartsWith Lexeme.isIdentifier d.tokens := by
  obtain ⟨args, last⟩ := d
  exact args.startsWith.append _

theorem NamedOrNone.reads (d : NamedOrNone) :
    Reads (namedOrNoArguments stop (d.tokens ++ r)) d.children r := by
  cases d with
  | none last =>
    rw [NamedOrNone.tokens, List.singleton_append, namedOrNoArguments]
    simp only [accept?_tok, reads_ok, NamedOrNone.children, and_self]
  | some args =>
    have hnone : accept? (.symbol .rparen) (args.tokens ++ r) = .none :=
      (args.startsWith.append r).accept?_symbol rfl
    rw [NamedOrNone.tokens, namedOrNoArguments]
    simp only [hnone, reads_bind, reads_pure]
    exact ⟨args.child, r, args.reads, rfl, rfl⟩

theorem NamedOrNone.ahead (d : NamedOrNone) (hr : accept? .binaryOperator r = .none) :
    namedOrNoArgumentsAhead (d.tokens ++ r) = true := by
  cases d with
  | none last => exact namedOrNoArgumentsAhead_close last hr
  | some args =>
    have h := args.namedArgumentAhead (r := r)
    obtain ⟨t, rest, htokens, ht⟩ := args.startsWith
    rw [NamedOrNone.tokens, htokens, List.cons_append, namedOrNoArgumentsAhead]
    rw [htokens, List.cons_append] at h
    have hclose : ¬ t.lexeme = .symbol .rparen := by
      intro h
      rw [h] at ht
      cases ht
    rw [if_neg hclose, h]

theorem QualifiedName.reads_names (name : QualifiedName) (start : Sign .lparen) (r : List Token) :
    Reads (nameTokens stop (name.tokens ++ start.val :: r)) name.names (start.val :: r) := by
  induction name with
  | last name =>
    rw [QualifiedName.tokens, List.singleton_append, nameTokens]
    simp only [reads_bind, reads_expect]
    refine ⟨name.val, _, ⟨name.property, rfl⟩, ?_⟩
    simp only [accept?_sign_ne start (by decide : Symbol.dot ≠ .lparen), after_none, reads_pure,
      QualifiedName.names, and_self]
  | dotted name dot rest ih =>
    rw [QualifiedName.tokens, List.cons_append, List.cons_append, nameTokens]
    simp only [reads_bind, reads_expect]
    refine ⟨name.val, _, ⟨name.property, rfl⟩, ?_⟩
    simp only [accept?_tok, after_some, Read.after, reads_bind, reads_after, reads_pure]
    exact ⟨_, _, ih, rfl, rfl⟩

theorem reads_namedCall (name : QualifiedName) (start : Sign .lparen) (args : NamedOrNone)
    (hr : accept? .binaryOperator r = none) :
    Reads (namedCall stop (name.tokens ++ start.val :: (args.tokens ++ r)))
      (.mk .namedCall (place name.tokens) (.node .qualifiedName name.node :: args.children)) r := by
  simp only [namedCall, reads_bind, reads_after, reads_expect]
  refine ⟨name.names, _, name.reads_names start _, start.val, _, ⟨start.property, rfl⟩,
    args.children, r, args.reads, ?_⟩
  simp only [hr, Option.isSome_none, Bool.false_eq_true, if_false, reads_pure, and_true]
  rw [here_append name.startsWith.ne_nil, QualifiedName.node]

theorem CallArguments.reads (d : CallArguments) :
    Reads (callArguments stop (d.tokens ++ r)) d.children r := by
  cases d with
  | named args =>
    have h := args.namedArgumentAhead (r := r)
    rw [CallArguments.tokens, callArguments]
    simp only [h, if_true, reads_bind, reads_pure]
    exact ⟨args.child, r, args.reads, rfl, rfl⟩
  | positional args =>
    have h := args.namedArgumentAhead (r := r)
    rw [CallArguments.tokens, callArguments]
    simp only [h, Bool.false_eq_true, if_false, reads_bind, reads_pure]
    refine ⟨args.nodes, r, args.reads (.inl rfl), ?_, rfl⟩
    rw [here_append args.tokens_ne_nil, CallArguments.children]

theorem Clause.reads (d : Clause) : Reads (clauseArguments stop (d.tokens ++ r)) d.child r := by
  obtain ⟨start, args⟩ := d
  rw [Clause.tokens, List.cons_append]
  simp only [clauseArguments, reads_bind, reads_expect, reads_after]
  exact ⟨start.val, _, ⟨start.property, rfl⟩, args.reads⟩

/-! ## Statements -/

theorem Statement.startsWith (d : Statement) : StartsWith Lexeme.startsStatement d.tokens := by
  have name (l : Lexeme) (h : l.isIdentifier = true) : l.startsStatement = true := by
    cases l with
    | identifier name => rfl
    | _ => cases h
  cases d with
  | assignCall target assign callee start args => exact (target.startsWith.mono name).append _
  | assign target assign value => exact (target.startsWith.mono name).append _
  | call callee start args => exact (callee.startsWith.mono name).append _
  | conditional if_ first others => exact startsWith_cons (by rw [lexeme_word]; rfl)
  | loop loop =>
    obtain ⟨for_, start, item, in_, items, stop, body⟩ := loop
    exact startsWith_cons (by rw [lexeme_word]; rfl)
  | parallel parallel options body => exact startsWith_cons (by rw [lexeme_word]; rfl)
  | attempt try_ body retry handler => exact startsWith_cons (by rw [lexeme_word]; rfl)
  | throw throw_ value => exact startsWith_cons (by rw [lexeme_word]; rfl)
  | «break» break_ => exact startsWith_cons (by rw [lexeme_word]; rfl)
  | «continue» continue_ => exact startsWith_cons (by rw [lexeme_word]; rfl)
  | returnNothing return_ => exact startsWith_cons (by rw [lexeme_word]; rfl)
  | returnValue return_ value => exact startsWith_cons (by rw [lexeme_word]; rfl)

/-- Behind a statement of a block stands the next one or the brace that closes the block. -/
theorem Statements.startsWith (d : Statements) (close : Sign .rbrace) (r : List Token) :
    StartsWith Lexeme.followsStatement (d.tokens ++ close.val :: r) := by
  cases d with
  | nil => exact startsWith_cons (by rw [lexeme_sign]; rfl)
  | cons first rest =>
    rw [Statements.tokens, List.append_assoc]
    refine (first.startsWith.append _).mono fun l hl => ?_
    rw [Lexeme.followsStatement, hl, Bool.or_true]

theorem endsExpression_of_followsStatement (h : StartsWith Lexeme.followsStatement r) :
    EndsExpression r :=
  endsExpression_of_startsWith
    (h.mono fun l hl => by rw [Lexeme.followsExpression, hl, Bool.or_true])

theorem Options.reads (d : Options) (hr : accept? (.symbol .lparen) r = .none) :
    ReadsSome (parallelArguments stop (d.tokens ++ r)) d.children r := by
  cases d with
  | none =>
    rw [Options.tokens, List.nil_append, parallelArguments]
    simp only [hr, Option.isSome_none, Bool.false_eq_true, if_false, readsSome_ok,
      Options.children, and_self]
  | some clause =>
    obtain ⟨start, args⟩ := clause
    have h : Reads (clauseArguments stop ((Clause.mk start args).tokens ++ r)) _ r :=
      (Clause.mk start args).reads
    rw [Clause.tokens, List.cons_append] at h
    rw [Options.tokens, Clause.tokens, List.cons_append, parallelArguments]
    simp only [accept?_tok, Option.isSome_some, if_true, readsSome_bind, readsSome_pure]
    exact ⟨_, r, h, rfl, rfl⟩

theorem Retry.reads (d : Retry) (hr : accept? (.keyword .retry) r = .none) :
    ReadsSome (retryClause stop (d.tokens ++ r)) d.children r := by
  cases d with
  | none =>
    rw [Retry.tokens, List.nil_append, retryClause]
    simp only [hr, readsSome_ok, Retry.children, and_self]
  | some retry clause =>
    rw [Retry.tokens, List.cons_append, retryClause]
    simp only [accept?_tok, readsSome_bind, reads_after, readsSome_pure]
    exact ⟨clause.child, r, clause.reads, rfl, rfl⟩

theorem Retry.isEmpty_children {d : Retry} (h : d.children.isEmpty = true) : d = .none := by
  cases d with
  | none => rfl
  | some retry clause => cases h

theorem Handler.isEmpty_children {d : Handler} (h : d.children.isEmpty = true) : d = .none := by
  cases d with
  | none => rfl
  | some catch_ start name stop body => cases h

/-- Behind the `retry` of a `try` stands its `catch` or what follows the statement. -/
theorem Handler.no_retry (d : Handler) (hr : StartsWith Lexeme.followsStatement r) :
    accept? (.keyword .retry) (d.tokens ++ r) = .none := by
  cases d with
  | none => exact hr.accept?_keyword rfl
  | some catch_ start name stop body =>
    have h : StartsWith (Terminal.keyword .catch).accepts
        ((Handler.some catch_ start name stop body).tokens ++ r) := startsWith_cons catch_.property
    exact h.accept?_keyword rfl

theorem ParallelBody.no_paren (d : ParallelBody) :
    accept? (.symbol .lparen) (d.tokens ++ r) = none := by
  cases d with
  | loop loop =>
    obtain ⟨for_, start, name, in_, items, stop, body⟩ := loop
    exact (startsWith_cons for_.property : StartsWith (Terminal.keyword .for).accepts
      (for_.val :: _)).accept?_symbol rfl
  | branches branch body rest =>
    exact (startsWith_cons branch.property : StartsWith (Terminal.keyword .branch).accepts
      (branch.val :: _)).accept?_symbol rfl

theorem reads_callOrAssignment_of_name {s : List Token} {n : Node}
    (hs : StartsWith Lexeme.isIdentifier s) (h : Reads (callOrAssignment stop s) n r) :
    Reads (statement stop s) n r := by
  obtain ⟨t, rest, rfl, ht⟩ := hs
  rw [statement]
  cases hl : t.lexeme with
  | identifier name => exact h
  | _ => simp [hl, Lexeme.isIdentifier] at ht

theorem reads_assignCall (target : Reference) (assign : Sign .assign) (name : QualifiedName)
    (start : Sign .lparen) (args : NamedOrNone) (hr : EndsExpression r) :
    Reads (statement stop ((Statement.assignCall target assign name start args).tokens ++ r))
      (Statement.assignCall target assign name start args).node r := by
  -- no operator follows the call, so that looking ahead finds a call statement
  have hahead := args.ahead hr.operator
  rw [← namedCallAhead_name name start] at hahead
  rw [Statement.tokens, List.append_assoc, List.cons_append, List.append_assoc, List.cons_append]
  refine reads_callOrAssignment_of_name (target.startsWith.append _) ?_
  rw [callOrAssignment]
  simp only [reads_bind]
  refine ⟨target.nodes, _, target.reads (accept?_sign_ne assign (by decide) _)
    (accept?_sign_ne assign (by decide) _), ?_⟩
  simp only [accept?_tok, after_some, Read.after, hahead, if_true, reads_bind, reads_after,
    reads_pure]
  refine ⟨_, r, reads_namedCall name start args hr.operator, ?_, rfl⟩
  rw [here_append target.startsWith.ne_nil, Statement.node, Reference.node]
  rfl

theorem reads_assign (target : Reference) (assign : Sign .assign) (value : Expression)
    (hvalue : value.isEmptyCall = false) (hr : EndsExpression r) :
    Reads (statement stop ((Statement.assign target assign value).tokens ++ r))
      (Statement.assign target assign value).node r := by
  -- the value is no empty call, so that looking ahead finds no call statement
  have hahead := value.namedCallAhead hvalue hr
  rw [Statement.tokens, List.append_assoc, List.cons_append]
  refine reads_callOrAssignment_of_name (target.startsWith.append _) ?_
  rw [callOrAssignment]
  simp only [reads_bind]
  refine ⟨target.nodes, _, target.reads (accept?_sign_ne assign (by decide) _)
    (accept?_sign_ne assign (by decide) _), ?_⟩
  simp only [accept?_tok, after_some, Read.after, hahead, Bool.false_eq_true, if_false,
    reads_bind, reads_after, reads_pure]
  refine ⟨_, r, value.reads hr, ?_, rfl⟩
  rw [here_append target.startsWith.ne_nil, Statement.node, Reference.node]
  rfl

theorem reads_call (name : QualifiedName) (start : Sign .lparen) (args : CallArguments) :
    Reads (statement stop ((Statement.call name start args).tokens ++ r))
      (Statement.call name start args).node r := by
  rw [Statement.tokens, List.append_assoc, List.cons_append]
  refine reads_callOrAssignment_of_name (name.startsWith.append _) ?_
  rw [callOrAssignment]
  simp only [reads_bind]
  refine ⟨_, _, name.reads start _, ?_⟩
  simp only [accept?_sign_ne start (by decide : Symbol.assign ≠ .lparen), after_none, accept?_tok,
    after_some, Read.after, name.isSubscripted_reference, Bool.false_eq_true, if_false,
    reads_bind, reads_after, reads_pure]
  refine ⟨args.children, r, args.reads, ?_, rfl⟩
  rw [here_append name.startsWith.ne_nil, name.nameNode_reference, Statement.node,
    QualifiedName.node]

mutual

theorem Statements.reads {r : List Token} (d : Statements) (close : Sign .rbrace)
    (hd : d.Settled (some close.val)) :
    ReadsSome (statements stop (d.tokens ++ close.val :: r)) d.nodes (close.val :: r) := by
  cases d with
  | nil =>
    rw [Statements.tokens, List.nil_append, statements]
    simp only [accept?_tok, Option.isSome_some, Bool.or_true, if_true, readsSome_ok,
      Statements.nodes, and_self]
  | cons first rest =>
    rw [Statements.Settled] at hd
    have hfollow := rest.startsWith close r
    have hmore := first.startsWith.append (rest.tokens ++ close.val :: r)
    have hclose := hmore.accept?_symbol (s := .rbrace) rfl
    have hempty := List.isEmpty_eq_false_iff.mpr hmore.ne_nil
    have hfirst : Reads (statement stop (first.tokens ++ (rest.tokens ++ close.val :: r)))
        first.node (rest.tokens ++ close.val :: r) := by
      refine first.reads ?_ hfollow
      rw [List.head?_append]
      exact hd.1
    rw [Statements.tokens, List.append_assoc, statements]
    simp only [hempty, hclose, Option.isSome_none, Bool.or_false, Bool.false_eq_true, if_false,
      readsSome_bind, reads_afterSome, readsSome_pure]
    exact ⟨_, _, hfirst, _, _, rest.reads close hd.2, rfl, rfl⟩

theorem Block.reads {r : List Token} (d : Block) (hd : d.Settled) :
    Reads (block stop (d.tokens ++ r)) d.node r := by
  obtain ⟨start, found, close⟩ := d
  rw [Block.tokens, List.cons_append, List.append_assoc, List.singleton_append, block]
  simp only [reads_bind, reads_expect, reads_afterSome, reads_after, reads_pure]
  refine ⟨start.val, _, ⟨start.property, rfl⟩, found.nodes, _, found.reads close hd, close.val, r,
    ⟨close.property, rfl⟩, ?_, rfl⟩
  rw [List.append_cons, here_append (by simp), Block.node]

theorem Statement.reads {r : List Token} (d : Statement) (hd : d.Settled r.head?)
    (hr : StartsWith Lexeme.followsStatement r) :
    Reads (statement stop (d.tokens ++ r)) d.node r := by
  have hends := endsExpression_of_followsStatement hr
  cases d with
  | assignCall target assign name start args =>
    exact reads_assignCall target assign name start args hends
  | assign target assign value => exact reads_assign target assign value hd hends
  | call name start args => exact reads_call name start args
  | conditional if_ first others =>
    rw [Statement.tokens, List.cons_append, List.append_assoc, statement]
    simp only [lexeme_word, reads_bind, reads_after, reads_afterSome, reads_pure]
    exact ⟨_, _, first.reads hd.1, _, r, others.reads hd.2 (hr.accept?_keyword rfl), rfl, rfl⟩
  | loop loop =>
    obtain ⟨for_, rest, htokens, h⟩ := loop.reads (r := r) hd
    rw [Statement.tokens, htokens, List.cons_append, statement]
    simp only [lexeme_word, reads_after]
    exact h
  | parallel parallel options body =>
    rw [Statement.tokens, List.cons_append, List.append_assoc, statement]
    simp only [lexeme_word, reads_bind, reads_after, reads_afterSome, reads_pure]
    exact ⟨_, _, options.reads body.no_paren, _, r, body.reads hd (hr.accept?_keyword rfl), rfl,
      rfl⟩
  | attempt try_ body retry handler =>
    rw [Statement.tokens, List.cons_append, List.append_assoc, List.append_assoc, statement]
    simp only [lexeme_word, reads_bind, reads_after, reads_afterSome]
    refine ⟨_, _, body.reads hd.1, _, _, retry.reads (handler.no_retry hr), _, r,
      handler.reads hd.2.2 (hr.accept?_keyword rfl), ?_⟩
    have hsome : (retry.children.isEmpty && handler.children.isEmpty) = false := by
      rw [← Bool.not_eq_true, Bool.and_eq_true]
      rintro ⟨hretry, hhandler⟩
      exact hd.2.1.elim (· (Retry.isEmpty_children hretry)) (· (Handler.isEmpty_children hhandler))
    simp only [hsome, Bool.false_eq_true, if_false, reads_pure, Statement.node, and_self]
  | throw throw_ value =>
    rw [Statement.tokens, List.cons_append, statement]
    simp only [lexeme_word, reads_bind, reads_after, reads_pure]
    exact ⟨_, r, value.reads hends, rfl, rfl⟩
  | «break» break_ =>
    rw [Statement.tokens, List.singleton_append, statement]
    simp only [lexeme_word, reads_ok, Statement.node, and_self]
  | «continue» continue_ =>
    rw [Statement.tokens, List.singleton_append, statement]
    simp only [lexeme_word, reads_ok, Statement.node, and_self]
  | returnNothing return_ =>
    have hnext : r.head?.any (·.lexeme.startsExpression) = false := by
      cases r with
      | nil => rfl
      | cons t rest =>
        have ht := hd t rfl
        rw [canStartExpression_iff, Bool.not_eq_true] at ht
        exact ht
    rw [Statement.tokens, List.singleton_append, statement]
    simp only [lexeme_word, hnext, Bool.false_eq_true, if_false, reads_ok, Statement.node,
      and_self]
  | returnValue return_ value =>
    rw [Statement.tokens, List.cons_append, statement]
    simp only [lexeme_word, (value.startsWith.append r).any_head?, if_true, reads_bind,
      reads_after, reads_pure]
    exact ⟨_, r, value.reads hends, rfl, rfl⟩

theorem Condition.reads {r : List Token} (d : Condition) (hd : d.Settled) :
    Reads (condition stop (d.tokens ++ r)) d.children r := by
  obtain ⟨start, test, close, body⟩ := d
  rw [Condition.tokens, List.cons_append, List.append_assoc, List.cons_append, condition]
  simp only [reads_bind, reads_expect, reads_after, reads_pure]
  exact ⟨start.val, _, ⟨start.property, rfl⟩, test.node, _,
    test.reads (endsExpression_sign close rfl _), close.val, _, ⟨close.property, rfl⟩, body.node,
    r, body.reads hd, rfl, rfl⟩

theorem ElseClauses.reads {r : List Token} (d : ElseClauses) (hd : d.Settled)
    (hr : accept? (.keyword .else) r = .none) :
    ReadsSome (elseClauses stop (d.tokens ++ r)) d.children r := by
  cases d with
  | none =>
    rw [ElseClauses.tokens, List.nil_append, elseClauses]
    simp only [hr, readsSome_ok, ElseClauses.children, and_self]
  | elseIf else_ if_ condition rest =>
    rw [ElseClauses.tokens, List.cons_append, List.cons_append, List.append_assoc, elseClauses]
    simp only [accept?_tok, after_some, Read.after, readsSome_bind, reads_after, reads_afterSome,
      readsSome_pure]
    exact ⟨_, _, condition.reads hd.1, _, r, rest.reads hd.2 hr, rfl, rfl⟩
  | last else_ body =>
    have hif : accept? (.keyword .if) (body.tokens ++ r) = .none := by
      obtain ⟨start, found, close⟩ := body
      exact (startsWith_cons start.property : StartsWith (Terminal.symbol .lbrace).accepts
        (start.val :: _)).accept?_keyword rfl
    rw [ElseClauses.tokens, List.cons_append, elseClauses]
    simp only [accept?_tok, hif, after_none, readsSome_bind, reads_after, readsSome_pure]
    exact ⟨_, r, body.reads hd, rfl, rfl⟩

theorem Loop.reads {r : List Token} (d : Loop) (hd : d.Settled) :
    ∃ (for_ : Word .for) (rest : List Token), d.tokens = for_.val :: rest ∧
      Reads (Grammar.loop stop for_.val (rest ++ r)) d.node r := by
  obtain ⟨for_, start, name, in_, items, close, body⟩ := d
  refine ⟨for_, start.val :: name.val :: in_.val :: (items.tokens ++ close.val :: body.tokens),
    rfl, ?_⟩
  rw [List.cons_append, List.cons_append, List.cons_append, List.append_assoc, List.cons_append,
    Grammar.loop]
  simp only [reads_bind, reads_expect, reads_after, reads_pure]
  exact ⟨start.val, _, ⟨start.property, rfl⟩, name.val, _, ⟨name.property, rfl⟩, in_.val, _,
    ⟨in_.property, rfl⟩, items.node, _, items.reads (endsExpression_sign close rfl _), close.val,
    _, ⟨close.property, rfl⟩, body.node, r, body.reads hd, rfl, rfl⟩

theorem ParallelBody.reads {r : List Token} (d : ParallelBody) (hd : d.Settled)
    (hr : accept? (.keyword .branch) r = none) :
    Reads (parallelBody stop (d.tokens ++ r)) d.children r := by
  cases d with
  | loop loop =>
    obtain ⟨for_, rest, htokens, h⟩ := loop.reads (r := r) hd
    rw [ParallelBody.tokens, htokens, List.cons_append, parallelBody]
    simp only [accept?_tok, reads_bind, reads_after, reads_pure]
    exact ⟨_, r, h, rfl, rfl⟩
  | branches branch body rest =>
    have hfor : accept? (.keyword .for) (branch.val :: (body.tokens ++ (rest.tokens ++ r))) =
        none :=
      (startsWith_cons branch.property : StartsWith (Terminal.keyword .branch).accepts
        _).accept?_keyword rfl
    rw [ParallelBody.tokens, List.cons_append, List.append_assoc, parallelBody]
    simp only [hfor, accept?_tok, reads_bind, reads_after, reads_afterSome, reads_pure]
    exact ⟨_, _, body.reads hd.1, _, r, rest.reads hd.2 hr, rfl, rfl⟩

theorem Branches.reads {r : List Token} (d : Branches) (hd : d.Settled)
    (hr : accept? (.keyword .branch) r = none) :
    ReadsSome (branches stop (d.tokens ++ r)) d.children r := by
  cases d with
  | nil =>
    rw [Branches.tokens, List.nil_append, branches]
    simp only [hr, readsSome_ok, Branches.children, and_self]
  | cons branch body rest =>
    rw [Branches.tokens, List.cons_append, List.append_assoc, branches]
    simp only [accept?_tok, readsSome_bind, reads_after, reads_afterSome, readsSome_pure]
    exact ⟨_, _, body.reads hd.1, _, r, rest.reads hd.2 hr, rfl, rfl⟩

theorem Handler.reads {r : List Token} (d : Handler) (hd : d.Settled)
    (hr : accept? (.keyword .catch) r = .none) :
    ReadsSome (catchClause stop (d.tokens ++ r)) d.children r := by
  cases d with
  | none =>
    rw [Handler.tokens, List.nil_append, catchClause]
    simp only [hr, readsSome_ok, Handler.children, and_self]
  | some catch_ start name close body =>
    rw [Handler.tokens]
    simp only [List.cons_append]
    rw [catchClause]
    simp only [accept?_tok, caughtName, readsSome_bind, reads_bind, reads_expect, reads_after,
      reads_pure, readsSome_pure]
    exact ⟨_, _, ⟨start.val, _, ⟨start.property, rfl⟩, name.val, _, ⟨name.property, rfl⟩,
      close.val, _, ⟨close.property, rfl⟩, rfl, rfl⟩, _, r, body.reads hd, rfl, rfl⟩

end

/-! ## Programs -/

theorem Parameter.reads (d : Parameter) (hr : accept? (.symbol .assign) r = none) :
    Reads (parameter stop (d.tokens ++ r)) d.node r := by
  cases d with
  | plain name =>
    rw [Parameter.tokens, List.singleton_append]
    simp only [parameter, reads_bind, reads_expect]
    refine ⟨name.val, r, ⟨name.property, rfl⟩, ?_⟩
    simp only [hr, after_none, reads_pure, here_cons, Parameter.node, and_self]
  | default name assign value =>
    simp only [Parameter.tokens, List.cons_append, List.nil_append, parameter, reads_bind,
      reads_expect]
    refine ⟨name.val, _, ⟨name.property, rfl⟩, ?_⟩
    simp only [accept?_tok, after_some, Read.after, reads_bind, reads_after, reads_expect,
      reads_pure]
    exact ⟨value.val, r, ⟨value.property, rfl⟩, rfl, rfl⟩

theorem Parameters.reads {r : List Token} (d : Parameters)
    (hassign : accept? (.symbol .assign) r = none) (hcomma : accept? (.symbol .comma) r = none) :
    Reads (parameters stop (d.tokens ++ r)) d.nodes r := by
  induction d with
  | last parameter =>
    rw [Parameters.tokens, parameters]
    simp only [reads_bind]
    refine ⟨_, r, parameter.reads hassign, ?_⟩
    simp only [hcomma, after_none, reads_pure, Parameters.nodes, and_self]
  | cons parameter comma rest ih =>
    rw [Parameters.tokens, List.append_assoc, List.cons_append, parameters]
    simp only [reads_bind]
    refine ⟨_, _, parameter.reads (accept?_sign_ne comma (by decide) _), ?_⟩
    simp only [accept?_tok, after_some, Read.after, reads_bind, reads_after, reads_pure]
    exact ⟨_, r, ih, rfl, rfl⟩

theorem Parameters.startsWith (d : Parameters) : StartsWith Lexeme.isIdentifier d.tokens := by
  have name (parameter : Parameter) : StartsWith Lexeme.isIdentifier parameter.tokens := by
    cases parameter with
    | plain name => exact startsWith_cons name.property
    | default name assign value => exact startsWith_cons name.property
  cases d with
  | last parameter => exact name parameter
  | cons parameter comma rest => exact (name parameter).append _

theorem ParametersUpTo.reads (d : ParametersUpTo) :
    Reads (parameterList stop (d.tokens ++ r)) d.node r := by
  cases d with
  | none last =>
    rw [ParametersUpTo.tokens, List.singleton_append, parameterList]
    simp only [accept?_tok, reads_ok, and_true]
    rfl
  | some found last =>
    have hnone : accept? (.symbol .rparen) (found.tokens ++ last.val :: r) = .none :=
      (found.startsWith.append _).accept?_symbol rfl
    rw [ParametersUpTo.tokens, List.append_assoc, List.singleton_append, parameterList]
    simp only [hnone, reads_bind, reads_after, reads_expect, reads_pure]
    refine ⟨found.nodes, _, found.reads (accept?_sign_ne last (by decide) r)
      (accept?_sign_ne last (by decide) r), last.val, r, ⟨last.property, rfl⟩, ?_, rfl⟩
    rw [List.append_cons, here_append (by simp), ParametersUpTo.node, ParametersUpTo.tokens,
      ParametersUpTo.nodes]

theorem Definition.reads (d : Definition) (hd : d.Settled) :
    Reads (definition stop (d.tokens ++ r)) d.node r := by
  obtain ⟨workflow, name, start, list, body⟩ := d
  simp only [Definition.tokens, List.cons_append, List.append_assoc, definition, reads_bind,
    reads_expect, reads_after, reads_pure]
  exact ⟨workflow.val, _, ⟨workflow.property, rfl⟩, name.val, _, ⟨name.property, rfl⟩, start.val,
    _, ⟨start.property, rfl⟩, list.node, _, list.reads, body.node, r, body.reads hd, rfl, rfl⟩

/-- The definitions of a program are read first, whatever stands behind them. -/
theorem Program.definitions_tokens_append (p : Program) (hp : p.Settled) (s : List Token) :
    definitions stop (p.tokens ++ s) = (p.map Definition.node ++ ·) <$> definitions stop s := by
  induction p with
  | nil =>
    rw [Program.tokens, List.flatMap_nil, List.nil_append]
    cases definitions stop s <;> rfl
  | cons d rest ih =>
    have hrest : definitions stop (rest.flatMap Definition.tokens ++ s) = _ :=
      ih fun e he => hp e (List.mem_cons_of_mem d he)
    obtain ⟨hshorter, hd⟩ : Reads
        (definition stop (d.tokens ++ (rest.flatMap Definition.tokens ++ s)))
        d.node (rest.flatMap Definition.tokens ++ s) := d.reads (hp d List.mem_cons_self)
    have hempty : (d.tokens ++ (rest.flatMap Definition.tokens ++ s)).isEmpty = false := by
      rw [List.isEmpty_eq_false_iff]
      exact List.ne_nil_of_length_pos (Nat.zero_lt_of_lt hshorter)
    rw [Program.tokens, List.flatMap_cons, List.append_assoc, definitions, hempty, hd]
    simp only [Bool.false_eq_true, if_false, ok_bind, hrest]
    cases definitions stop s <;> rfl

theorem Program.definitions_tokens (p : Program) (hp : p.Settled) :
    definitions stop p.tokens = .ok (p.map Definition.node) := by
  have hnil : definitions stop [] = .ok [] := by
    rw [definitions]
    rfl
  have hread : definitions stop (p.tokens ++ []) = _ := p.definitions_tokens_append hp []
  rw [List.append_nil, hnil] at hread
  exact hread.trans (congrArg Except.ok (List.append_nil (p.map Definition.node)))

end Phrase

end Workflow
