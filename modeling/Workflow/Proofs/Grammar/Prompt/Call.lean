import Workflow.Proofs.Grammar.Prompt.Expression

/-!
# Reading calls is prompt

Only calls are looked at further ahead than one token: behind `=` a call statement is told from an
expression, and behind a parenthesis named arguments from positional ones. As long as the choice is
open, what has been read can still become either, so that no fault is found too late.
-/

namespace Workflow.Grammar

open Phrase Recognizer

/-! ## Named arguments -/

theorem leaves_namedEntries :
    leaves namedEntries = (single .identifier).followedBy ((single (.symbol .assign)).followedBy
      ((leaves expression).followedBy
        (either (.symbol .comma) (leaves namedEntries) nothing))) := by
  funext stop s
  rw [leaves, namedEntries]
  refine rest_bind ?_
  rintro ⟨name, r, h⟩
  refine rest_after_bind ?_
  rintro ⟨assign, r, h⟩
  refine rest_after_bind ?_
  rintro ⟨value, r, h⟩
  dsimp only
  rw [either]
  cases accept? (.symbol .comma) r with
  | none => rfl
  | some comma => exact rest_after_bind_pure fun _ => rfl

theorem leaves_namedArgumentsUpTo :
    leaves namedArgumentsUpTo = (leaves namedEntries).followedBy (single (.symbol .rparen)) := by
  funext stop s
  have hlist : Read.rest <$> namedArguments stop s = leaves namedEntries stop s := by
    rw [namedArguments]
    exact rest_bind_pure fun _ => rfl
  rw [leaves, namedArgumentsUpTo, followedBy, ← hlist]
  refine rest_bind ?_
  rintro ⟨list, r, h⟩
  exact rest_after_bind_pure fun _ => rfl

theorem leaves_namedOrNoArguments :
    leaves namedOrNoArguments =
      either (.symbol .rparen) nothing (leaves namedArgumentsUpTo) := by
  funext stop s
  rw [leaves, namedOrNoArguments, either]
  cases accept? (.symbol .rparen) s with
  | some last => rfl
  | none => exact rest_bind_pure fun _ => rfl

theorem leaves_clauseArguments :
    leaves clauseArguments =
      (single (.symbol .lparen)).followedBy (leaves namedArgumentsUpTo) := by
  funext stop s
  rw [leaves, clauseArguments]
  exact rest_bind fun _ => rest_after _ _

instance : Inhabited Phrase.NamedArguments := ⟨.last default default default⟩

instance : Inhabited Phrase.NamedUpTo := ⟨.mk default default⟩

theorem prompt_namedEntries (s : List Token) :
    Prompt (leaves namedEntries) (Derived NamedArguments.tokens) s := by
  rw [leaves_namedEntries]
  refine ((prompt_single _ s).andThen (fun r _ => (prompt_single _ r).andThen (fun q _ =>
    (prompt_expression q).separated (N := {w | ∀ (name : Tok .identifier) (assign : Sign .assign),
      name.val :: assign.val :: w ∈ Derived NamedArguments.tokens})
      (fun q' _ => prompt_namedEntries q') ?_ ?_) ?_) ?_).mono ?_
  · rintro _ ⟨value, rfl⟩ name assign
    exact ⟨.last name assign value, rfl⟩
  · rintro _ ⟨value, rfl⟩ comma _ ⟨rest, rfl⟩ name assign
    exact ⟨.cons name assign value comma rest, rfl⟩
  · exact ⟨_, fun name assign => ⟨.last name assign default, rfl⟩⟩
  · exact exists_mul (exists_derived _) ⟨_, fun name assign => ⟨.last name assign default, rfl⟩⟩
  · rintro _ ⟨_, ⟨name, rfl⟩, _, ⟨_, ⟨assign, rfl⟩, _, hw, rfl⟩, rfl⟩
    exact hw name assign
termination_by s.length
decreasing_by all_goals omega

theorem prompt_namedArgumentsUpTo (s : List Token) :
    Prompt (leaves namedArgumentsUpTo) (Derived NamedUpTo.tokens) s := by
  rw [leaves_namedArgumentsUpTo]
  refine ((prompt_namedEntries s).andThen (fun r _ => prompt_single _ r)
    (exists_derived _)).mono ?_
  rintro _ ⟨_, ⟨args, rfl⟩, _, ⟨stop, rfl⟩, rfl⟩
  exact ⟨.mk args stop, rfl⟩

theorem prompt_namedOrNoArguments (s : List Token) :
    Prompt (leaves namedOrNoArguments) (Derived NamedOrNone.tokens) s := by
  rw [leaves_namedOrNoArguments]
  refine prompt_either (L := 1) (fun r _ => prompt_nothing rfl) ?_ fun _ =>
    (prompt_namedArgumentsUpTo s).mono ?_
  · rintro stop _ rfl
    exact ⟨.none stop, rfl⟩
  · rintro _ ⟨args, rfl⟩
    exact ⟨.some args, rfl⟩

theorem prompt_clauseArguments (s : List Token) :
    Prompt (leaves clauseArguments) (Derived Clause.tokens) s := by
  rw [leaves_clauseArguments]
  refine ((prompt_single _ s).andThen (fun r _ => prompt_namedArgumentsUpTo r)
    (exists_derived _)).mono ?_
  rintro _ ⟨_, ⟨start, rfl⟩, _, ⟨args, rfl⟩, rfl⟩
  exact ⟨.mk start args, rfl⟩

/-! ## The arguments of a call statement -/

theorem leaves_eq_ok {α : Type}
    {read : (stop : Position) → (s : List Token) → Except ParseError (Read α s)} {stop : Position}
    {s w r : List Token} {a : α} (h : Reads (read stop s) a r) (hs : s = w) :
    leaves read stop w = .ok r := by
  subst hs
  obtain ⟨_, hread⟩ := h
  rw [leaves, hread]
  rfl

/-- What names a call and its parenthesis, in front of arguments of a language. -/
abbrev CallOf (args : Language Token) : Language Token :=
  Derived QualifiedName.tokens * (Single (.symbol .lparen) * args)

theorem mem_callOf {args : Language Token} (name : Phrase.QualifiedName) (start : Sign .lparen)
    {w : List Token} (hw : w ∈ args) : name.tokens ++ start.val :: w ∈ CallOf args :=
  ⟨_, ⟨name, rfl⟩, _, ⟨_, ⟨start, rfl⟩, w, hw, rfl⟩, rfl⟩

/-- A name alone leaves open whether it is that of an argument. -/
theorem namedArgumentAhead_decided (v : List Token) :
    (∀ args : Language Token, (∃ w, w ∈ args) →
      (∀ name : Tok .identifier, ∃ more, name.val :: more ∈ args) → ∃ more, v ++ more ∈ args) ∨
    ∀ x y, namedArgumentAhead (v ++ x) = namedArgumentAhead (v ++ y) := by
  match v with
  | [] => exact .inl fun _ hsome _ => hsome
  | [t] =>
    by_cases ht : t.lexeme.isIdentifier = true
    · exact .inl fun _ _ hname => hname ⟨t, ht⟩
    · refine .inr fun x y => ?_
      rw [Bool.not_eq_true] at ht
      exact (namedArgumentAhead_of_not_name ht).trans (namedArgumentAhead_of_not_name ht).symm
  | t :: u :: rest => exact .inr fun _ _ => rfl

theorem exists_namedUpTo (name : Tok .identifier) :
    ∃ more, name.val :: more ∈ Derived NamedUpTo.tokens :=
  ⟨_, .mk (.last name default default) default, rfl⟩

theorem exists_positional (name : Tok .identifier) :
    ∃ more, name.val :: more ∈ Derived (ArgumentsUpTo.tokens : Phrase.ArgumentsUpTo .rparen → _) :=
  ⟨_, .some (.last (.mk (.plain (.reference (.last (.mk name .nil)))) .nil)) default, rfl⟩

theorem leaves_callArguments (stop : Position) (s : List Token) :
    leaves callArguments stop s =
      if namedArgumentAhead s then leaves namedArgumentsUpTo stop s
      else leaves (argumentsUpTo · .rparen) stop s := by
  rw [leaves, callArguments]
  split
  · exact rest_bind_pure fun _ => rfl
  · exact rest_bind_pure fun _ => rfl

instance {close : Symbol} : Inhabited (Phrase.ArgumentsUpTo close) := ⟨.none default⟩

theorem prompt_callArguments (s : List Token) :
    Prompt (leaves callArguments) (Derived CallArguments.tokens) s := by
  cases hahead : namedArgumentAhead s with
  | true =>
    refine ((prompt_namedArgumentsUpTo s).lookahead ?_
      (fun v => (namedArgumentAhead_decided v).imp_left fun hopen =>
        hopen _ (exists_derived _) exists_namedUpTo) fun stop s' hs' => ?_).mono ?_
    · rintro _ ⟨args, rfl⟩
      exact leaves_eq_ok args.reads (List.append_nil _)
    · rw [leaves_callArguments, hs', hahead, if_pos rfl]
    · rintro _ ⟨args, rfl⟩
      exact ⟨.named args, rfl⟩
  | false =>
    refine ((prompt_argumentsUpTo .rparen s).lookahead ?_
      (fun v => (namedArgumentAhead_decided v).imp_left fun hopen =>
        hopen _ (exists_derived _) exists_positional) fun stop s' hs' => ?_).mono ?_
    · rintro _ ⟨args, rfl⟩
      exact leaves_eq_ok (args.reads (.inl rfl)) (List.append_nil _)
    · rw [leaves_callArguments, hs', hahead, if_neg Bool.false_ne_true]
    · rintro _ ⟨args, rfl⟩
      exact ⟨.positional args, rfl⟩

/-! ## Calls whose result is assigned -/

theorem leaves_nameTokens :
    leaves nameTokens = (single .identifier).followedBy
      (either (.symbol .dot) (leaves nameTokens) nothing) := by
  funext stop s
  rw [leaves, nameTokens]
  refine rest_bind ?_
  rintro ⟨first, r, h⟩
  dsimp only
  rw [either]
  cases accept? (.symbol .dot) r with
  | none => rfl
  | some dot => exact rest_after_bind_pure fun _ => rfl

theorem prompt_nameTokens (s : List Token) :
    Prompt (leaves nameTokens) (Derived QualifiedName.tokens) s := by
  rw [leaves_nameTokens]
  refine (prompt_single .identifier s).separated (fun r _ => prompt_nameTokens r) ?_ ?_
  · rintro _ ⟨name, rfl⟩
    exact ⟨.last name, rfl⟩
  · rintro _ ⟨name, rfl⟩ dot _ ⟨rest, rfl⟩
    exact ⟨.dotted name dot rest, rfl⟩
termination_by s.length
decreasing_by all_goals omega

theorem leaves_namedCall :
    leaves namedCall = (leaves nameTokens).followedBy ((single (.symbol .lparen)).followedBy
      ((leaves namedOrNoArguments).followedBy
        (refuse .binaryOperator .endOfStatement nothing))) := by
  funext stop s
  rw [leaves, namedCall]
  refine rest_bind ?_
  rintro ⟨names, r, h⟩
  refine rest_after_bind ?_
  rintro ⟨start, r, h⟩
  refine rest_after_bind ?_
  rintro ⟨args, r, h⟩
  dsimp only
  rw [refuse]
  split <;> rfl

instance : Inhabited Phrase.NamedOrNone := ⟨.none default⟩

theorem prompt_namedCall (s : List Token) :
    Prompt (leaves namedCall) (CallOf (Derived NamedOrNone.tokens)) s := by
  rw [leaves_namedCall]
  refine (prompt_nameTokens s).andThen (fun r _ => (prompt_single _ r).andThen (fun q _ => ?_)
    (exists_derived _)) (exists_mul (exists_derived _) (exists_derived _))
  refine ((prompt_namedOrNoArguments q).andThen (M := 1) (fun q' _ => ?_) ⟨[], rfl⟩).mono ?_
  · exact prompt_refuse _ (prompt_nothing rfl) ⟨[], rfl⟩
  · rw [mul_one]
    exact fun w hw => hw

/-- A closing parenthesis or a name leaves open what kind of call it belongs to. -/
theorem namedOrNoArgumentsAhead_decided (v : List Token) :
    (∀ args : Language Token, (∀ stop : Sign .rparen, [stop.val] ∈ args) →
      (∀ name : Tok .identifier, ∃ more, name.val :: more ∈ args) → ∃ more, v ++ more ∈ args) ∨
    ∀ x y, namedOrNoArgumentsAhead (v ++ x) = namedOrNoArgumentsAhead (v ++ y) := by
  match v with
  | [] => exact .inl fun _ hclose _ => ⟨_, hclose default⟩
  | [t] =>
    by_cases ht : t.lexeme = .symbol .rparen
    · exact .inl fun _ hclose _ => ⟨[], hclose ⟨t, decide_eq_true ht⟩⟩
    · refine (namedArgumentAhead_decided [t]).imp (fun hopen args hclose hname => ?_)
        fun hsame x y => ?_
      · exact hopen args ⟨_, hclose default⟩ hname
      · have hahead (z : List Token) :
            namedOrNoArgumentsAhead ([t] ++ z) = namedArgumentAhead ([t] ++ z) := by
          rw [List.singleton_append, namedOrNoArgumentsAhead, if_neg ht]
        rw [hahead, hahead, hsame x y]
  | t :: u :: rest => exact .inr fun _ _ => rfl

/-- A name with or without its parenthesis leaves open what kind of call it belongs to, and so does
what leaves it open behind the parenthesis. -/
theorem namedCallAhead_decided (v : List Token) :
    (∀ args : Language Token, (∀ stop : Sign .rparen, [stop.val] ∈ args) →
      (∀ name : Tok .identifier, ∃ more, name.val :: more ∈ args) →
        ∃ more, v ++ more ∈ CallOf args) ∨
    ∀ x y, namedCallAhead (v ++ x) = namedCallAhead (v ++ y) := by
  match v with
  | [] =>
    exact .inl fun _ hclose _ => ⟨_, mem_callOf (.last default) default (hclose default)⟩
  | [t] =>
    by_cases ht : t.lexeme.isIdentifier = true
    · exact .inl fun _ hclose _ => ⟨_, mem_callOf (.last ⟨t, ht⟩) default (hclose default)⟩
    · refine .inr fun x y => ?_
      rw [Bool.not_eq_true] at ht
      exact (namedCallAhead_of_not_name ht).trans (namedCallAhead_of_not_name ht).symm
  | t :: u :: rest =>
    by_cases ht : t.lexeme.isIdentifier = true
    · by_cases hdot : u.lexeme = .symbol .dot
      · refine (namedCallAhead_decided rest).imp (fun hopen args hclose hname => ?_)
          fun hsame x y => ?_
        · obtain ⟨more, _, ⟨name, rfl⟩, w, hw, hmore⟩ := hopen args hclose hname
          refine ⟨more, _, ⟨.dotted ⟨t, ht⟩ ⟨u, decide_eq_true hdot⟩ name, rfl⟩, w, hw, ?_⟩
          exact congrArg (t :: u :: ·) hmore
        · simpa [namedCallAhead, ht, hdot] using hsame x y
      · by_cases hparen : u.lexeme = .symbol .lparen
        · refine (namedOrNoArgumentsAhead_decided rest).imp (fun hopen args hclose hname => ?_)
            fun hsame x y => ?_
          · obtain ⟨more, hmore⟩ := hopen args hclose hname
            exact ⟨more, mem_callOf (.last ⟨t, ht⟩) ⟨u, decide_eq_true hparen⟩ hmore⟩
          · simpa [namedCallAhead, ht, hparen] using hsame x y
        · exact .inr fun x y => by simp [namedCallAhead, hdot, hparen]
    · exact .inr fun x y => by simp [namedCallAhead, ht]

theorem exists_namedOrNone (name : Tok .identifier) :
    ∃ more, name.val :: more ∈ Derived NamedOrNone.tokens := by
  obtain ⟨more, args, hargs⟩ := exists_namedUpTo name
  exact ⟨more, .some args, hargs⟩

theorem endsExpression_nil : EndsExpression [] := ⟨⟨rfl, rfl, rfl⟩, rfl⟩

/-- What is assigned: a call statement if one comes next, and an expression otherwise. -/
def assigned : Recognizer := fun stop s =>
  if namedCallAhead s then leaves namedCall stop s else leaves expression stop s

/-- What is assigned is told apart before a fault is found in it. -/
theorem prompt_assigned (s : List Token) :
    Prompt assigned (CallOf (Derived NamedOrNone.tokens) + Derived Expression.tokens) s := by
  cases hahead : namedCallAhead s with
  | true =>
    refine ((prompt_namedCall s).lookahead ?_
      (fun v => (namedCallAhead_decided v).imp_left fun hopen =>
        hopen _ (fun stop => ⟨.none stop, rfl⟩) exists_namedOrNone) fun stop s' hs' => ?_).mono ?_
    · rintro _ ⟨_, ⟨name, rfl⟩, _, ⟨_, ⟨start, rfl⟩, _, ⟨args, rfl⟩, rfl⟩, rfl⟩
      exact leaves_eq_ok (reads_namedCall name start args rfl) (by simp)
    · rw [assigned, hs', hahead, if_pos rfl]
    · exact fun w hw => .inl hw
  | false =>
    refine ((prompt_expression s).lookahead ?_
      (fun v => (namedCallAhead_decided v).imp_left fun hopen => ?_) fun stop s' hs' => ?_).mono ?_
    · rintro _ ⟨value, rfl⟩
      exact leaves_eq_ok (value.reads endsExpression_nil) (List.append_nil _)
    · obtain ⟨more, _, ⟨name, rfl⟩, _, ⟨_, ⟨start, rfl⟩, _, ⟨args, rfl⟩, rfl⟩, hmore⟩ :=
        hopen (Derived ArgumentsUpTo.tokens) (fun stop => ⟨.none stop, rfl⟩) exists_positional
      refine ⟨more, .mk (.plain (.call name start args)) .nil, ?_⟩
      rw [← hmore]
      simp [Expression.tokens, Term.tokens, Operand.tokens, Operations.tokens]
    · rw [assigned, hs', hahead, if_neg Bool.false_ne_true]
    · exact fun w hw => .inr hw

end Workflow.Grammar
