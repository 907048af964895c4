import Workflow.Proofs.Grammar.Prompt.Call

/-!
# Reading statements is prompt

Words are the tokens of settled phrases. A statement is settled where a closing brace follows it,
and a row of statements is read up to where no other statement can start.
-/

namespace Workflow.Grammar

open Phrase Recognizer

/-! ## Settled phrases -/

/-- The tokens of the settled ones of some phrases. -/
abbrev Words {D : Type} (settled : D → Prop) (tokens : D → List Token) : Language Token :=
  Derived fun d : { d : D // settled d } => tokens d.val

/-- A statement that may be the last of a block. -/
def IsLast (d : Phrase.Statement) : Prop := ∀ close : Sign .rbrace, d.Settled (some close.val)

/-- Statements that may be the last of a block. -/
def AreLast (d : Phrase.Statements) : Prop := ∀ close : Sign .rbrace, d.Settled (some close.val)

/-- A closing brace is nothing that a statement must not be followed by. -/
theorem isLast_of_settled {next : Option Token} {d : Phrase.Statement} (h : d.Settled next) :
    IsLast d := by
  intro close
  cases d with
  | assignCall target assign name start args =>
    cases args with
    | none stop =>
      rintro _ ⟨⟩
      rw [lexeme_sign]
      rfl
    | some args => trivial
  | returnNothing return_ =>
    rintro _ ⟨⟩
    rw [canStartExpression_iff, lexeme_sign]
    decide
  | _ => exact h

theorem isLast_returnNothing (return_ : Word .return) : IsLast (.returnNothing return_) := by
  refine isLast_of_settled fun t (ht : t ∈ none) => ?_
  cases ht

/-- What is assigned makes a statement that may be the last of a block. -/
theorem assigned_mem (target : Phrase.Reference) (assign : Sign .assign) {w : List Token}
    (hw : w ∈ CallOf (Derived NamedOrNone.tokens) + Derived Expression.tokens) :
    target.tokens ++ assign.val :: w ∈ Words IsLast Statement.tokens := by
  have call (name : Phrase.QualifiedName) (start : Sign .lparen) (args : Phrase.NamedOrNone) :
      IsLast (.assignCall target assign name start args) := by
    have hsettled : Statement.Settled none (.assignCall target assign name start args) := by
      cases args with
      | none stop => exact fun t ht => by cases ht
      | some args => trivial
    exact isLast_of_settled hsettled
  obtain ⟨_, ⟨name, rfl⟩, _, ⟨_, ⟨start, rfl⟩, _, ⟨args, rfl⟩, rfl⟩, rfl⟩ | ⟨value, rfl⟩ := hw
  · exact ⟨⟨_, call name start args⟩, rfl⟩
  · cases hvalue : value.isEmptyCall with
    | false => exact ⟨⟨.assign target assign value, fun _ => hvalue⟩, rfl⟩
    | true =>
      -- an empty call is a call statement with the same tokens
      unfold Expression.isEmptyCall at hvalue
      split at hvalue
      · rename_i name start stop
        refine ⟨⟨_, call name start (.none stop)⟩, ?_⟩
        simp [Statement.tokens, NamedOrNone.tokens, Expression.tokens, Term.tokens, Operand.tokens,
          ArgumentsUpTo.tokens, Operations.tokens]
      · cases hvalue

/-! ## Assignments and call statements -/

/-- What comes behind a reference that starts a statement. -/
def statementTail (subscripted : Bool) : Recognizer :=
  either (.symbol .assign) assigned <|
    if subscripted then refuse (.symbol .lparen) .plainName (fail .assignOrCall)
    else either (.symbol .lparen) (leaves callArguments) (fail .assignOrCall)

theorem leaves_callOrAssignment : leaves callOrAssignment = behindReference statementTail := by
  funext stop s
  rw [leaves, callOrAssignment, behindReference]
  cases reference stop s with
  | error e => rfl
  | ok x =>
    obtain ⟨parts, behind, h⟩ := x
    simp only [ok_bind, statementTail]
    rw [either]
    cases accept? (.symbol .assign) behind with
    | some assign =>
      dsimp only [after_some, Read.after]
      rw [assigned]
      split
      · exact rest_after_bind_pure fun _ => rfl
      · exact rest_after_bind_pure fun _ => rfl
    | none =>
      dsimp only [after_none]
      cases isSubscripted parts with
      | true =>
        rw [if_pos rfl, refuse]
        cases accept? (.symbol .lparen) behind with
        | none => rfl
        | some start => rfl
      | false =>
        rw [if_neg Bool.false_ne_true, either]
        cases accept? (.symbol .lparen) behind with
        | none => rfl
        | some start => exact rest_after_bind_pure fun _ => rfl

theorem prompt_callOrAssignment (s : List Token) :
    Prompt (leaves callOrAssignment) (Words IsLast Statement.tokens) s := by
  have goesOn (d : Phrase.Reference) : ∃ w, d.tokens ++ w ∈ Words IsLast Statement.tokens :=
    ⟨_, assigned_mem d default (.inr ⟨default, rfl⟩)⟩
  rw [leaves_callOrAssignment]
  refine prompt_behindReference (prompt_reference s) goesOn fun d rest _ => ?_
  refine prompt_either (fun r _ => prompt_assigned r) (fun assign w => assigned_mem d assign)
    fun _ => ?_
  cases hd : isSubscripted d.nodes with
  | true => exact prompt_refuse _ (prompt_fail _ (goesOn d)) (goesOn d)
  | false =>
    obtain ⟨name, rfl⟩ := d.exists_qualifiedName hd
    refine prompt_either (fun r _ => prompt_callArguments r) ?_ fun _ => prompt_fail _ (goesOn _)
    rintro start _ ⟨args, rfl⟩
    exact ⟨⟨.call name start args, fun _ => trivial⟩, by simp [Statement.tokens]⟩

/-! ## Clauses -/

theorem leavesSome_parallelArguments :
    leavesSome parallelArguments =
      either (.symbol .lparen) (leaves namedArgumentsUpTo) nothing := by
  funext stop s
  rw [leavesSome, parallelArguments, either]
  obtain hnone | ⟨start, r, rfl⟩ := accept?_cases (.symbol .lparen) s
  · rw [hnone]
    rfl
  · rw [accept?_tok, Option.isSome_some, if_pos rfl]
    calc _ = leaves clauseArguments stop (start.val :: r) :=
          rest_bind_pure fun _ => rfl
      _ = leaves namedArgumentsUpTo stop r := by
          rw [leaves_clauseArguments, followedBy, single_tok, ok_bind]

theorem prompt_parallelArguments (s : List Token) :
    Prompt (leavesSome parallelArguments) (Derived Options.tokens) s := by
  rw [leavesSome_parallelArguments]
  refine prompt_either (fun r _ => prompt_namedArgumentsUpTo r) ?_ fun _ =>
    prompt_nothing ⟨.none, rfl⟩
  rintro start _ ⟨args, rfl⟩
  exact ⟨.some (.mk start args), rfl⟩

theorem leaves_caughtName :
    leaves caughtName = (single (.symbol .lparen)).followedBy
      ((single .identifier).followedBy (single (.symbol .rparen))) := by
  funext stop s
  rw [leaves, caughtName]
  refine rest_bind ?_
  rintro ⟨start, r, h⟩
  refine rest_after_bind ?_
  rintro ⟨name, r, h⟩
  exact rest_after_bind_pure fun _ => rfl

theorem prompt_caughtName (s : List Token) :
    Prompt (leaves caughtName) (Single (.symbol .lparen) *
      (Single .identifier * Single (.symbol .rparen))) s := by
  rw [leaves_caughtName]
  exact (prompt_single _ s).andThen (fun r _ => (prompt_single _ r).andThen
    (fun q _ => prompt_single _ q) (exists_derived _))
    (exists_mul (exists_derived _) (exists_derived _))

/-! ## Statements -/

theorem leavesSome_statements {stop : Position} {s : List Token}
    (hs : (s.isEmpty || (accept? (.symbol .rbrace) s).isSome) = false) :
    leavesSome statements stop s =
      (leaves statement).followedBy (leavesSome statements) stop s := by
  rw [leavesSome, statements, hs, if_neg Bool.false_ne_true]
  refine rest_bind ?_
  rintro ⟨first, r, h⟩
  exact rest_afterSome_bind_pure fun _ => rfl

theorem leaves_block :
    leaves block = (single (.symbol .lbrace)).followedBy
      ((leavesSome statements).followedBy (single (.symbol .rbrace))) := by
  funext stop s
  rw [leaves, block]
  refine rest_bind ?_
  rintro ⟨start, r, h⟩
  refine rest_afterSome_bind ?_
  rintro ⟨found, r, h⟩
  exact rest_after_bind_pure fun _ => rfl

/-- The end of what guards a block, and the block. -/
def guarded : Recognizer :=
  (leaves expression).followedBy ((single (.symbol .rparen)).followedBy (leaves block))

theorem leaves_condition :
    leaves condition = (single (.symbol .lparen)).followedBy guarded := by
  funext stop s
  rw [leaves, condition]
  refine rest_bind ?_
  rintro ⟨start, r, h⟩
  refine rest_after_bind ?_
  rintro ⟨test, r, h⟩
  refine rest_after_bind ?_
  rintro ⟨close, r, h⟩
  exact rest_after_bind_pure fun _ => rfl

theorem leavesSome_elseClauses :
    leavesSome elseClauses = either (.keyword .else) (either (.keyword .if)
      ((leaves condition).followedBy (leavesSome elseClauses)) (leaves block)) nothing := by
  funext stop s
  rw [leavesSome, elseClauses, either]
  cases accept? (.keyword .else) s with
  | none => rfl
  | some else_ =>
    obtain ⟨else_, behind, h⟩ := else_
    dsimp only
    rw [either]
    cases accept? (.keyword .if) behind with
    | none => exact rest_after_bind_pure fun _ => rfl
    | some if_ =>
      refine rest_after_bind ?_
      rintro ⟨first, r, h⟩
      exact rest_afterSome_bind_pure fun _ => rfl

/-- A loop behind its `for`. -/
def looped : Recognizer :=
  (single (.symbol .lparen)).followedBy ((single .identifier).followedBy
    ((single (.keyword .in)).followedBy guarded))

theorem leaves_loop (for_ : Token) : leaves (loop · for_) = looped := by
  funext stop s
  rw [leaves, loop]
  refine rest_bind ?_
  rintro ⟨start, r, h⟩
  refine rest_after_bind ?_
  rintro ⟨name, r, h⟩
  refine rest_after_bind ?_
  rintro ⟨in_, r, h⟩
  refine rest_after_bind ?_
  rintro ⟨items, r, h⟩
  refine rest_after_bind ?_
  rintro ⟨close, r, h⟩
  exact rest_after_bind_pure fun _ => rfl

theorem leavesSome_branches :
    leavesSome branches = either (.keyword .branch)
      ((leaves block).followedBy (leavesSome branches)) nothing := by
  funext stop s
  rw [leavesSome, branches, either]
  cases accept? (.keyword .branch) s with
  | none => rfl
  | some branch =>
    refine rest_after_bind ?_
    rintro ⟨body, r, h⟩
    exact rest_afterSome_bind_pure fun _ => rfl

theorem leaves_parallelBody :
    leaves parallelBody = either (.keyword .for) looped (either (.keyword .branch)
      ((leaves block).followedBy (leavesSome branches)) (fail .branchOrFor)) := by
  funext stop s
  rw [leaves, parallelBody, either]
  cases accept? (.keyword .for) s with
  | some found =>
    obtain ⟨for_, r, h⟩ := found
    dsimp only
    rw [← leaves_loop for_]
    exact rest_after_bind_pure fun _ => rfl
  | none =>
    dsimp only
    rw [either]
    cases accept? (.keyword .branch) s with
    | none => rfl
    | some branch =>
      refine rest_after_bind ?_
      rintro ⟨body, r, h⟩
      exact rest_afterSome_bind_pure fun _ => rfl

theorem leavesSome_catchClause :
    leavesSome catchClause = either (.keyword .catch)
      ((leaves caughtName).followedBy (leaves block)) nothing := by
  funext stop s
  rw [leavesSome, catchClause, either]
  cases accept? (.keyword .catch) s with
  | none => rfl
  | some catch_ =>
    refine rest_after_bind ?_
    rintro ⟨name, r, h⟩
    exact rest_after_bind_pure fun _ => rfl

/-- The clauses of a `try`, at least one. -/
def clauses (position : Position) : Recognizer :=
  either (.keyword .retry) ((leaves clauseArguments).followedBy (leavesSome catchClause)) <|
    either (.keyword .catch) ((leaves caughtName).followedBy (leaves block)) fun _ _ =>
      .error (.bareTry position)

section

variable {stop : Position} {t : Token} {r : List Token}

theorem leaves_statement_name {name : String} (ht : t.lexeme = .identifier name) :
    leaves statement stop (t :: r) = leaves callOrAssignment stop (t :: r) := by
  rw [leaves, statement]
  simp only [ht]
  rfl

theorem leaves_statement_if (ht : t.lexeme = .keyword .if) :
    leaves statement stop (t :: r) =
      (leaves condition).followedBy (leavesSome elseClauses) stop r := by
  rw [leaves, statement]
  simp only [ht]
  refine rest_after_bind ?_
  rintro ⟨first, r, h⟩
  exact rest_afterSome_bind_pure fun _ => rfl

theorem leaves_statement_for (ht : t.lexeme = .keyword .for) :
    leaves statement stop (t :: r) = looped stop r := by
  rw [← leaves_loop t, leaves, statement]
  simp only [ht]
  exact rest_after _ _

theorem leaves_statement_parallel (ht : t.lexeme = .keyword .parallel) :
    leaves statement stop (t :: r) =
      (leavesSome parallelArguments).followedBy (leaves parallelBody) stop r := by
  rw [leaves, statement]
  simp only [ht]
  refine rest_afterSome_bind ?_
  rintro ⟨args, r, h⟩
  exact rest_after_bind_pure fun _ => rfl

theorem leaves_statement_try (ht : t.lexeme = .keyword .try) :
    leaves statement stop (t :: r) = (leaves block).followedBy (clauses t.position) stop r := by
  rw [leaves, statement]
  simp only [ht]
  refine rest_after_bind ?_
  rintro ⟨body, r, h⟩
  dsimp only
  rw [clauses, either, retryClause]
  cases accept? (.keyword .retry) r with
  | some retry =>
    obtain ⟨retry, r, h⟩ := retry
    dsimp only
    rw [followedBy, leaves]
    cases clauseArguments stop r with
    | error e => rfl
    | ok clause =>
      obtain ⟨child, r, h⟩ := clause
      simp only [after_ok, Read.after, ok_bind, pure, Except.pure, afterSome_ok, ReadSome.after]
      exact rest_afterSome_bind_pure fun _ => rfl
  | none =>
    dsimp only [afterSome_ok, ok_bind, ReadSome.after]
    rw [either, catchClause]
    cases accept? (.keyword .catch) r with
    | none => rfl
    | some catch_ =>
      obtain ⟨catch_, r, h⟩ := catch_
      dsimp only
      rw [followedBy, leaves]
      cases caughtName stop r with
      | error e => rfl
      | ok name =>
        obtain ⟨name, r, h⟩ := name
        simp only [after_ok, Read.after, ok_bind]
        change _ = leaves block stop r
        rw [leaves]
        cases block stop r with
        | error e => rfl
        | ok body => rfl

theorem leaves_statement_throw (ht : t.lexeme = .keyword .throw) :
    leaves statement stop (t :: r) = leaves expression stop r := by
  rw [leaves, statement]
  simp only [ht]
  exact rest_after_bind_pure fun _ => rfl

theorem leaves_statement_break (ht : t.lexeme = .keyword .break) :
    leaves statement stop (t :: r) = .ok r := by
  rw [leaves, statement]
  simp only [ht]
  rfl

theorem leaves_statement_continue (ht : t.lexeme = .keyword .continue) :
    leaves statement stop (t :: r) = .ok r := by
  rw [leaves, statement]
  simp only [ht]
  rfl

theorem leaves_statement_return (ht : t.lexeme = .keyword .return) :
    leaves statement stop (t :: r) =
      if r.head?.any (·.lexeme.startsExpression) then leaves expression stop r else .ok r := by
  rw [leaves, statement]
  simp only [ht]
  split
  · exact rest_after_bind_pure fun _ => rfl
  · rfl

end

/-- Expressions in front of blocks, with a parenthesis between them. -/
abbrev GuardedWords : Language Token :=
  Derived Expression.tokens * (Single (.symbol .rparen) * Words Block.Settled Block.tokens)

/-- What stands behind the `for` of loops. -/
def LoopWords : Language Token :=
  {w | ∀ for_ : Word .for, for_.val :: w ∈ Words Loop.Settled Loop.tokens}

/-- The clauses of a `try`, at least one of them. -/
def ClauseWords : Language Token :=
  Words (fun c : Phrase.Retry × Phrase.Handler => (c.1 ≠ .none ∨ c.2 ≠ .none) ∧ c.2.Settled)
    fun c => c.1.tokens ++ c.2.tokens

/-- Whether statements end depends on the next token only. -/
theorem ends_congr {s s' : List Token} (h : s'.head? = s.head?) :
    (s'.isEmpty || (accept? (.symbol .rbrace) s').isSome) =
      (s.isEmpty || (accept? (.symbol .rbrace) s).isSome) := by
  cases s with
  | nil => rw [List.head?_eq_none_iff.mp h]
  | cons t r =>
    obtain ⟨r', rfl⟩ := List.head?_eq_some_iff.mp h
    by_cases ht : (Terminal.symbol .rbrace).accepts t.lexeme = true <;> simp [accept?, ht]

/-- A statement goes in front of statements that may follow it. -/
theorem cons_mem {next : Option Token} {first : Phrase.Statement} (hfirst : first.Settled next)
    {v : List Token} (hv : v ∈ Words AreLast Statements.tokens) (hnext : v = [] ∨ v.head? = next) :
    first.tokens ++ v ∈ Words AreLast Statements.tokens := by
  obtain ⟨⟨rest, hrest⟩, rfl⟩ := hv
  refine ⟨⟨.cons first rest, fun close => ⟨?_, hrest close⟩⟩, rfl⟩
  cases hhead : rest.tokens.head? with
  | none => exact isLast_of_settled hfirst close
  | some t =>
    obtain hnil | hsome := hnext
    · have hnil : rest.tokens = [] := hnil
      rw [hnil] at hhead
      cases hhead
    · have hsome : rest.tokens.head? = next := hsome
      rw [← hsome, hhead] at hfirst
      exact hfirst

theorem reads_of_leaves {α : Type}
    {read : (stop : Position) → (s : List Token) → Except ParseError (Read α s)} {stop : Position}
    {s r : List Token} (h : leaves read stop s = .ok r) : ∃ a, Reads (read stop s) a r := by
  obtain ⟨x, hread, rfl⟩ := map_eq_ok.mp h
  exact ⟨x.value, reads_of_eq_ok hread⟩

instance : Inhabited { d : Phrase.Block // d.Settled } := ⟨.mk default .nil default, trivial⟩

instance : Inhabited { d : Phrase.ParallelBody // d.Settled } :=
  ⟨.branches default (.mk default .nil default) .nil, ⟨trivial, trivial⟩⟩

instance : Inhabited { d : Phrase.Statement // IsLast d } := ⟨.break default, fun _ => trivial⟩

instance : Inhabited { d : Phrase.Statements // AreLast d } := ⟨.nil, fun _ => trivial⟩

theorem exists_guarded : ∃ w, w ∈ GuardedWords :=
  exists_mul (exists_derived _) (exists_mul (exists_derived _) (exists_derived _))

theorem exists_clauses : ∃ w, w ∈ ClauseWords :=
  ⟨_, ⟨⟨.none, .some default default default default (.mk default .nil default)⟩, .inr (by simp),
    trivial⟩, rfl⟩

mutual

theorem prompt_statements (s : List Token) :
    Prompt (leavesSome statements) (Words AreLast Statements.tokens) s := by
  have hnil : [] ∈ Words AreLast Statements.tokens := ⟨⟨.nil, fun _ => trivial⟩, rfl⟩
  cases hs : (s.isEmpty || (accept? (.symbol .rbrace) s).isSome) with
  | true =>
    refine (prompt_nothing hnil).congr fun stop s' hs' => ?_
    rw [leavesSome, statements, ends_congr hs', hs, if_pos rfl]
    rfl
  | false =>
    refine Prompt.congr ((prompt_statement s).chain (fun stop w rest split _ h => ?_)
      fun w hw => ?_) fun stop s' hs' => leavesSome_statements ((ends_congr hs').trans hs)
    · obtain ⟨n, hread⟩ := reads_of_leaves h
      have := hread.shorter
      obtain ⟨first, htokens, _, hfirst⟩ := exists_statement hread
      obtain rfl : w = first.tokens := List.append_cancel_right (split.symm.trans htokens)
      exact ((prompt_statements rest).startsAlike hnil).mono fun v hv => cons_mem hfirst hv.1 hv.2
    · obtain ⟨⟨d, hd⟩, rfl⟩ := hw
      exact ⟨[], cons_mem (hd default) hnil (.inl rfl)⟩
termination_by 4 * s.length + 3
decreasing_by all_goals omega

theorem prompt_block (s : List Token) :
    Prompt (leaves block) (Words Block.Settled Block.tokens) s := by
  rw [leaves_block]
  refine ((prompt_single _ s).andThen (fun r _ => (prompt_statements r).andThenSome
    (fun q _ => prompt_single _ q) (exists_derived _))
    (exists_mul (exists_derived _) (exists_derived _))).mono ?_
  rintro _ ⟨_, ⟨start, rfl⟩, _, ⟨_, ⟨⟨found, hfound⟩, rfl⟩, _, ⟨close, rfl⟩, rfl⟩, rfl⟩
  exact ⟨⟨.mk start found close, hfound close⟩, rfl⟩
termination_by 4 * s.length
decreasing_by all_goals omega

theorem prompt_statement (s : List Token) :
    Prompt (leaves statement) (Words IsLast Statement.tokens) s := by
  have failing (h : ∀ stop s', s'.head? = s.head? →
      statement stop s' = .error (unexpected stop .statement s')) :
      Prompt (leaves statement) (Words IsLast Statement.tokens) s := by
    refine (prompt_fail .statement (exists_derived _)).congr fun stop s' hs' => ?_
    rw [leaves, h stop s' hs']
    rfl
  match s with
  | [] =>
    refine failing fun stop s' hs' => ?_
    rw [List.head?_eq_none_iff.mp hs', statement]
  | t :: r =>
    have hr := shorter_cons t r
    cases ht : t.lexeme with
    | identifier name =>
      refine (prompt_callOrAssignment (t :: r)).congr fun stop s' hs' => ?_
      obtain ⟨q, rfl⟩ := List.head?_eq_some_iff.mp hs'
      exact leaves_statement_name ht
    | keyword word =>
      cases word with
      | «if» =>
        refine ((prompt_condition r).andThen (fun q _ => prompt_elseClauses q)
          ⟨[], ⟨.none, trivial⟩, rfl⟩).behind (w := [t]) ?_ fun _ _ _ => leaves_statement_if ht
        rintro _ ⟨_, ⟨⟨first, hfirst⟩, rfl⟩, _, ⟨⟨others, hothers⟩, rfl⟩, rfl⟩
        exact ⟨⟨.conditional ⟨t, decide_eq_true ht⟩ first others, fun _ => ⟨hfirst, hothers⟩⟩, rfl⟩
      | «for» =>
        refine (prompt_looped r).behind (w := [t]) ?_ fun _ _ _ => leaves_statement_for ht
        intro w hw
        obtain ⟨⟨d, hd⟩, htokens⟩ := hw ⟨t, decide_eq_true ht⟩
        exact ⟨⟨.loop d, fun _ => hd⟩, htokens⟩
      | parallel =>
        refine ((prompt_parallelArguments r).andThenSome (fun q _ => prompt_parallelBody q)
          (exists_derived _)).behind (w := [t]) ?_ fun _ _ _ => leaves_statement_parallel ht
        rintro _ ⟨_, ⟨options, rfl⟩, _, ⟨⟨body, hbody⟩, rfl⟩, rfl⟩
        exact ⟨⟨.parallel ⟨t, decide_eq_true ht⟩ options body, fun _ => hbody⟩, rfl⟩
      | «try» =>
        refine ((prompt_block r).andThen (fun q _ => prompt_clauses t.position q)
          exists_clauses).behind (w := [t]) ?_ fun _ _ _ => leaves_statement_try ht
        rintro _ ⟨_, ⟨⟨body, hbody⟩, rfl⟩, _, ⟨⟨⟨retry, handler⟩, hsome, hhandler⟩, rfl⟩, rfl⟩
        exact ⟨⟨.attempt ⟨t, decide_eq_true ht⟩ body retry handler,
          fun _ => ⟨hbody, hsome, hhandler⟩⟩, rfl⟩
      | throw =>
        refine (prompt_expression r).behind (w := [t]) ?_ fun _ _ _ => leaves_statement_throw ht
        rintro _ ⟨value, rfl⟩
        exact ⟨⟨.throw ⟨t, decide_eq_true ht⟩ value, fun _ => trivial⟩, rfl⟩
      | «break» =>
        exact .reads [t] r rfl ⟨⟨.break ⟨t, decide_eq_true ht⟩, fun _ => trivial⟩, rfl⟩
          fun _ _ _ => leaves_statement_break ht
      | «continue» =>
        exact .reads [t] r rfl ⟨⟨.continue ⟨t, decide_eq_true ht⟩, fun _ => trivial⟩, rfl⟩
          fun _ _ _ => leaves_statement_continue ht
      | «return» =>
        cases hstarts : r.head?.any (·.lexeme.startsExpression) with
        | true =>
          refine (prompt_expression r).behind (w := [t]) ?_ fun stop q hq => ?_
          · rintro _ ⟨value, rfl⟩
            exact ⟨⟨.returnValue ⟨t, decide_eq_true ht⟩ value, fun _ => trivial⟩, rfl⟩
          · rw [List.singleton_append, leaves_statement_return ht, hq, hstarts, if_pos rfl]
        | false =>
          refine .reads [t] r rfl ⟨⟨_, isLast_returnNothing ⟨t, decide_eq_true ht⟩⟩, rfl⟩
            fun stop q hq => ?_
          rw [List.singleton_append, leaves_statement_return ht, hq, hstarts,
            if_neg Bool.false_ne_true]
      | _ =>
        refine failing fun stop s' hs' => ?_
        obtain ⟨q, rfl⟩ := List.head?_eq_some_iff.mp hs'
        rw [statement]
        simp only [ht]
    | _ =>
      refine failing fun stop s' hs' => ?_
      obtain ⟨q, rfl⟩ := List.head?_eq_some_iff.mp hs'
      rw [statement]
      simp only [ht]
termination_by 4 * s.length + 2
decreasing_by all_goals
  simp only [Shorter, List.length_cons] at *
  omega

theorem prompt_guarded (s : List Token) : Prompt guarded GuardedWords s :=
  (prompt_expression s).andThen (fun r _ => (prompt_single _ r).andThen
    (fun q _ => prompt_block q) (exists_derived _))
    (exists_mul (exists_derived _) (exists_derived _))
termination_by 4 * s.length
decreasing_by all_goals omega

theorem prompt_condition (s : List Token) :
    Prompt (leaves condition) (Words Condition.Settled Condition.tokens) s := by
  rw [leaves_condition]
  refine ((prompt_single _ s).andThen (fun r _ => prompt_guarded r) exists_guarded).mono ?_
  rintro _ ⟨_, ⟨start, rfl⟩, _, ⟨_, ⟨test, rfl⟩, _, ⟨_, ⟨stop, rfl⟩, _, ⟨⟨body, hbody⟩, rfl⟩,
    rfl⟩, rfl⟩, rfl⟩
  exact ⟨⟨.mk start test stop body, hbody⟩, rfl⟩
termination_by 4 * s.length + 1
decreasing_by all_goals omega

theorem prompt_elseClauses (s : List Token) :
    Prompt (leavesSome elseClauses) (Words ElseClauses.Settled ElseClauses.tokens) s := by
  rw [leavesSome_elseClauses]
  refine prompt_either (L := {w | ∀ else_ : Word .else,
    else_.val :: w ∈ Words ElseClauses.Settled ElseClauses.tokens}) (fun r _ => ?_)
    (fun else_ w hw => hw else_) fun _ => prompt_nothing ⟨⟨.none, trivial⟩, rfl⟩
  refine prompt_either (fun q _ => (prompt_condition q).andThen (fun q' _ => prompt_elseClauses q')
    ⟨[], ⟨.none, trivial⟩, rfl⟩) ?_ fun _ => (prompt_block r).mono ?_
  · rintro if_ _ ⟨_, ⟨⟨condition, hcondition⟩, rfl⟩, _, ⟨⟨rest, hrest⟩, rfl⟩, rfl⟩ else_
    exact ⟨⟨.elseIf else_ if_ condition rest, ⟨hcondition, hrest⟩⟩, rfl⟩
  · rintro _ ⟨⟨body, hbody⟩, rfl⟩ else_
    exact ⟨⟨.last else_ body, hbody⟩, rfl⟩
termination_by 4 * s.length
decreasing_by all_goals omega

theorem prompt_looped (s : List Token) : Prompt looped LoopWords s := by
  have hin := exists_mul (exists_derived fun t : Word .in => [t.val]) exists_guarded
  refine ((prompt_single _ s).andThen (fun r _ => (prompt_single _ r).andThen (fun q _ =>
    (prompt_single _ q).andThen (fun q' _ => prompt_guarded q') exists_guarded) hin)
    (exists_mul (exists_derived _) hin)).mono ?_
  rintro _ ⟨_, ⟨start, rfl⟩, _, ⟨_, ⟨name, rfl⟩, _, ⟨_, ⟨in_, rfl⟩, _, ⟨_, ⟨items, rfl⟩, _,
    ⟨_, ⟨stop, rfl⟩, _, ⟨⟨body, hbody⟩, rfl⟩, rfl⟩, rfl⟩, rfl⟩, rfl⟩, rfl⟩ for_
  exact ⟨⟨.mk for_ start name in_ items stop body, hbody⟩, rfl⟩
termination_by 4 * s.length + 1
decreasing_by all_goals omega

theorem prompt_parallelBody (s : List Token) :
    Prompt (leaves parallelBody) (Words ParallelBody.Settled ParallelBody.tokens) s := by
  rw [leaves_parallelBody]
  refine prompt_either (fun r _ => prompt_looped r) (fun for_ w hw => ?_) fun _ =>
    prompt_either (fun r _ => (prompt_block r).andThen (fun q _ => prompt_branches q)
      ⟨[], ⟨.nil, trivial⟩, rfl⟩) ?_ fun _ => prompt_fail _ (exists_derived _)
  · obtain ⟨⟨d, hd⟩, htokens⟩ := hw for_
    exact ⟨⟨.loop d, hd⟩, htokens⟩
  · rintro branch _ ⟨_, ⟨⟨body, hbody⟩, rfl⟩, _, ⟨⟨rest, hrest⟩, rfl⟩, rfl⟩
    exact ⟨⟨.branches branch body rest, ⟨hbody, hrest⟩⟩, rfl⟩
termination_by 4 * s.length
decreasing_by all_goals omega

theorem prompt_branches (s : List Token) :
    Prompt (leavesSome branches) (Words Branches.Settled Branches.tokens) s := by
  rw [leavesSome_branches]
  refine prompt_either (fun r _ => (prompt_block r).andThen (fun q _ => prompt_branches q)
    ⟨[], ⟨.nil, trivial⟩, rfl⟩) ?_ fun _ => prompt_nothing ⟨⟨.nil, trivial⟩, rfl⟩
  rintro branch _ ⟨_, ⟨⟨body, hbody⟩, rfl⟩, _, ⟨⟨rest, hrest⟩, rfl⟩, rfl⟩
  exact ⟨⟨.cons branch body rest, ⟨hbody, hrest⟩⟩, rfl⟩
termination_by 4 * s.length
decreasing_by all_goals omega

theorem prompt_catchClause (s : List Token) :
    Prompt (leavesSome catchClause) (Words Handler.Settled Handler.tokens) s := by
  rw [leavesSome_catchClause]
  refine prompt_either (fun r _ => (prompt_caughtName r).andThen (fun q _ => prompt_block q)
    (exists_derived _)) ?_ fun _ => prompt_nothing ⟨⟨.none, trivial⟩, rfl⟩
  rintro catch_ _ ⟨_, ⟨_, ⟨start, rfl⟩, _, ⟨_, ⟨name, rfl⟩, _, ⟨stop, rfl⟩, rfl⟩, rfl⟩, _,
    ⟨⟨body, hbody⟩, rfl⟩, rfl⟩
  exact ⟨⟨.some catch_ start name stop body, hbody⟩, rfl⟩
termination_by 4 * s.length
decreasing_by all_goals omega

theorem prompt_clauses (position : Position) (s : List Token) :
    Prompt (clauses position) ClauseWords s := by
  refine prompt_either (fun r _ => (prompt_clauseArguments r).andThen
    (fun q _ => prompt_catchClause q) ⟨[], ⟨.none, trivial⟩, rfl⟩) ?_ fun _ =>
    prompt_either (fun r _ => (prompt_caughtName r).andThen (fun q _ => prompt_block q)
      (exists_derived _)) ?_ fun _ => .bareTry position fun _ => rfl
  · rintro retry _ ⟨_, ⟨clause, rfl⟩, _, ⟨⟨handler, hhandler⟩, rfl⟩, rfl⟩
    exact ⟨⟨⟨.some retry clause, handler⟩, .inl (by simp), hhandler⟩, rfl⟩
  · rintro catch_ _ ⟨_, ⟨_, ⟨start, rfl⟩, _, ⟨_, ⟨name, rfl⟩, _, ⟨stop, rfl⟩, rfl⟩, rfl⟩, _,
      ⟨⟨body, hbody⟩, rfl⟩, rfl⟩
    exact ⟨⟨⟨.none, .some catch_ start name stop body⟩, .inr (by simp), hbody⟩, rfl⟩
termination_by 4 * s.length
decreasing_by all_goals omega

end

end Workflow.Grammar
