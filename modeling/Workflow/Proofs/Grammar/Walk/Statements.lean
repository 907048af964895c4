import Workflow.Proofs.Grammar.Walk.Expressions

/-!
# Walks over statements

A look ahead goes on only behind a token that is no end of input, so that it never sees what
stands behind the first one. With that, statements are walked over as they are read from a list of
tokens.
-/

namespace Workflow.Grammar

variable {S : Stream} {trail : Trail} {s : List Token}

/-! ## Looking ahead -/

/-- A walk finds something out and leaves the cursor where it stands. -/
abbrev Finds (S : Stream) {α : Type} (trail : Trail) (s : List Token) (w : Walk α) (found : α) :
    Prop :=
  TracksSome S trail w (.ok (⟨found, s, notLonger_refl s⟩ : ReadSome α s))

theorem Finds.andThen {α β γ : Type} {value : γ → β} {rest : γ → List Token} {w : Walk α}
    {found : α} {f : α → Walk β} {x : Except ParseError γ} (hw : Finds S trail s w found)
    (hf : ∀ last, Stands S last s → Follows S value rest last (f found) x) :
    Follows S value rest trail (w >>= f) x := by
  refine Follows.andThen (g := fun _ => x) hw ?_
  intro read last hread hlast
  cases hread
  exact hf last hlast

/-- Where a token stands some places ahead, the cursor can look one place further. -/
theorem drop_succ {ahead : Nat} {t : Token} {r : List Token} (h : s.drop ahead = t :: r) :
    ahead + 1 ≤ s.length ∧ s.drop (ahead + 1) = r := by
  constructor
  · have hlength := congrArg List.length h
    rw [List.length_drop, List.length_cons] at hlength
    omega
  · rw [← List.drop_drop, h]
    rfl

theorem namedArgumentAhead_cons (S : Stream) (t : Token) (r : List Token) :
    namedArgumentAhead (t :: r) =
      (t.lexeme.isIdentifier && decide ((S.next r).lexeme = .symbol .assign)) := by
  cases r with
  | nil => simp [namedArgumentAhead, S.lexeme_next_nil]
  | cons u r => rfl

theorem namedOrNoArgumentsAhead_cons (S : Stream) (t : Token) (r : List Token) :
    namedOrNoArgumentsAhead (t :: r) = if t.lexeme = .symbol .rparen then
      !(S.next r).lexeme.isBinaryOp else namedArgumentAhead (t :: r) := by
  cases r with
  | nil =>
    rw [namedOrNoArgumentsAhead, S.lexeme_next_nil]
    rfl
  | cons u r => rfl

theorem namedArgumentAhead_finds (hs : Stands S trail s) {ahead : Nat}
    (hahead : ahead ≤ s.length) :
    Finds S trail s (Walk.namedArgumentAhead ahead) (namedArgumentAhead (s.drop ahead)) := by
  refine follows_lookAt hs hahead ?_
  intro trail hs
  cases hdrop : s.drop ahead with
  | nil =>
    rw [S.lexeme_next_nil]
    exact tracksSome_done hs
  | cons t r =>
    obtain ⟨hahead, hr⟩ := drop_succ hdrop
    rw [S.next_cons, namedArgumentAhead_cons S]
    by_cases hname : t.lexeme.isIdentifier = true
    · rw [if_pos hname, hname, Bool.true_and]
      refine follows_lookAt hs hahead ?_
      intro trail hs
      rw [hr]
      exact tracksSome_done hs
    · rw [if_neg hname, eq_false_of_ne_true hname, Bool.false_and]
      exact tracksSome_done hs

theorem namedOrNoArgumentsAhead_finds (hs : Stands S trail s) {ahead : Nat}
    (hahead : ahead ≤ s.length) :
    Finds S trail s (Walk.namedOrNoArgumentsAhead ahead)
      (namedOrNoArgumentsAhead (s.drop ahead)) := by
  refine follows_lookAt hs hahead ?_
  intro trail hs
  cases hdrop : s.drop ahead with
  | nil =>
    rw [S.lexeme_next_nil, if_neg (by simp)]
    have hfound := namedArgumentAhead_finds hs hahead
    rw [hdrop] at hfound
    exact hfound
  | cons t r =>
    obtain ⟨hfurther, hr⟩ := drop_succ hdrop
    rw [S.next_cons, namedOrNoArgumentsAhead_cons S]
    by_cases hclose : t.lexeme = .symbol .rparen
    · rw [if_pos hclose, if_pos hclose]
      refine follows_lookAt hs hfurther ?_
      intro trail hs
      rw [hr]
      exact tracksSome_done hs
    · rw [if_neg hclose, if_neg hclose]
      have hfound := namedArgumentAhead_finds hs hahead
      rw [hdrop] at hfound
      exact hfound

theorem namedCallAhead_finds {trail : Trail} {s : List Token} (hs : Stands S trail s) {ahead : Nat}
    (hahead : ahead ≤ s.length) :
    Finds S trail s (Walk.namedCallAhead ahead) (namedCallAhead (s.drop ahead)) := by
  refine follows_lookAt hs hahead ?_
  intro trail hs
  cases hdrop : s.drop ahead with
  | nil =>
    rw [S.lexeme_next_nil]
    exact tracksSome_done hs
  | cons t r =>
    obtain ⟨hfurther, hr⟩ := drop_succ hdrop
    rw [S.next_cons]
    by_cases hname : t.lexeme.isIdentifier = true
    · rw [if_pos hname]
      refine follows_lookAt hs hfurther ?_
      intro trail hs
      rw [hr]
      cases r with
      | nil =>
        rw [S.lexeme_next_nil]
        exact tracksSome_done hs
      | cons u q =>
        obtain ⟨hlast, hq⟩ := drop_succ hr
        rw [S.next_cons, namedCallAhead, hname, Bool.true_and]
        by_cases hdot : u.lexeme = .symbol .dot
        · rw [if_pos hdot, if_pos hdot, ← hq]
          exact follows_callTo (namedCallAhead_finds hs hlast)
        · rw [if_neg hdot, if_neg hdot]
          by_cases hopen : u.lexeme = .symbol .lparen
          · rw [if_pos hopen, decide_eq_true hopen, Bool.true_and, ← hq]
            exact namedOrNoArgumentsAhead_finds hs hlast
          · rw [if_neg hopen, decide_eq_false hopen, Bool.false_and]
            exact tracksSome_done hs
    · rw [if_neg hname]
      have hnone : namedCallAhead (t :: r) = false := by
        cases r with
        | nil => rfl
        | cons u q => rw [namedCallAhead, eq_false_of_ne_true hname, Bool.false_and]
      rw [hnone]
      exact tracksSome_done hs
termination_by s.length - ahead

/-! ## Named arguments and calls -/

theorem namedEntries_tracks {trail : Trail} {s : List Token} (hs : Stands S trail s) :
    Tracks S trail Walk.namedEntries (namedEntries S.stop s) := by
  rw [Walk.namedEntries, namedEntries]
  refine tracks_bind (expect_tracks hs) ?_
  intro name r _ trail hr
  refine tracks_bind (tracks_after (expect_tracks hr)) ?_
  intro _ q _ trail hq
  refine tracks_bind (tracks_after (expression_tracks hq)) ?_
  intro value p _ trail hp
  refine follows_accept? hp ?_ ?_
  · intro haccept trail hp
    simp only [haccept, after_none]
    exact tracks_done hp
  · intro _ l _ haccept trail hl
    simp only [haccept, after_some, Read.after]
    refine tracks_bind (tracks_after (follows_callTo (namedEntries_tracks hl))) ?_
    intro others k _ trail hk
    exact tracks_done hk
termination_by s.length
decreasing_by all_goals omega

theorem namedArgumentsUpTo_tracks (hs : Stands S trail s) :
    Tracks S trail Walk.namedArgumentsUpTo (namedArgumentsUpTo S.stop s) := by
  rw [Walk.namedArgumentsUpTo, namedArgumentsUpTo, namedArguments, bind_assoc]
  refine follows_here hs ?_
  intro trail hs
  refine tracks_bind (namedEntries_tracks hs) ?_
  intro children r _ trail hr
  refine tracks_bind (tracks_after (expect_tracks hr)) ?_
  intro _ q _ trail hq
  exact tracks_done hq

theorem namedOrNoArguments_tracks (hs : Stands S trail s) :
    Tracks S trail Walk.namedOrNoArguments (namedOrNoArguments S.stop s) := by
  rw [Walk.namedOrNoArguments, namedOrNoArguments]
  refine follows_accept? hs ?_ ?_
  · intro haccept trail hs
    rw [haccept]
    refine tracks_bind (namedArgumentsUpTo_tracks hs) ?_
    intro child r _ trail hr
    exact tracks_done hr
  · intro _ r _ haccept trail hr
    rw [haccept]
    exact tracks_done hr

theorem nameTokens_tracks {trail : Trail} {s : List Token} (hs : Stands S trail s) :
    Tracks S trail Walk.nameTokens (nameTokens S.stop s) := by
  rw [Walk.nameTokens, nameTokens]
  refine tracks_bind (expect_tracks hs) ?_
  intro first r _ trail hr
  refine follows_accept? hr ?_ ?_
  · intro haccept trail hr
    simp only [haccept, after_none]
    exact tracks_done hr
  · intro _ q _ haccept trail hq
    simp only [haccept, after_some, Read.after]
    refine tracks_bind (tracks_after (follows_callTo (nameTokens_tracks hq))) ?_
    intro others p _ trail hp
    exact tracks_done hp
termination_by s.length
decreasing_by all_goals omega

theorem namedCall_tracks (hs : Stands S trail s) :
    Tracks S trail Walk.namedCall (namedCall S.stop s) := by
  rw [Walk.namedCall, namedCall]
  refine follows_here hs ?_
  intro trail hs
  refine tracks_bind (nameTokens_tracks hs) ?_
  intro names r _ trail hr
  refine tracks_bind (tracks_after (expect_tracks hr)) ?_
  intro _ q _ trail hq
  refine tracks_bind (tracks_after (namedOrNoArguments_tracks hq)) ?_
  intro args p _ trail hp
  refine follows_lookAt hp (Nat.zero_le _) ?_
  intro trail hp
  have hnext : (S.next p).lexeme.isBinaryOp = (accept? .binaryOperator p).isSome :=
    accepts_next (k := .binaryOperator)
  rw [List.drop_zero, hnext]
  by_cases hop : (accept? .binaryOperator p).isSome = true
  · simp only [hop, if_true]
    exact follows_fail hp .endOfStatement
  · simp only [hop]
    exact tracks_done hp

theorem callArguments_tracks {t : Token} (hs : Stands S trail (t :: s)) :
    Tracks S trail Walk.callArguments (callArguments S.stop s) := by
  rw [Walk.callArguments, callArguments]
  refine (namedArgumentAhead_finds hs (Nat.le_add_left 1 s.length)).andThen ?_
  intro trail hs
  refine follows_advance hs ?_
  intro trail hs
  rw [List.drop_succ_cons, List.drop_zero]
  by_cases hnamed : namedArgumentAhead s = true
  · rw [if_pos hnamed, if_pos hnamed]
    refine tracks_bind (namedArgumentsUpTo_tracks hs) ?_
    intro child r _ trail hr
    exact tracks_done hr
  · rw [if_neg hnamed, if_neg hnamed]
    refine follows_here hs ?_
    intro trail hs
    refine tracks_bind (argumentsUpTo_tracks .rparen hs) ?_
    intro args r _ trail hr
    exact tracks_done hr

theorem callOrAssignment_tracks (hs : Stands S trail s) :
    Tracks S trail Walk.callOrAssignment (callOrAssignment S.stop s) := by
  rw [Walk.callOrAssignment, callOrAssignment]
  refine follows_here hs ?_
  intro trail hs
  refine tracks_bind (reference_tracks hs) ?_
  intro parts behind _ trail hbehind
  refine follows_lookAt hbehind (Nat.zero_le _) ?_
  intro trail hbehind
  rw [List.drop_zero]
  cases hassign : accept? (.symbol .assign) behind with
  | some read =>
    obtain ⟨assign, r, h⟩ := read
    simp only [lexeme_next_of_accept? hassign, hassign, after_some, Read.after]
    obtain rfl := eq_cons_of_accept? hassign
    refine follows_advance hbehind ?_
    intro trail hr
    refine (namedCallAhead_finds hr (Nat.zero_le _)).andThen ?_
    intro trail hr
    rw [List.drop_zero]
    by_cases hnamed : namedCallAhead r = true
    · rw [if_pos hnamed, if_pos hnamed]
      refine tracks_bind (tracks_after (namedCall_tracks hr)) ?_
      intro call q _ trail hq
      exact tracks_done hq
    · rw [if_neg hnamed, if_neg hnamed]
      refine tracks_bind (tracks_after (expression_tracks hr)) ?_
      intro value q _ trail hq
      exact tracks_done hq
  | none =>
    cases hopen : accept? (.symbol .lparen) behind with
    | some read =>
      obtain ⟨paren, r, h⟩ := read
      simp only [lexeme_next_of_accept? hopen, hassign, hopen, after_none, after_some, Read.after]
      by_cases hsubscripted : isSubscripted parts = true
      · rw [if_pos hsubscripted, if_pos hsubscripted]
        exact follows_fail hbehind .plainName
      · rw [if_neg hsubscripted, if_neg hsubscripted]
        obtain rfl := eq_cons_of_accept? hopen
        refine tracks_bind (tracks_after (callArguments_tracks hbehind)) ?_
        intro args q _ trail hq
        exact tracks_done hq
    | none =>
      simp only [hassign, hopen, after_none]
      cases hl : (S.next behind).lexeme with
      | symbol sign =>
        cases sign with
        | assign => exact absurd hl (lexeme_next_ne_of_accept? hassign)
        | lparen => exact absurd hl (lexeme_next_ne_of_accept? hopen)
        | _ => exact follows_fail hbehind .assignOrCall
      | _ => exact follows_fail hbehind .assignOrCall

/-! ## Statements -/

theorem clauseArguments_tracks (hs : Stands S trail s) :
    Tracks S trail Walk.clauseArguments (clauseArguments S.stop s) := by
  rw [Walk.clauseArguments, clauseArguments]
  refine tracks_bind (expect_tracks hs) ?_
  intro _ r _ trail hr
  exact tracks_after (namedArgumentsUpTo_tracks hr)

theorem parallelArguments_tracks (hs : Stands S trail s) :
    TracksSome S trail Walk.parallelArguments (parallelArguments S.stop s) := by
  rw [Walk.parallelArguments, parallelArguments]
  refine follows_lookAt hs (Nat.zero_le _) ?_
  intro trail hs
  rw [List.drop_zero]
  by_cases hopen : (S.next s).lexeme = .symbol .lparen
  · rw [if_pos hopen, if_pos (lexeme_next_eq_symbol.mp hopen)]
    refine tracks_bind (clauseArguments_tracks hs) ?_
    intro child r _ trail hr
    exact tracksSome_done hr
  · rw [if_neg hopen, if_neg (mt lexeme_next_eq_symbol.mpr hopen)]
    exact tracksSome_done hs

theorem retryClause_tracks (hs : Stands S trail s) :
    TracksSome S trail Walk.retryClause (retryClause S.stop s) := by
  rw [Walk.retryClause, retryClause]
  refine follows_accept? hs ?_ ?_
  · intro haccept trail hs
    rw [haccept]
    exact tracksSome_done hs
  · intro retry r _ haccept trail hr
    rw [haccept]
    refine tracks_bind (tracks_after (clauseArguments_tracks hr)) ?_
    intro child q _ trail hq
    exact tracksSome_done hq

theorem caughtName_tracks (hs : Stands S trail s) :
    Tracks S trail Walk.caughtName (caughtName S.stop s) := by
  rw [Walk.caughtName, caughtName]
  refine tracks_bind (expect_tracks hs) ?_
  intro _ r _ trail hr
  refine tracks_bind (tracks_after (expect_tracks hr)) ?_
  intro name q _ trail hq
  refine tracks_bind (tracks_after (expect_tracks hq)) ?_
  intro _ p _ trail hp
  exact tracks_done hp

mutual

theorem statements_tracks {trail : Trail} {s : List Token} (hs : Stands S trail s) :
    TracksSome S trail Walk.statements (statements S.stop s) := by
  rw [Walk.statements, statements]
  refine follows_lookAt hs (Nat.zero_le _) ?_
  intro trail hs
  have hstop : (s.isEmpty || (accept? (.symbol .rbrace) s).isSome) = true ↔
      (S.next s).lexeme = .symbol .rbrace ∨ (S.next s).lexeme = .endOfInput := by
    rw [Bool.or_eq_true, ← lexeme_next_eq_symbol (S := S), hs.lexeme_next_eq_endOfInput,
      List.isEmpty_iff, or_comm]
  rw [List.drop_zero]
  by_cases hend : (S.next s).lexeme = .symbol .rbrace ∨ (S.next s).lexeme = .endOfInput
  · rw [if_pos hend, if_pos (hstop.mpr hend)]
    exact tracksSome_done hs
  · rw [if_neg hend, if_neg (mt hstop.mp hend)]
    refine tracks_bind (statement_tracks hs) ?_
    intro first r _ trail hr
    refine tracks_bind (tracks_afterSome (follows_callTo (statements_tracks hr))) ?_
    intro others q _ trail hq
    exact tracksSome_done hq
termination_by 4 * s.length + 3
decreasing_by all_goals omega

theorem block_tracks {trail : Trail} {s : List Token} (hs : Stands S trail s) :
    Tracks S trail Walk.block (block S.stop s) := by
  rw [Walk.block, block]
  refine tracks_bind (expect_tracks hs) ?_
  intro _ inside _ trail hinside
  refine follows_here hinside ?_
  intro trail hinside
  refine tracks_bind (tracks_afterSome (follows_callTo (statements_tracks hinside))) ?_
  intro found r _ trail hr
  refine tracks_bind (tracks_after (expect_tracks hr)) ?_
  intro _ q _ trail hq
  exact tracks_done hq
termination_by 4 * s.length
decreasing_by all_goals omega

theorem statement_tracks {trail : Trail} {s : List Token} (hs : Stands S trail s) :
    Tracks S trail Walk.statement (statement S.stop s) := by
  rw [Walk.statement]
  refine follows_lookAt hs (Nat.zero_le _) ?_
  intro trail hs
  cases hsplit : s with
  | nil =>
    rw [hsplit] at hs
    rw [statement, List.drop_nil, S.lexeme_next_nil]
    exact follows_fail hs .statement
  | cons t r =>
    rw [hsplit] at hs
    have hlength : s.length = r.length + 1 := by rw [hsplit, List.length_cons]
    rw [statement, List.drop_zero, S.next_cons]
    cases hl : t.lexeme with
    | identifier name => exact callOrAssignment_tracks hs
    | keyword word =>
      cases word with
      | «if» =>
        refine follows_advance hs ?_
        intro trail hr
        refine tracks_bind (tracks_after (condition_tracks hr)) ?_
        intro first q _ trail hq
        refine tracks_bind (tracks_afterSome (elseClauses_tracks hq)) ?_
        intro others p _ trail hp
        exact tracks_done hp
      | «for» =>
        refine follows_advance hs ?_
        intro trail hr
        exact tracks_after (loop_tracks t hr)
      | parallel =>
        refine follows_advance hs ?_
        intro trail hr
        refine tracks_bind (tracks_afterSome (parallelArguments_tracks hr)) ?_
        intro args q _ trail hq
        refine tracks_bind (tracks_after (parallelBody_tracks hq)) ?_
        intro body p _ trail hp
        exact tracks_done hp
      | «try» =>
        refine follows_advance hs ?_
        intro trail hr
        refine tracks_bind (tracks_after (block_tracks hr)) ?_
        intro body q _ trail hq
        refine tracks_bind (tracks_afterSome (retryClause_tracks hq)) ?_
        intro retry p _ trail hp
        refine tracks_bind (tracks_afterSome (catchClause_tracks hp)) ?_
        intro handler l _ trail hl
        by_cases hbare : (retry.isEmpty && handler.isEmpty) = true
        · simp only [hbare, if_true]
          exact follows_fault _
        · simp only [hbare]
          exact tracks_done hl
      | throw =>
        refine follows_advance hs ?_
        intro trail hr
        refine tracks_bind (tracks_after (expression_tracks hr)) ?_
        intro value q _ trail hq
        exact tracks_done hq
      | «break» =>
        refine follows_advance hs ?_
        intro trail hr
        exact tracks_done hr
      | «continue» =>
        refine follows_advance hs ?_
        intro trail hr
        exact tracks_done hr
      | «return» =>
        refine follows_advance hs ?_
        intro trail hr
        refine follows_lookAt hr (Nat.zero_le _) ?_
        intro trail hr
        have hnext : (S.next r).lexeme.startsExpression =
            r.head?.any (·.lexeme.startsExpression) := by
          cases r with
          | nil => rw [S.lexeme_next_nil]; rfl
          | cons u r => rfl
        rw [List.drop_zero, hnext]
        by_cases hvalue : r.head?.any (·.lexeme.startsExpression) = true
        · simp only [hvalue, if_true]
          refine tracks_bind (tracks_after (expression_tracks hr)) ?_
          intro value q _ trail hq
          exact tracks_done hq
        · simp only [hvalue]
          exact tracks_done hr
      | _ => exact follows_fail hs .statement
    | _ => exact follows_fail hs .statement
termination_by 4 * s.length + 2
decreasing_by all_goals
  simp only [Shorter, List.length_cons] at *
  omega

theorem condition_tracks {trail : Trail} {s : List Token} (hs : Stands S trail s) :
    Tracks S trail Walk.condition (condition S.stop s) := by
  rw [Walk.condition, condition]
  refine tracks_bind (expect_tracks hs) ?_
  intro _ r _ trail hr
  refine tracks_bind (tracks_after (expression_tracks hr)) ?_
  intro test q _ trail hq
  refine tracks_bind (tracks_after (expect_tracks hq)) ?_
  intro _ p _ trail hp
  refine tracks_bind (tracks_after (block_tracks hp)) ?_
  intro body l _ trail hl
  exact tracks_done hl
termination_by 4 * s.length + 1
decreasing_by all_goals omega

theorem elseClauses_tracks {trail : Trail} {s : List Token} (hs : Stands S trail s) :
    TracksSome S trail Walk.elseClauses (elseClauses S.stop s) := by
  rw [Walk.elseClauses, elseClauses]
  refine follows_accept? hs ?_ ?_
  · intro haccept trail hs
    rw [haccept]
    exact tracksSome_done hs
  · intro else_ behind _ haccept trail hbehind
    rw [haccept]
    refine follows_accept? hbehind ?_ ?_
    · intro hplain trail hbehind
      simp only [hplain, after_none]
      refine tracks_bind (tracks_after (block_tracks hbehind)) ?_
      intro body q _ trail hq
      exact tracksSome_done hq
    · intro if_ r _ hif trail hr
      simp only [hif, after_some, Read.after]
      refine tracks_bind (tracks_after (condition_tracks hr)) ?_
      intro first q _ trail hq
      refine tracks_bind (tracks_afterSome (follows_callTo (elseClauses_tracks hq))) ?_
      intro others p _ trail hp
      exact tracksSome_done hp
termination_by 4 * s.length
decreasing_by all_goals omega

theorem loop_tracks (for_ : Token) {trail : Trail} {s : List Token} (hs : Stands S trail s) :
    Tracks S trail (Walk.loop for_) (loop S.stop for_ s) := by
  rw [Walk.loop, loop]
  refine tracks_bind (expect_tracks hs) ?_
  intro _ r _ trail hr
  refine tracks_bind (tracks_after (expect_tracks hr)) ?_
  intro name q _ trail hq
  refine tracks_bind (tracks_after (expect_tracks hq)) ?_
  intro _ p _ trail hp
  refine tracks_bind (tracks_after (expression_tracks hp)) ?_
  intro items l _ trail hl
  refine tracks_bind (tracks_after (expect_tracks hl)) ?_
  intro _ k _ trail hk
  refine tracks_bind (tracks_after (block_tracks hk)) ?_
  intro body j _ trail hj
  exact tracks_done hj
termination_by 4 * s.length + 1
decreasing_by all_goals omega

theorem parallelBody_tracks {trail : Trail} {s : List Token} (hs : Stands S trail s) :
    Tracks S trail Walk.parallelBody (parallelBody S.stop s) := by
  rw [Walk.parallelBody, parallelBody]
  refine follows_accept? hs ?_ ?_
  · intro hfor trail hs
    rw [hfor]
    refine follows_accept? hs ?_ ?_
    · intro hbranch trail hs
      rw [hbranch]
      exact follows_fail hs .branchOrFor
    · intro branch r _ hbranch trail hr
      rw [hbranch]
      refine tracks_bind (tracks_after (block_tracks hr)) ?_
      intro body q _ trail hq
      refine tracks_bind (tracks_afterSome (branches_tracks hq)) ?_
      intro others p _ trail hp
      exact tracks_done hp
  · intro for_ r _ hfor trail hr
    rw [hfor]
    refine tracks_bind (tracks_after (loop_tracks for_ hr)) ?_
    intro node q _ trail hq
    exact tracks_done hq
termination_by 4 * s.length
decreasing_by all_goals omega

theorem branches_tracks {trail : Trail} {s : List Token} (hs : Stands S trail s) :
    TracksSome S trail Walk.branches (branches S.stop s) := by
  rw [Walk.branches, branches]
  refine follows_accept? hs ?_ ?_
  · intro haccept trail hs
    rw [haccept]
    exact tracksSome_done hs
  · intro branch r _ haccept trail hr
    rw [haccept]
    refine tracks_bind (tracks_after (block_tracks hr)) ?_
    intro body q _ trail hq
    refine tracks_bind (tracks_afterSome (follows_callTo (branches_tracks hq))) ?_
    intro others p _ trail hp
    exact tracksSome_done hp
termination_by 4 * s.length
decreasing_by all_goals omega

theorem catchClause_tracks {trail : Trail} {s : List Token} (hs : Stands S trail s) :
    TracksSome S trail Walk.catchClause (catchClause S.stop s) := by
  rw [Walk.catchClause, catchClause]
  refine follows_accept? hs ?_ ?_
  · intro haccept trail hs
    rw [haccept]
    exact tracksSome_done hs
  · intro catch_ r _ haccept trail hr
    rw [haccept]
    refine tracks_bind (tracks_after (caughtName_tracks hr)) ?_
    intro name q _ trail hq
    refine tracks_bind (tracks_after (block_tracks hq)) ?_
    intro body p _ trail hp
    exact tracksSome_done hp
termination_by 4 * s.length
decreasing_by all_goals omega

end

end Workflow.Grammar
