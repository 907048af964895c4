import Workflow.Proofs.Grammar.Walk.Statements

/-!
# Walks over programs

The walk over a whole stream ends with what the reading of its tokens gives, and the first end of
input is the last token it looks at, also where tokens and further ends of input follow. Wherever
it stands on its way, reading a statement, an expression, a term, a reference, a literal or a
definition comes to an end, and moves the cursor on if it succeeds.
-/

namespace Workflow.Grammar

variable {S : Stream} {trail : Trail} {s : List Token}

theorem parameter_tracks (hs : Stands S trail s) :
    Tracks S trail Walk.parameter (parameter S.stop s) := by
  rw [Walk.parameter, parameter]
  refine follows_here hs ?_
  intro trail hs
  refine tracks_bind (expect_tracks hs) ?_
  intro name r _ trail hr
  refine follows_accept? hr ?_ ?_
  · intro haccept trail hr
    simp only [haccept, after_none]
    exact tracks_done hr
  · intro _ q h haccept trail hq
    simp only [haccept, after_some, Read.after]
    rw [after, bind_map_left]
    refine follows_literal hq ?_
    intro value p _ trail hp
    exact tracks_done hp

theorem parameters_tracks {trail : Trail} {s : List Token} (hs : Stands S trail s) :
    Tracks S trail Walk.parameters (parameters S.stop s) := by
  rw [Walk.parameters, parameters]
  refine tracks_bind (parameter_tracks hs) ?_
  intro first r _ trail hr
  refine follows_accept? hr ?_ ?_
  · intro haccept trail hr
    simp only [haccept, after_none]
    exact tracks_done hr
  · intro _ q _ haccept trail hq
    simp only [haccept, after_some, Read.after]
    refine tracks_bind (tracks_after (follows_callTo (parameters_tracks hq))) ?_
    intro others p _ trail hp
    exact tracks_done hp
termination_by s.length
decreasing_by all_goals omega

theorem parameterList_tracks (hs : Stands S trail s) :
    Tracks S trail Walk.parameterList (parameterList S.stop s) := by
  rw [Walk.parameterList, parameterList]
  refine follows_here hs ?_
  intro trail hs
  refine follows_accept? hs ?_ ?_
  · intro haccept trail hs
    rw [haccept]
    refine tracks_bind (parameters_tracks hs) ?_
    intro found r _ trail hr
    refine tracks_bind (tracks_after (expect_tracks hr)) ?_
    intro _ q _ trail hq
    exact tracks_done hq
  · intro _ r _ haccept trail hr
    rw [haccept]
    exact tracks_done hr

theorem definition_tracks (hs : Stands S trail s) :
    Tracks S trail Walk.definition (definition S.stop s) := by
  rw [Walk.definition, definition]
  refine follows_here hs ?_
  intro trail hs
  refine tracks_bind (expect_tracks hs) ?_
  intro workflow r _ trail hr
  refine tracks_bind (tracks_after (expect_tracks hr)) ?_
  intro name q _ trail hq
  refine tracks_bind (tracks_after (expect_tracks hq)) ?_
  intro _ p _ trail hp
  refine tracks_bind (tracks_after (parameterList_tracks hp)) ?_
  intro list l _ trail hl
  refine tracks_bind (tracks_after (block_tracks hl)) ?_
  intro body k _ trail hk
  exact tracks_done hk

/-- Behind the definitions the cursor stands on the first end of input. -/
theorem definitions_follows {trail : Trail} {s : List Token} (hs : Stands S trail s) :
    Follows S id (fun _ => []) trail Walk.definitions (definitions S.stop s) := by
  rw [Walk.definitions, definitions]
  refine follows_lookAt hs (Nat.zero_le _) ?_
  intro trail hs
  rw [List.drop_zero]
  by_cases hend : s = []
  · rw [if_pos (hs.lexeme_next_eq_endOfInput.mpr hend), if_pos (List.isEmpty_iff.mpr hend)]
    rw [hend] at hs
    exact follows_done (b := []) hs
  · rw [if_neg (mt hs.lexeme_next_eq_endOfInput.mp hend), if_neg (mt List.isEmpty_iff.mp hend)]
    refine tracks_bind (definition_tracks hs) ?_
    intro first r _ trail hr
    refine Follows.andThen (follows_callTo (definitions_follows hr)) ?_
    intro others trail _ hothers
    exact follows_done (b := first :: others) hothers
termination_by s.length
decreasing_by all_goals omega

/-- The syntax tree of a stream is that of its program. -/
theorem ofTokens_tokens (S : Stream) : Node.ofTokens S.tokens = do
    let found ← definitions S.stop S.program
    return .mk .program (here S.stop S.program) (found.map (.node .subworkflowDefinition)) := by
  obtain ⟨rest, hbehind, -⟩ := S.exists_dropWhile
  have hlast : S.tokens.getLast? = some S.final := by simp [Stream.tokens]
  rw [Node.ofTokens, hlast]
  simp only [S.ended, hbehind]
  rfl

theorem program_follows (S : Stream) :
    Follows S id (fun _ => []) .start Walk.program (Node.ofTokens S.tokens) := by
  have hstart : Stands S .start S.program := ⟨Nat.zero_le _, rfl⟩
  rw [ofTokens_tokens, Walk.program]
  refine follows_here hstart ?_
  intro trail hs
  refine Follows.andThen (definitions_follows hs) ?_
  intro found trail _ hfound
  exact follows_done (b := Node.mk _ _ _) hfound

/-- Tokens behind the first end of input do not matter. -/
theorem ofTokens_take (S : Stream) :
    Node.ofTokens (S.tokens.take (S.firstEnd + 1)) = Node.ofTokens S.tokens := by
  obtain ⟨rest, hbehind, hend⟩ := S.exists_dropWhile
  let front : Stream := ⟨S.program, S.token S.firstEnd, hend⟩
  have htokens : S.tokens.take (S.firstEnd + 1) = front.tokens := by
    have hsplit : S.program ++ S.tokens.dropWhile (·.lexeme ≠ .endOfInput) = S.tokens :=
      List.takeWhile_append_dropWhile
    rw [← hsplit, hbehind, Stream.firstEnd, List.take_length_add_append, List.take_succ_cons,
      List.take_zero]
    rfl
  have hprogram : front.program = S.program := by
    rw [Stream.program_eq]
    exact List.takeWhile_eq_self_iff.mpr fun t ht => by simpa using S.lexeme_ne_of_mem ht
  have hstop : front.stop = S.stop := by
    have htoken : front.token S.program.length = S.token S.firstEnd := by
      show S.program.getD S.program.length (S.token S.firstEnd) = _
      simp
    rw [Stream.stop, Stream.firstEnd, hprogram, htoken, ← Stream.stop]
  rw [htokens, ofTokens_tokens, ofTokens_tokens, hprogram, hstop]

/-- From wherever a walk can come to, this walk ends as the reading of the tokens in front of it
does, and stays within the first end of input. If it succeeds, it ends further on, in front of the
tokens that the reading leaves. -/
def Walk.Advances (S : Stream) {α : Type} (w : Walk α)
    (read : (s : List Token) → Except ParseError (Read α s)) : Prop :=
  ∀ trail : Trail, trail.Orderly S → ∃ last, last.Orderly S ∧ trail.cursor ≤ last.cursor ∧
    (∀ result last', w.Ends S trail result last' ↔
      result = (read (S.program.drop trail.cursor)).map Read.value ∧ last' = last) ∧
    ∀ x, read (S.program.drop trail.cursor) = .ok x →
      trail.cursor < last.cursor ∧ S.program.drop last.cursor = x.rest

theorem advances_of_tracks {α : Type} {w : Walk α}
    {read : (s : List Token) → Except ParseError (Read α s)}
    (h : ∀ {trail s}, Stands S trail s → Tracks S trail w (read s)) : w.Advances S read := by
  intro trail htrail
  have hs : Stands S trail (S.program.drop trail.cursor) := ⟨htrail.cursor_le, rfl⟩
  obtain ⟨last, hsteps, hends, hstands⟩ := h hs
  refine ⟨last, htrail.steps hsteps, Trail.cursor_le_of_steps hsteps, fun _ _ => hends.iff, ?_⟩
  intro x hx
  have hbefore := hs.length_eq
  have hbehind := (hstands x hx).length_eq
  have hshorter := x.shorter
  exact ⟨by omega, (hstands x hx).2⟩

/-- A stream is read up to its first end of input and no further. The tree or the fault is that of
the tokens up to there. The cursor that reads it never goes back, and neither it nor a look ahead
ever passes the first end of input; reading a statement, an expression, a term, a reference, a
literal or a definition moves it on. -/
theorem ofTokens_within_firstEnd (S : Stream) :
    Node.ofTokens S.tokens = Node.ofTokens (S.tokens.take (S.firstEnd + 1)) ∧
    (∃ last, last.Orderly S ∧ ∀ result last', Walk.program.Ends S .start result last' ↔
      result = Node.ofTokens S.tokens ∧ last' = last) ∧
    Walk.statement.Advances S (statement S.stop) ∧
    Walk.expression.Advances S (expression S.stop) ∧
    Walk.term.Advances S (term S.stop) ∧
    Walk.reference.Advances S (reference S.stop) ∧
    Walk.literal.Advances S (literal S.stop) ∧
    Walk.definition.Advances S (definition S.stop) := by
  obtain ⟨last, hsteps, hends, -⟩ := program_follows S
  have hresult : (Node.ofTokens S.tokens).map id = Node.ofTokens S.tokens := by
    cases Node.ofTokens S.tokens <;> rfl
  rw [hresult] at hends
  exact ⟨(ofTokens_take S).symm,
    ⟨last, Trail.orderly_start.steps hsteps, fun _ _ => hends.iff⟩,
    advances_of_tracks statement_tracks, advances_of_tracks expression_tracks,
    advances_of_tracks term_tracks, advances_of_tracks reference_tracks,
    advances_of_tracks literal_tracks, advances_of_tracks definition_tracks⟩

end Workflow.Grammar
