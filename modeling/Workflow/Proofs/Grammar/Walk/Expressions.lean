import Workflow.Proofs.Grammar.Walk.Following

/-!
# Walks over expressions

Each part of the grammar of expressions is walked over as it is read from a list of tokens.
-/

namespace Workflow.Grammar

variable {S : Stream} {trail : Trail} {s : List Token}

/-- Tracks a literal, as its node. -/
def literal (stop : Position) (s : List Token) : Except ParseError (Read Node s) := do
  let ⟨value, r, h⟩ ← expect stop .literal s
  return ⟨.mk .literal value.position [.token .value value], r, h⟩

theorem literal_cons {stop : Position} {t : Token} (ht : t.lexeme.isLiteral = true) :
    literal stop (t :: s) =
      .ok ⟨.mk .literal t.position [.token .value t], s, shorter_cons t s⟩ := by
  have haccept : accept? .literal (t :: s) = some ⟨t, s, shorter_cons t s⟩ := by
    simp [accept?, Terminal.accepts, ht]
  rw [literal, expect, haccept]
  rfl

theorem literal_tracks (hs : Stands S trail s) :
    Tracks S trail Walk.literal (literal S.stop s) := by
  rw [Walk.literal, literal]
  refine follows_here hs ?_
  intro trail hs
  refine Follows.andThen (expect_tracks hs) ?_
  intro read trail hread hr
  obtain ⟨value, r, h⟩ := read
  obtain rfl := eq_cons_of_expect hread
  exact tracks_done hr

/-- Where the reading goes on with the token of a literal, the walk goes on with its node. -/
theorem follows_literal {α β : Type} {value : β → α} {rest : β → List Token} {f : Node → Walk α}
    {g : Read Token s → Except ParseError β} (hs : Stands S trail s)
    (hf : ∀ t r (h : Shorter r s) last, Stands S last r →
      Follows S value rest last (f (.mk .literal t.position [.token .value t])) (g ⟨t, r, h⟩)) :
    Follows S value rest trail (Walk.literal >>= f) (expect S.stop .literal s >>= g) := by
  have hread := literal_tracks hs
  rw [literal] at hread
  cases hexpect : expect S.stop .literal s with
  | error e =>
    rw [hexpect] at hread
    refine Follows.andThen (x := .error e) (g := fun _ => .error e) hread ?_
    intro b last hb
    cases hb
  | ok x =>
    rw [hexpect] at hread
    refine Follows.andThen (x := .ok _) (g := fun _ => g x) hread ?_
    intro b last hb hlast
    cases hb
    exact hf x.value x.rest x.shorter last hlast

mutual

-- The induction is that of the reading, which carries the proof that it ends; the walk has none.
theorem expression_tracks {trail : Trail} {s : List Token} (hs : Stands S trail s) :
    Tracks S trail Walk.expression (expression S.stop s) := by
  rw [Walk.expression, expression]
  refine follows_here hs ?_
  intro trail hs
  refine tracks_bind (term_tracks hs) ?_
  intro first r _ trail hr
  refine tracks_bind (tracks_afterSome (operations_tracks hr)) ?_
  intro others q _ trail hq
  exact tracks_done hq
termination_by 8 * s.length + 5
decreasing_by all_goals omega

theorem operations_tracks {trail : Trail} {s : List Token} (hs : Stands S trail s) :
    TracksSome S trail Walk.operations (operations S.stop s) := by
  rw [Walk.operations, operations]
  refine follows_accept? hs ?_ ?_
  · intro haccept trail hs
    rw [haccept]
    exact tracksSome_done hs
  · intro operator r _ haccept trail hr
    rw [haccept]
    refine tracks_bind (tracks_after (term_tracks hr)) ?_
    intro next q _ trail hq
    refine tracks_bind (tracks_afterSome (follows_callTo (operations_tracks hq))) ?_
    intro others p _ trail hp
    exact tracksSome_done hp
termination_by 8 * s.length
decreasing_by all_goals omega

theorem term_tracks {trail : Trail} {s : List Token} (hs : Stands S trail s) :
    Tracks S trail Walk.term (term S.stop s) := by
  rw [Walk.term, term]
  refine follows_here hs ?_
  intro trail hs
  refine follows_accept? hs ?_ ?_
  · intro haccept trail hs
    rw [haccept]
    refine tracks_bind (operand_tracks hs) ?_
    intro value r _ trail hr
    exact tracks_done hr
  · intro operator r _ haccept trail hr
    rw [haccept]
    refine tracks_bind (tracks_after (operand_tracks hr)) ?_
    intro value q _ trail hq
    exact tracks_done hq
termination_by 8 * s.length + 4
decreasing_by all_goals omega

theorem operand_tracks {trail : Trail} {s : List Token} (hs : Stands S trail s) :
    Tracks S trail Walk.operand (operand S.stop s) := by
  rw [Walk.operand]
  refine follows_lookAt hs (Nat.zero_le _) ?_
  intro trail hs
  cases hsplit : s with
  | nil =>
    rw [hsplit] at hs
    rw [operand, List.drop_nil, S.lexeme_next_nil]
    exact follows_fail hs .expression
  | cons t r =>
    rw [hsplit] at hs
    have hlength : s.length = r.length + 1 := by rw [hsplit, List.length_cons]
    rw [operand, List.drop_zero, S.next_cons]
    by_cases hliteral : t.lexeme.isLiteral = true
    · rw [if_pos hliteral, if_pos hliteral]
      have hread := literal_tracks hs
      rw [literal_cons hliteral] at hread
      refine Follows.andThen (x := .ok _) (g := fun _ => .ok _) hread ?_
      intro x trail hx hr
      cases hx
      exact tracks_done hr
    · rw [if_neg hliteral, if_neg hliteral]
      cases hl : t.lexeme with
      | identifier name =>
        refine tracks_bind (reference_tracks hs) ?_
        intro parts behind _ trail hbehind
        refine follows_lookAt hbehind (Nat.zero_le _) ?_
        intro trail hbehind
        rw [List.drop_zero]
        cases haccept : accept? (.symbol .lparen) behind with
        | none =>
          rw [if_neg (lexeme_next_ne_of_accept? haccept)]
          simp only [haccept, after_none]
          exact tracks_done hbehind
        | some read =>
          obtain ⟨paren, inside, h⟩ := read
          rw [if_pos (lexeme_next_of_accept? haccept)]
          simp only [haccept, after_some, Read.after]
          by_cases hsubscripted : isSubscripted parts = true
          · rw [if_pos hsubscripted, if_pos hsubscripted]
            exact follows_fail hbehind .plainName
          · rw [if_neg hsubscripted, if_neg hsubscripted]
            obtain rfl := eq_cons_of_accept? haccept
            refine follows_advance hbehind ?_
            intro trail hinside
            refine follows_here hinside ?_
            intro trail hinside
            refine tracks_bind (tracks_after (argumentsUpTo_tracks .rparen hinside)) ?_
            intro args q _ trail hq
            exact tracks_done hq
      | expression text =>
        refine follows_advance hs ?_
        intro trail hr
        exact tracks_done hr
      | symbol sign =>
        cases sign with
        | lbracket =>
          refine follows_advance hs ?_
          intro trail hr
          refine tracks_bind (tracks_after (argumentsUpTo_tracks .rbracket hr)) ?_
          intro items q _ trail hq
          exact tracks_done hq
        | lbrace =>
          refine follows_advance hs ?_
          intro trail hr
          refine tracks_bind (tracks_after (entriesUpTo_tracks hr)) ?_
          intro children q _ trail hq
          exact tracks_done hq
        | lparen =>
          refine follows_advance hs ?_
          intro trail hr
          refine tracks_bind (tracks_after (follows_callTo (expression_tracks hr))) ?_
          intro inner q _ trail hq
          refine tracks_bind (tracks_after (expect_tracks hq)) ?_
          intro _ p _ trail hp
          exact tracks_done hp
        | _ => exact follows_fail hs .expression
      | _ => exact follows_fail hs .expression
termination_by 8 * s.length + 3
decreasing_by all_goals
  simp only [Shorter, List.length_cons] at *
  omega

theorem reference_tracks {trail : Trail} {s : List Token} (hs : Stands S trail s) :
    Tracks S trail Walk.reference (reference S.stop s) := by
  rw [Walk.reference, reference]
  refine tracks_bind (referencePart_tracks hs) ?_
  intro part r _ trail hr
  refine follows_accept? hr ?_ ?_
  · intro haccept trail hr
    simp only [haccept, after_none]
    exact tracks_done hr
  · intro _ q _ haccept trail hq
    simp only [haccept, after_some, Read.after]
    refine tracks_bind (tracks_after (follows_callTo (reference_tracks hq))) ?_
    intro parts p _ trail hp
    exact tracks_done hp
termination_by 8 * s.length + 2
decreasing_by all_goals omega

theorem referencePart_tracks {trail : Trail} {s : List Token} (hs : Stands S trail s) :
    Tracks S trail Walk.referencePart (referencePart S.stop s) := by
  rw [Walk.referencePart, referencePart]
  refine follows_here hs ?_
  intro trail hs
  refine tracks_bind (expect_tracks hs) ?_
  intro name r _ trail hr
  refine tracks_bind (tracks_afterSome (subscripts_tracks hr)) ?_
  intro found q _ trail hq
  exact tracks_done hq
termination_by 8 * s.length + 1
decreasing_by all_goals omega

theorem subscripts_tracks {trail : Trail} {s : List Token} (hs : Stands S trail s) :
    TracksSome S trail Walk.subscripts (subscripts S.stop s) := by
  rw [Walk.subscripts, subscripts]
  refine follows_accept? hs ?_ ?_
  · intro haccept trail hs
    rw [haccept]
    exact tracksSome_done hs
  · intro _ r _ haccept trail hr
    rw [haccept]
    refine tracks_bind (tracks_after (follows_callTo (expression_tracks hr))) ?_
    intro first q _ trail hq
    refine tracks_bind (tracks_after (expect_tracks hq)) ?_
    intro _ p _ trail hp
    refine tracks_bind (tracks_afterSome (follows_callTo (subscripts_tracks hp))) ?_
    intro others l _ trail hl
    exact tracksSome_done hl
termination_by 8 * s.length
decreasing_by all_goals omega

theorem arguments_tracks {trail : Trail} {s : List Token} (hs : Stands S trail s) :
    Tracks S trail Walk.arguments (arguments S.stop s) := by
  rw [Walk.arguments, arguments]
  refine tracks_bind (follows_callTo (expression_tracks hs)) ?_
  intro first r _ trail hr
  refine follows_accept? hr ?_ ?_
  · intro haccept trail hr
    simp only [haccept, after_none]
    exact tracks_done hr
  · intro _ q _ haccept trail hq
    simp only [haccept, after_some, Read.after]
    refine tracks_bind (tracks_after (follows_callTo (arguments_tracks hq))) ?_
    intro others p _ trail hp
    exact tracks_done hp
termination_by 8 * s.length + 6
decreasing_by all_goals omega

theorem argumentsUpTo_tracks (close : Symbol) {trail : Trail} {s : List Token}
    (hs : Stands S trail s) :
    Tracks S trail (Walk.argumentsUpTo close) (argumentsUpTo S.stop close s) := by
  rw [Walk.argumentsUpTo, argumentsUpTo]
  refine follows_accept? hs ?_ ?_
  · intro haccept trail hs
    rw [haccept]
    refine tracks_bind (arguments_tracks hs) ?_
    intro args r _ trail hr
    refine tracks_bind (tracks_after (expect_tracks hr)) ?_
    intro _ q _ trail hq
    exact tracks_done hq
  · intro _ r _ haccept trail hr
    rw [haccept]
    exact tracks_done hr
termination_by 8 * s.length + 7
decreasing_by all_goals omega

theorem entries_tracks {trail : Trail} {s : List Token} (hs : Stands S trail s) :
    Tracks S trail Walk.entries (entries S.stop s) := by
  rw [Walk.entries, entries]
  refine tracks_bind (expect_tracks hs) ?_
  intro key r _ trail hr
  refine tracks_bind (tracks_after (expect_tracks hr)) ?_
  intro _ q _ trail hq
  refine tracks_bind (tracks_after (follows_callTo (expression_tracks hq))) ?_
  intro value p _ trail hp
  refine follows_accept? hp ?_ ?_
  · intro haccept trail hp
    simp only [haccept, after_none]
    exact tracks_done hp
  · intro _ l _ haccept trail hl
    simp only [haccept, after_some, Read.after]
    refine tracks_bind (tracks_after (follows_callTo (entries_tracks hl))) ?_
    intro others k _ trail hk
    exact tracks_done hk
termination_by 8 * s.length
decreasing_by all_goals omega

theorem entriesUpTo_tracks {trail : Trail} {s : List Token} (hs : Stands S trail s) :
    Tracks S trail Walk.entriesUpTo (entriesUpTo S.stop s) := by
  rw [Walk.entriesUpTo, entriesUpTo]
  refine follows_accept? hs ?_ ?_
  · intro haccept trail hs
    rw [haccept]
    refine tracks_bind (entries_tracks hs) ?_
    intro children r _ trail hr
    refine tracks_bind (tracks_after (expect_tracks hr)) ?_
    intro _ q _ trail hq
    exact tracks_done hq
  · intro _ r _ haccept trail hr
    rw [haccept]
    exact tracks_done hr
termination_by 8 * s.length + 1
decreasing_by all_goals omega

end

end Workflow.Grammar
