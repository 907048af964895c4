import Workflow.Proofs.Build.Acceptance
import Workflow.Proofs.Grammar.Language
import Workflow.Proofs.Grammar.NoEnd
import Workflow.Proofs.Grammar.Prompt.Statement

/-!
# The earliest fault

Reading programs is prompt, so that a list of tokens without a syntax tree is refused at its first
token that no program goes on with: the tokens before it start some program, and with it they start
none.
-/

namespace Workflow

namespace Grammar

open Phrase Recognizer

/-! ## Definitions -/

theorem leaves_parameter :
    leaves parameter =
      (single .identifier).followedBy (either (.symbol .assign) (single .literal) nothing) := by
  funext stop s
  rw [leaves, parameter]
  refine rest_bind ?_
  rintro ⟨name, r, h⟩
  dsimp only
  rw [either]
  cases accept? (.symbol .assign) r with
  | none => rfl
  | some assign => exact rest_after_bind_pure fun _ => rfl

theorem prompt_parameter (s : List Token) :
    Prompt (leaves parameter) (Derived Parameter.tokens) s := by
  rw [leaves_parameter]
  refine (prompt_single .identifier s).separated (fun r _ => prompt_single .literal r) ?_ ?_
  · rintro _ ⟨name, rfl⟩
    exact ⟨.plain name, rfl⟩
  · rintro _ ⟨name, rfl⟩ assign _ ⟨value, rfl⟩
    exact ⟨.default name assign value, rfl⟩

theorem leaves_parameters :
    leaves parameters =
      (leaves parameter).followedBy (either (.symbol .comma) (leaves parameters) nothing) := by
  funext stop s
  rw [leaves, parameters]
  refine rest_bind ?_
  rintro ⟨first, r, h⟩
  dsimp only
  rw [either]
  cases accept? (.symbol .comma) r with
  | none => rfl
  | some comma => exact rest_after_bind_pure fun _ => rfl

theorem prompt_parameters (s : List Token) :
    Prompt (leaves parameters) (Derived Parameters.tokens) s := by
  rw [leaves_parameters]
  refine (prompt_parameter s).separated (fun r _ => prompt_parameters r) ?_ ?_
  · rintro _ ⟨parameter, rfl⟩
    exact ⟨.last parameter, rfl⟩
  · rintro _ ⟨parameter, rfl⟩ comma _ ⟨rest, rfl⟩
    exact ⟨.cons parameter comma rest, rfl⟩
termination_by s.length
decreasing_by all_goals omega

theorem leaves_parameterList :
    leaves parameterList = either (.symbol .rparen) nothing
      ((leaves parameters).followedBy (single (.symbol .rparen))) := by
  funext stop s
  rw [leaves, parameterList, either]
  cases accept? (.symbol .rparen) s with
  | some last => rfl
  | none =>
    refine rest_bind ?_
    rintro ⟨found, r, h⟩
    exact rest_after_bind_pure fun _ => rfl

theorem prompt_parameterList (s : List Token) :
    Prompt (leaves parameterList) (Derived ParametersUpTo.tokens) s := by
  rw [leaves_parameterList]
  refine prompt_either (L := 1) (fun r _ => prompt_nothing rfl) ?_ fun _ =>
    ((prompt_parameters s).andThen (fun r _ => prompt_single _ r) (exists_derived _)).mono ?_
  · rintro stop _ rfl
    exact ⟨.none stop, rfl⟩
  · rintro _ ⟨_, ⟨list, rfl⟩, _, ⟨stop, rfl⟩, rfl⟩
    exact ⟨.some list stop, rfl⟩

theorem leaves_definition :
    leaves definition = (single (.keyword .workflow)).followedBy ((single .identifier).followedBy
      ((single (.symbol .lparen)).followedBy
        ((leaves parameterList).followedBy (leaves block)))) := by
  funext stop s
  rw [leaves, definition]
  refine rest_bind ?_
  rintro ⟨workflow, r, h⟩
  refine rest_after_bind ?_
  rintro ⟨name, r, h⟩
  refine rest_after_bind ?_
  rintro ⟨start, r, h⟩
  refine rest_after_bind ?_
  rintro ⟨list, r, h⟩
  exact rest_after_bind_pure fun _ => rfl

instance : Inhabited Phrase.ParametersUpTo := ⟨.none default⟩

theorem prompt_definition (s : List Token) :
    Prompt (leaves definition) (Words Definition.Settled Definition.tokens) s := by
  rw [leaves_definition]
  have hlist := exists_mul (exists_derived ParametersUpTo.tokens)
    (exists_derived fun d : { d : Phrase.Block // d.Settled } => d.val.tokens)
  have hstart := exists_mul (exists_derived fun t : Sign .lparen => [t.val]) hlist
  refine ((prompt_single _ s).andThen (fun r _ => (prompt_single _ r).andThen (fun r _ =>
    (prompt_single _ r).andThen (fun r _ => (prompt_parameterList r).andThen
      (fun r _ => prompt_block r) (exists_derived _)) hlist) hstart)
    (exists_mul (exists_derived _) hstart)).mono ?_
  rintro _ ⟨_, ⟨workflow, rfl⟩, _, ⟨_, ⟨name, rfl⟩, _, ⟨_, ⟨start, rfl⟩, _, ⟨_, ⟨list, rfl⟩, _,
    ⟨⟨body, hbody⟩, rfl⟩, rfl⟩, rfl⟩, rfl⟩, rfl⟩
  exact ⟨⟨.mk workflow name start list body, hbody⟩, rfl⟩

/-- Definitions leave nothing. -/
def leavesNone : Recognizer := fun stop s => (fun _ => []) <$> definitions stop s

theorem leavesNone_cons (stop : Position) (t : Token) (r : List Token) :
    leavesNone stop (t :: r) = (leaves definition).followedBy leavesNone stop (t :: r) := by
  rw [leavesNone, definitions, if_neg (by simp)]
  refine rest_bind ?_
  rintro ⟨first, r, h⟩
  dsimp only
  rw [leavesNone]
  cases definitions stop r <;> rfl

theorem prompt_leavesNone (s : List Token) :
    Prompt leavesNone (Words Program.Settled Program.tokens) s := by
  have hnil : [] ∈ Words Program.Settled Program.tokens := ⟨⟨[], List.forall_mem_nil _⟩, rfl⟩
  cases s with
  | nil =>
    refine .reads [] [] rfl hnil fun stop rest hrest => ?_
    rw [List.head?_eq_none_iff.mp hrest, List.append_nil, leavesNone, definitions]
    rfl
  | cons t r =>
    refine Prompt.congr (((prompt_definition (t :: r)).andThen (fun q _ => prompt_leavesNone q)
      ⟨[], hnil⟩).mono ?_) fun stop s' hs' => ?_
    · rintro _ ⟨_, ⟨⟨d, hd⟩, rfl⟩, _, ⟨⟨p, hp⟩, rfl⟩, rfl⟩
      exact ⟨⟨d :: p, List.forall_mem_cons.mpr ⟨hd, hp⟩⟩, List.flatMap_cons⟩
    · obtain ⟨q, rfl⟩ := List.head?_eq_some_iff.mp hs'
      exact leavesNone_cons stop t q
termination_by s.length
decreasing_by all_goals omega

end Grammar

open Grammar Phrase

/-! ## Faults -/

/-- Tokens on which reading fails whatever comes behind the next token start no program. -/
theorem ofTokens_ne_ok {v rest more : List Token} {t : Token} (hv : NoEnd v)
    (hrest : rest.head? = ((t :: more).takeWhile (·.lexeme ≠ .endOfInput)).head?)
    (hfails : ∀ stop rest', rest'.head? = rest.head? →
      ∃ e, leavesNone stop (v ++ rest') = .error e) (tree : Node) :
    Node.ofTokens (v ++ t :: more) ≠ .ok tree := by
  intro h
  obtain ⟨p, stop, hp, _, htokens⟩ := exists_program_of_ofTokens h
  rw [List.takeWhile_append_of_pos fun u hu => decide_eq_true (hv u hu)] at htokens
  obtain ⟨e, he⟩ := hfails stop _ hrest.symm
  rw [← htokens, leavesNone, p.definitions_tokens hp] at he
  cases he

/-- A list of tokens that is refused for a token is refused at the first one that no program goes
on with. The tokens before that one start a program, and no program starts with them and that one,
whatever is behind. -/
theorem ofTokens_error_earliest (w : List Token) (eof : Token)
    (hw : ∀ t ∈ w, t.lexeme ≠ .endOfInput) (heof : eof.lexeme = .endOfInput) (e : ParseError)
    (h : Node.ofTokens (w ++ [eof]) = .error e) (hkind : (Report.ofParseError e).kind = .parse) :
    ∃ before t behind, w ++ [eof] = before ++ t :: behind ∧
      (Report.ofParseError e).position = some t.position ∧
      (∃ more tree, (∀ u ∈ more, u.lexeme ≠ .endOfInput) ∧
        Node.ofTokens (before ++ more ++ [eof]) = .ok tree) ∧
      ∀ more tree, Node.ofTokens (before ++ t :: more) ≠ .ok tree := by
  have herror : leavesNone eof.position w = .error e := by
    rw [ofTokens_append_eof hw heof] at h
    rw [leavesNone]
    cases hread : definitions eof.position w with
    | error e' =>
      rw [hread] at h
      cases h
      rfl
    | ok found =>
      rw [hread] at h
      cases h
  cases prompt_leavesNone w with
  | reads v rest split word settled =>
    rw [split, settled _ rest rfl] at herror
    cases herror
  | bareTry position settled =>
    rw [settled] at herror
    cases herror
    cases hkind
  | fails v rest expected split viable settled =>
    subst split
    rw [settled _ rest rfl] at herror
    cases herror
    obtain ⟨more, ⟨p, hp⟩, htokens⟩ := viable
    have hnoEnd : NoEnd (v ++ more) := htokens ▸ p.noEnd
    rw [noEnd_append] at hnoEnd
    have hviable : ∃ more tree, (∀ u ∈ more, u.lexeme ≠ .endOfInput) ∧
        Node.ofTokens (v ++ more ++ [eof]) = .ok tree :=
      ⟨more, _, hnoEnd.2, (ofTokens_eq_ok_iff (noEnd_append.mpr hnoEnd) heof).mpr
        ⟨p, hp, htokens, rfl⟩⟩
    have hfails (stop : Position) (rest' : List Token) (hrest : rest'.head? = rest.head?) :
        ∃ e, leavesNone stop (v ++ rest') = .error e :=
      ⟨_, settled stop rest' hrest⟩
    cases rest with
    | nil =>
      refine ⟨v, eof, [], by rw [List.append_nil], rfl, hviable, fun more =>
        ofTokens_ne_ok hnoEnd.1 ?_ hfails⟩
      rw [List.takeWhile_cons_of_neg (by simp [heof])]
    | cons t r =>
      have ht : t.lexeme ≠ .endOfInput := hw t (by simp)
      refine ⟨v, t, r ++ [eof], by simp, rfl, hviable, fun more =>
        ofTokens_ne_ok hnoEnd.1 ?_ hfails⟩
      rw [List.takeWhile_cons_of_pos (by simp [ht])]
      rfl

/-- A call with named arguments is no part of an expression, which shows at the operator. -/
theorem ofTokens_error_earliest_sample :
    ∃ (w : List Token) (eof : Token) (e : ParseError),
      w.map (·.lexeme) = [.keyword .workflow, .identifier "w", .symbol .lparen, .symbol .rparen,
        .symbol .lbrace, .identifier "x", .symbol .assign, .identifier "f", .symbol .lparen,
        .identifier "a", .symbol .assign, .number (.int 1), .symbol .rparen, .symbol .plus,
        .number (.int 2), .symbol .rbrace] ∧
      Node.ofTokens (w ++ [eof]) = .error e ∧
      (Report.ofParseError e).kind = .parse ∧
      (Report.ofParseError e).position = some ⟨13, 1, 13⟩ ∧
      ∃ before t behind, w ++ [eof] = before ++ t :: behind ∧
        (Report.ofParseError e).position = some t.position ∧
        (∃ more tree, (∀ u ∈ more, u.lexeme ≠ .endOfInput) ∧
          Node.ofTokens (before ++ more ++ [eof]) = .ok tree) ∧
        ∀ more tree, Node.ofTokens (before ++ t :: more) ≠ .ok tree := by
  let w : List Token := ([Lexeme.keyword .workflow, .identifier "w", .symbol .lparen,
    .symbol .rparen, .symbol .lbrace, .identifier "x", .symbol .assign, .identifier "f",
    .symbol .lparen, .identifier "a", .symbol .assign, .number (.int 1), .symbol .rparen,
    .symbol .plus, .number (.int 2), .symbol .rbrace].zipIdx).map
      fun l => ⟨l.1, "", ⟨l.2, 1, l.2⟩⟩
  let eof : Token := ⟨.endOfInput, "", .start⟩
  let e : ParseError := .unexpected .endOfStatement (some "") ⟨13, 1, 13⟩
  -- Trees are not compared: the run is mapped to one that carries none.
  have hrun : (fun _ => ()) <$> Node.ofTokens (w ++ [eof]) = .error e := by decide +kernel
  have herror : Node.ofTokens (w ++ [eof]) = .error e := map_eq_error.mp hrun
  exact ⟨w, eof, e, by decide +kernel, herror, rfl, rfl,
    ofTokens_error_earliest w eof (by decide +kernel) rfl e herror rfl⟩

end Workflow
