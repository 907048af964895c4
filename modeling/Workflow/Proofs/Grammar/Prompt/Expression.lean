import Workflow.Proofs.Grammar.Prompt

/-!
# Reading expressions is prompt

Each function that reads a part of an expression is a composition of recognizers, and it is prompt
for the language of its phrases.
-/

namespace Workflow.Grammar

open Phrase Recognizer

/-! ## Some phrases -/

instance : Inhabited Phrase.Operand := ⟨.literal default⟩

instance : Inhabited Phrase.Term := ⟨.plain default⟩

instance : Inhabited Phrase.Expression := ⟨.mk default .nil⟩

/-! ## Expressions -/

theorem leaves_expression :
    leaves expression = (leaves term).followedBy (leavesSome operations) := by
  funext stop s
  rw [leaves, expression]
  refine rest_bind ?_
  rintro ⟨first, r, h⟩
  exact rest_afterSome_bind_pure fun _ => rfl

theorem leavesSome_operations :
    leavesSome operations =
      either .binaryOperator ((leaves term).followedBy (leavesSome operations)) nothing := by
  funext stop s
  rw [leavesSome, operations, either]
  cases accept? .binaryOperator s with
  | none => rfl
  | some operator =>
    refine rest_after_bind ?_
    rintro ⟨next, r, h⟩
    exact rest_afterSome_bind_pure fun _ => rfl

theorem leaves_term :
    leaves term = either .unaryOperator (leaves operand) (leaves operand) := by
  funext stop s
  rw [leaves, term, either]
  cases accept? .unaryOperator s with
  | none => exact rest_bind_pure fun _ => rfl
  | some operator => exact rest_after_bind_pure fun _ => rfl

theorem leaves_reference :
    leaves reference = (leaves referencePart).followedBy
      (either (.symbol .dot) (leaves reference) nothing) := by
  funext stop s
  rw [leaves, reference]
  refine rest_bind ?_
  rintro ⟨part, r, h⟩
  dsimp only
  rw [either]
  cases accept? (.symbol .dot) r with
  | none => rfl
  | some dot => exact rest_after_bind_pure fun _ => rfl

theorem leaves_referencePart :
    leaves referencePart = (single .identifier).followedBy (leavesSome subscripts) := by
  funext stop s
  rw [leaves, referencePart]
  refine rest_bind ?_
  rintro ⟨name, r, h⟩
  exact rest_afterSome_bind_pure fun _ => rfl

theorem leavesSome_subscripts :
    leavesSome subscripts = either (.symbol .lbracket) ((leaves expression).followedBy
      ((single (.symbol .rbracket)).followedBy (leavesSome subscripts))) nothing := by
  funext stop s
  rw [leavesSome, subscripts, either]
  cases accept? (.symbol .lbracket) s with
  | none => rfl
  | some start =>
    refine rest_after_bind ?_
    rintro ⟨index, r, h⟩
    refine rest_after_bind ?_
    rintro ⟨close, r, h⟩
    exact rest_afterSome_bind_pure fun _ => rfl

theorem leaves_arguments :
    leaves arguments = (leaves expression).followedBy
      (either (.symbol .comma) (leaves arguments) nothing) := by
  funext stop s
  rw [leaves, arguments]
  refine rest_bind ?_
  rintro ⟨first, r, h⟩
  dsimp only
  rw [either]
  cases accept? (.symbol .comma) r with
  | none => rfl
  | some comma => exact rest_after_bind_pure fun _ => rfl

theorem leaves_argumentsUpTo (close : Symbol) :
    leaves (argumentsUpTo · close) = either (.symbol close) nothing
      ((leaves arguments).followedBy (single (.symbol close))) := by
  funext stop s
  rw [leaves, argumentsUpTo, either]
  cases accept? (.symbol close) s with
  | some last => rfl
  | none =>
    refine rest_bind ?_
    rintro ⟨args, r, h⟩
    exact rest_after_bind_pure fun _ => rfl

theorem leaves_entries :
    leaves entries = (single .objectKey).followedBy ((single (.symbol .colon)).followedBy
      ((leaves expression).followedBy (either (.symbol .comma) (leaves entries) nothing))) := by
  funext stop s
  rw [leaves, entries]
  refine rest_bind ?_
  rintro ⟨key, r, h⟩
  refine rest_after_bind ?_
  rintro ⟨colon, r, h⟩
  refine rest_after_bind ?_
  rintro ⟨value, r, h⟩
  dsimp only
  rw [either]
  cases accept? (.symbol .comma) r with
  | none => rfl
  | some comma => exact rest_after_bind_pure fun _ => rfl

theorem leaves_entriesUpTo :
    leaves entriesUpTo = either (.symbol .rbrace) nothing
      ((leaves entries).followedBy (single (.symbol .rbrace))) := by
  funext stop s
  rw [leaves, entriesUpTo, either]
  cases accept? (.symbol .rbrace) s with
  | some last => rfl
  | none =>
    refine rest_bind ?_
    rintro ⟨children, r, h⟩
    exact rest_after_bind_pure fun _ => rfl

/-- What comes behind a reference in an expression: the arguments of a call, if it has no
subscripts. -/
def operandTail : Bool → Recognizer
  | true => refuse (.symbol .lparen) .plainName nothing
  | false => either (.symbol .lparen) (leaves (argumentsUpTo · .rparen)) nothing

section

variable {stop : Position} {t : Token} {r : List Token}

theorem leaves_operand_literal (ht : t.lexeme.isLiteral = true) :
    leaves operand stop (t :: r) = .ok r := by
  rw [leaves, operand, if_pos ht]
  rfl

theorem leaves_operand_array (ht : t.lexeme = .symbol .lbracket) :
    leaves operand stop (t :: r) = leaves (argumentsUpTo · .rbracket) stop r := by
  rw [leaves, operand]
  simp only [ht, Lexeme.isLiteral, Bool.false_eq_true, if_false]
  exact rest_after_bind_pure fun _ => rfl

theorem leaves_operand_object (ht : t.lexeme = .symbol .lbrace) :
    leaves operand stop (t :: r) = leaves entriesUpTo stop r := by
  rw [leaves, operand]
  simp only [ht, Lexeme.isLiteral, Bool.false_eq_true, if_false]
  exact rest_after_bind_pure fun _ => rfl

theorem leaves_operand_paren (ht : t.lexeme = .symbol .lparen) :
    leaves operand stop (t :: r) =
      (leaves expression).followedBy (single (.symbol .rparen)) stop r := by
  rw [leaves, operand]
  simp only [ht, Lexeme.isLiteral, Bool.false_eq_true, if_false]
  refine rest_after_bind fun _ => ?_
  exact rest_after_bind_pure fun _ => rfl

theorem leaves_operand_expression {text : String} (ht : t.lexeme = .expression text) :
    leaves operand stop (t :: r) = .ok r := by
  rw [leaves, operand]
  simp only [ht, Lexeme.isLiteral, Bool.false_eq_true, if_false]
  rfl

theorem leaves_operand_identifier {name : String} (ht : t.lexeme = .identifier name) :
    leaves operand stop (t :: r) = behindReference operandTail stop (t :: r) := by
  rw [leaves, operand, behindReference]
  simp only [ht, Lexeme.isLiteral, Bool.false_eq_true, if_false]
  cases reference stop (t :: r) with
  | error e => rfl
  | ok x =>
    obtain ⟨parts, behind, h⟩ := x
    simp only [ok_bind]
    cases isSubscripted parts with
    | true =>
      rw [operandTail, refuse]
      cases accept? (.symbol .lparen) behind with
      | none => rfl
      | some start => rfl
    | false =>
      rw [operandTail, either]
      cases accept? (.symbol .lparen) behind with
      | none => rfl
      | some start => exact rest_after_bind_pure fun _ => rfl

end

mutual

theorem prompt_expression (s : List Token) :
    Prompt (leaves expression) (Derived Expression.tokens) s := by
  rw [leaves_expression]
  refine ((prompt_term s).andThen (fun r _ => prompt_operations r) ⟨[], .nil, rfl⟩).mono ?_
  rintro _ ⟨_, ⟨head, rfl⟩, _, ⟨tail, rfl⟩, rfl⟩
  exact ⟨.mk head tail, rfl⟩
termination_by 8 * s.length + 5
decreasing_by all_goals omega

theorem prompt_operations (s : List Token) :
    Prompt (leavesSome operations) (Derived Operations.tokens) s := by
  rw [leavesSome_operations]
  refine prompt_either (fun r _ =>
    (prompt_term r).andThen (fun q _ => prompt_operations q) ⟨[], .nil, rfl⟩) ?_
    fun _ => prompt_nothing ⟨.nil, rfl⟩
  rintro operator _ ⟨_, ⟨term, rfl⟩, _, ⟨rest, rfl⟩, rfl⟩
  exact ⟨.cons operator term rest, rfl⟩
termination_by 8 * s.length
decreasing_by all_goals omega

theorem prompt_term (s : List Token) : Prompt (leaves term) (Derived Term.tokens) s := by
  rw [leaves_term]
  refine prompt_either (fun r _ => prompt_operand r) ?_ fun _ => (prompt_operand s).mono ?_
  · rintro operator _ ⟨operand, rfl⟩
    exact ⟨.unary operator operand, rfl⟩
  · rintro _ ⟨operand, rfl⟩
    exact ⟨.plain operand, rfl⟩
termination_by 8 * s.length + 4
decreasing_by all_goals omega

theorem prompt_operand (s : List Token) :
    Prompt (leaves operand) (Derived Operand.tokens) s := by
  match s with
  | [] =>
    refine (prompt_fail .expression (exists_derived _)).congr fun stop s' hs' => ?_
    rw [List.head?_eq_none_iff.mp hs', leaves, operand]
    rfl
  | t :: r =>
    by_cases hliteral : t.lexeme.isLiteral = true
    · exact .reads [t] r rfl ⟨.literal ⟨t, hliteral⟩, rfl⟩ fun _ _ _ =>
        leaves_operand_literal hliteral
    · have failing (h : ∀ stop q, operand stop (t :: q) =
          .error (unexpected stop .expression (t :: q))) :
          Prompt (leaves operand) (Derived Operand.tokens) (t :: r) := by
        refine (prompt_fail .expression (exists_derived _)).congr fun stop s' hs' => ?_
        obtain ⟨q, rfl⟩ := List.head?_eq_some_iff.mp hs'
        rw [leaves, h]
        rfl
      have hr := shorter_cons t r
      cases hl : t.lexeme with
      | identifier name =>
        refine Prompt.congr (prompt_behindReference (f := operandTail) (prompt_reference (t :: r))
          (fun d => ⟨[], .reference d, by simp [Operand.tokens]⟩) fun d rest h => ?_)
          fun stop s' hs' => ?_
        · cases hd : isSubscripted d.nodes with
          | true =>
            have hd : [] ∈ ({w | d.tokens ++ w ∈ Derived Operand.tokens} : Language Token) :=
              ⟨.reference d, by simp [Operand.tokens]⟩
            exact prompt_refuse _ (prompt_nothing hd) ⟨[], hd⟩
          | false =>
            obtain ⟨name, rfl⟩ := d.exists_qualifiedName hd
            refine prompt_either (fun q _ => prompt_argumentsUpTo .rparen q) ?_ fun _ =>
              prompt_nothing ⟨.reference name.reference, by simp [Operand.tokens]⟩
            rintro start _ ⟨args, rfl⟩
            exact ⟨.call name start args, by simp [Operand.tokens]⟩
        · obtain ⟨q, rfl⟩ := List.head?_eq_some_iff.mp hs'
          exact leaves_operand_identifier hl
      | expression text =>
        exact .reads [t] r rfl ⟨.expression ⟨t, text, hl⟩, rfl⟩ fun _ _ _ =>
          leaves_operand_expression hl
      | symbol sign =>
        cases sign with
        | lbracket =>
          refine (prompt_argumentsUpTo .rbracket r).behind (w := [t]) ?_ fun _ _ _ =>
            leaves_operand_array hl
          rintro _ ⟨items, rfl⟩
          exact ⟨.array ⟨t, decide_eq_true hl⟩ items, rfl⟩
        | lbrace =>
          refine (prompt_entriesUpTo r).behind (w := [t]) ?_ fun _ _ _ => leaves_operand_object hl
          rintro _ ⟨entries, rfl⟩
          exact ⟨.object ⟨t, decide_eq_true hl⟩ entries, rfl⟩
        | lparen =>
          refine ((prompt_expression r).andThen (fun q _ => prompt_single _ q)
            (exists_derived _)).behind (w := [t]) ?_ fun _ _ _ => leaves_operand_paren hl
          rintro _ ⟨_, ⟨inner, rfl⟩, _, ⟨stop, rfl⟩, rfl⟩
          exact ⟨.paren ⟨t, decide_eq_true hl⟩ inner stop, rfl⟩
        | _ => exact failing fun stop q => by simp [operand, hl, Lexeme.isLiteral]
      | keyword word =>
        refine failing fun stop q => ?_
        rw [operand, if_neg hliteral]
        simp only [hl]
      | string text => exact absurd (by rw [hl]; rfl) hliteral
      | number value => exact absurd (by rw [hl]; rfl) hliteral
      | endOfInput => exact failing fun stop q => by simp [operand, hl, Lexeme.isLiteral]
termination_by 8 * s.length + 3
decreasing_by all_goals
  simp only [Shorter, List.length_cons] at *
  omega

theorem prompt_reference (s : List Token) :
    Prompt (leaves reference) (Derived Reference.tokens) s := by
  rw [leaves_reference]
  refine (prompt_referencePart s).separated (fun r _ => prompt_reference r) ?_ ?_
  · rintro _ ⟨part, rfl⟩
    exact ⟨.last part, rfl⟩
  · rintro _ ⟨part, rfl⟩ dot _ ⟨rest, rfl⟩
    exact ⟨.dotted part dot rest, rfl⟩
termination_by 8 * s.length + 2
decreasing_by all_goals omega

theorem prompt_referencePart (s : List Token) :
    Prompt (leaves referencePart) (Derived Part.tokens) s := by
  rw [leaves_referencePart]
  refine ((prompt_single .identifier s).andThen (fun r _ => prompt_subscripts r)
    ⟨[], .nil, rfl⟩).mono ?_
  rintro _ ⟨_, ⟨name, rfl⟩, _, ⟨found, rfl⟩, rfl⟩
  exact ⟨.mk name found, rfl⟩
termination_by 8 * s.length + 1
decreasing_by all_goals omega

theorem prompt_subscripts (s : List Token) :
    Prompt (leavesSome subscripts) (Derived Subscripts.tokens) s := by
  rw [leavesSome_subscripts]
  refine prompt_either (fun r _ => (prompt_expression r).andThen
    (fun q _ => (prompt_single _ q).andThen (fun q' _ => prompt_subscripts q') ⟨[], .nil, rfl⟩)
    (exists_mul (exists_derived _) ⟨[], .nil, rfl⟩)) ?_ fun _ => prompt_nothing ⟨.nil, rfl⟩
  rintro start _ ⟨_, ⟨index, rfl⟩, _, ⟨_, ⟨stop, rfl⟩, _, ⟨rest, rfl⟩, rfl⟩, rfl⟩
  exact ⟨.cons start index stop rest, by simp [Subscripts.tokens]⟩
termination_by 8 * s.length
decreasing_by all_goals omega

theorem prompt_arguments (s : List Token) :
    Prompt (leaves arguments) (Derived Arguments.tokens) s := by
  rw [leaves_arguments]
  refine (prompt_expression s).separated (fun r _ => prompt_arguments r) ?_ ?_
  · rintro _ ⟨value, rfl⟩
    exact ⟨.last value, rfl⟩
  · rintro _ ⟨value, rfl⟩ comma _ ⟨rest, rfl⟩
    exact ⟨.cons value comma rest, rfl⟩
termination_by 8 * s.length + 6
decreasing_by all_goals omega

theorem prompt_argumentsUpTo (close : Symbol) (s : List Token) :
    Prompt (leaves (argumentsUpTo · close))
      (Derived (ArgumentsUpTo.tokens : Phrase.ArgumentsUpTo close → _)) s := by
  rw [leaves_argumentsUpTo]
  refine prompt_either (L := 1) (fun r _ => prompt_nothing rfl) ?_ fun _ =>
    ((prompt_arguments s).andThen (fun r _ => prompt_single _ r) (exists_derived _)).mono ?_
  · rintro stop _ rfl
    exact ⟨.none stop, rfl⟩
  · rintro _ ⟨_, ⟨args, rfl⟩, _, ⟨stop, rfl⟩, rfl⟩
    exact ⟨.some args stop, rfl⟩
termination_by 8 * s.length + 7
decreasing_by all_goals omega

theorem prompt_entries (s : List Token) :
    Prompt (leaves entries) (Derived Entries.tokens) s := by
  rw [leaves_entries]
  refine ((prompt_single _ s).andThen (fun r _ => (prompt_single _ r).andThen (fun q _ =>
    (prompt_expression q).separated (N := {w | ∀ (key : Tok .objectKey) (colon : Sign .colon),
      key.val :: colon.val :: w ∈ Derived Entries.tokens})
      (fun q' _ => prompt_entries q') ?_ ?_) ?_) ?_).mono ?_
  · rintro _ ⟨value, rfl⟩ key colon
    exact ⟨.last key colon value, rfl⟩
  · rintro _ ⟨value, rfl⟩ comma _ ⟨rest, rfl⟩ key colon
    exact ⟨.cons key colon value comma rest, rfl⟩
  · exact ⟨_, fun key colon => ⟨.last key colon default, rfl⟩⟩
  · exact exists_mul (exists_derived _) ⟨_, fun key colon => ⟨.last key colon default, rfl⟩⟩
  · rintro _ ⟨_, ⟨key, rfl⟩, _, ⟨_, ⟨colon, rfl⟩, _, hw, rfl⟩, rfl⟩
    exact hw key colon
termination_by 8 * s.length
decreasing_by all_goals omega

theorem prompt_entriesUpTo (s : List Token) :
    Prompt (leaves entriesUpTo) (Derived EntriesUpTo.tokens) s := by
  rw [leaves_entriesUpTo]
  refine prompt_either (L := 1) (fun r _ => prompt_nothing rfl) ?_ fun _ =>
    ((prompt_entries s).andThen (fun r _ => prompt_single _ r) (exists_derived _)).mono ?_
  · rintro stop _ rfl
    exact ⟨.none stop, rfl⟩
  · rintro _ ⟨_, ⟨entries, rfl⟩, _, ⟨stop, rfl⟩, rfl⟩
    exact ⟨.some entries stop, rfl⟩
termination_by 8 * s.length + 1
decreasing_by all_goals omega

end

end Workflow.Grammar
