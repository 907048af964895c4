import Workflow.Proofs.Grammar.Soundness
import Workflow.Proofs.Grammar.Completeness
import Workflow.Proofs.Grammar.Writing

/-!
# The language of programs

A list of tokens has a syntax tree exactly if it is derived from the grammar in the settled way, and
writing the tree gives the tokens back.
-/

namespace Workflow

open Grammar

section

variable {w : List Token} {eof : Token}

/-- The tokens of a program are those before the end of input. -/
theorem ofTokens_append_eof (hw : ∀ t ∈ w, t.lexeme ≠ .endOfInput)
    (heof : eof.lexeme = .endOfInput) :
    Node.ofTokens (w ++ [eof]) = (definitions eof.position w).map fun found =>
      .mk .program (here eof.position w) (found.map (.node .subworkflowDefinition)) := by
  have hall : ∀ t ∈ w, decide (t.lexeme ≠ .endOfInput) = true :=
    fun t ht => decide_eq_true (hw t ht)
  have hprogram : (w ++ [eof]).takeWhile (·.lexeme ≠ .endOfInput) = w := by
    rw [List.takeWhile_append_of_pos hall, List.takeWhile_cons_of_neg (by simp [heof]),
      List.append_nil]
  have hrest : (w ++ [eof]).dropWhile (·.lexeme ≠ .endOfInput) = [eof] := by
    rw [List.dropWhile_append_of_pos hall, List.dropWhile_cons_of_neg (by simp [heof])]
  rw [Node.ofTokens, List.getLast?_concat]
  simp only [heof, ne_eq, not_true_eq_false, if_false]
  rw [hprogram, hrest, here_cons]
  cases definitions eof.position w with
  | error e => rfl
  | ok found => rfl

theorem ofTokens_eq_ok_iff (hw : ∀ t ∈ w, t.lexeme ≠ .endOfInput)
    (heof : eof.lexeme = .endOfInput) {tree : Node} :
    Node.ofTokens (w ++ [eof]) = .ok tree ↔
      ∃ p : Phrase.Program, p.Settled ∧ p.tokens = w ∧ p.node eof.position = tree := by
  rw [ofTokens_append_eof hw heof]
  constructor
  · intro h
    obtain ⟨found, hfound, rfl⟩ := map_eq_ok.mp h
    obtain ⟨p, rfl, rfl, hp⟩ := exists_definitions hfound
    exact ⟨p, hp, rfl, rfl⟩
  · rintro ⟨p, hp, rfl, rfl⟩
    rw [p.definitions_tokens hp]
    rfl

end

/-- Reading accepts exactly the settled programs of the grammar, and the tree of a program that is
read spells its tokens. -/
theorem ofTokens_language (w : List Token) (eof : Token)
    (hw : ∀ t ∈ w, t.lexeme ≠ .endOfInput) (heof : eof.lexeme = .endOfInput) :
    ((∃ tree, Node.ofTokens (w ++ [eof]) = .ok tree) ↔
      ∃ p : Phrase.Program, p.Settled ∧ p.tokens = w) ∧
    ∀ tree, Node.ofTokens (w ++ [eof]) = .ok tree → Spells tree.write w := by
  constructor
  · constructor
    · rintro ⟨tree, h⟩
      obtain ⟨p, hp, htokens, _⟩ := (ofTokens_eq_ok_iff hw heof).mp h
      exact ⟨p, hp, htokens⟩
    · rintro ⟨p, hp, htokens⟩
      exact ⟨_, (ofTokens_eq_ok_iff hw heof).mpr ⟨p, hp, htokens, rfl⟩⟩
  · intro tree h
    obtain ⟨p, _, rfl, rfl⟩ := (ofTokens_eq_ok_iff hw heof).mp h
    exact p.spelled eof.position

theorem ofTokens_language_sample :
    ∃ w : List Token, w.map (·.lexeme) = [.keyword .workflow, .identifier "w", .symbol .lparen,
        .symbol .rparen, .symbol .lbrace, .identifier "x", .symbol .assign, .identifier "f",
        .symbol .lparen, .symbol .rparen, .keyword .return, .symbol .rbrace] ∧
      (∃ tree, Node.ofTokens (w ++ [⟨.endOfInput, "", .start⟩]) = .ok tree ∧
        Spells tree.write w) ∧
      ∃ p : Phrase.Program, p.Settled ∧ p.tokens = w := by
  let w : List Token := [Lexeme.keyword .workflow, .identifier "w", .symbol .lparen,
    .symbol .rparen, .symbol .lbrace, .identifier "x", .symbol .assign, .identifier "f",
    .symbol .lparen, .symbol .rparen, .keyword .return, .symbol .rbrace].map
      fun l => ⟨l, "", .start⟩
  have hread : (Node.ofTokens (w ++ [⟨.endOfInput, "", .start⟩])).toOption.isSome = true := by
    decide +kernel
  obtain ⟨tree, htree⟩ := Option.isSome_iff_exists.mp hread
  have h := ofTokens_language w ⟨.endOfInput, "", .start⟩ (by decide) rfl
  have hok := eq_ok_of_toOption htree
  exact ⟨w, rfl, ⟨tree, hok, h.2 tree hok⟩, h.1.mp ⟨tree, hok⟩⟩

end Workflow
