import Workflow.Proofs.Token.Image

/-!
# Gaps between tokens

A gap is a row of blanks and of comments, each with the line feed that ends it. Reading a text
skips its gap and then takes a token, reaches the end, or finds a last comment that no line feed
ends. The rules at the end of this file are all that later proofs use of the reading of tokens.
-/

namespace Workflow

/-- A row of blanks and of complete comments. -/
inductive Gap : List Char → Prop where
  | nil : Gap []
  | blank {c : Char} {rest : List Char} (hc : Token.isGap c = true) (hrest : Gap rest) :
      Gap (c :: rest)
  | comment {body rest : List Char} (hbody : ∀ c ∈ body, c ≠ '\n') (hrest : Gap rest) :
      Gap ('/' :: '/' :: (body ++ '\n' :: rest))

/-- A comment that no line feed ends, as it may stand at the end of a text. -/
def OpenComment (cs : List Char) : Prop :=
  ∃ body, (∀ c ∈ body, c ≠ '\n') ∧ cs = '/' :: '/' :: body

/-- Whether a text starts with a character that is neither a blank nor the start of a comment. -/
def StartsToken (c : Char) (rest : List Char) : Prop :=
  Token.isGap c = false ∧ ¬ (c = '/' ∧ rest.head? = some '/')

instance (c : Char) (rest : List Char) : Decidable (StartsToken c rest) :=
  inferInstanceAs (Decidable (_ ∧ _))

/-- A text is one line without an end, or has a first line that ends. -/
theorem line_cases (cs : List Char) : (∀ c ∈ cs, c ≠ '\n') ∨
    ∃ body rest, (∀ c ∈ body, c ≠ '\n') ∧ cs = body ++ '\n' :: rest := by
  induction cs with
  | nil => exact .inl (by simp)
  | cons c cs ih =>
    by_cases hc : c = '\n'
    · exact .inr ⟨[], cs, by simp, by simp [hc]⟩
    · rcases ih with h | ⟨body, rest, hbody, rfl⟩
      · exact .inl (by simpa [hc] using h)
      · exact .inr ⟨c :: body, rest, by simpa [hc] using hbody, rfl⟩

/-- Every text starts with a gap, and behind it stands nothing, a last comment or a token. -/
theorem exists_gap (cs : List Char) : ∃ gap rest, cs = gap ++ rest ∧ Gap gap ∧
    (rest = [] ∨ OpenComment rest ∨ ∃ c tail, rest = c :: tail ∧ StartsToken c tail) := by
  induction hn : cs.length using Nat.strong_induction_on generalizing cs with
  | _ n ih =>
    cases cs with
    | nil => exact ⟨[], [], rfl, .nil, .inl rfl⟩
    | cons c tail =>
      subst hn
      by_cases hc : Token.isGap c = true
      · obtain ⟨gap, rest, rfl, hgap, hrest⟩ := ih tail.length (by simp) tail rfl
        exact ⟨c :: gap, rest, rfl, .blank hc hgap, hrest⟩
      · by_cases hcomment : c = '/' ∧ tail.head? = some '/'
        · obtain ⟨rfl, hhead⟩ := hcomment
          obtain ⟨text, rfl⟩ := List.head?_eq_some_iff.mp hhead
          rcases line_cases text with hbody | ⟨body, more, hbody, rfl⟩
          · exact ⟨[], _, rfl, .nil, .inr (.inl ⟨text, hbody, rfl⟩)⟩
          · obtain ⟨gap, rest, rfl, hgap, hrest⟩ := ih more.length (by simp; omega) more rfl
            exact ⟨_, rest, by simp, .comment hbody hgap, hrest⟩
        · refine ⟨[], c :: tail, rfl, .nil, .inr (.inr ⟨c, tail, rfl, ?_, hcomment⟩)⟩
          simpa using hc

namespace Token

/-! ## The rules of reading -/

theorem ofChars_nil (afterValue : Bool) (p : Position) :
    ofChars afterValue p [] = .ok [⟨.endOfInput, "", p⟩] := by
  rw [ofChars]

theorem ofChars_blank {c : Char} (hc : isGap c = true) (afterValue : Bool) (p : Position)
    (rest : List Char) :
    ofChars afterValue p (c :: rest) = ofChars afterValue (p.next c) rest := by
  rw [ofChars, if_pos hc]

theorem ofChars_comment (afterValue : Bool) (p : Position) (text : List Char) :
    ofChars afterValue p ('/' :: '/' :: text) =
      ofChars afterValue (p.advance ('/' :: '/' :: text.takeWhile (· ≠ '\n')))
        (text.dropWhile (· ≠ '\n')) := by
  rw [ofChars, if_neg (by decide), if_pos (by simp)]
  simp [Position.advance_cons]

/-- A gap is skipped. -/
theorem ofChars_gap {gap : List Char} (hgap : Gap gap) (afterValue : Bool) (p : Position)
    (rest : List Char) :
    ofChars afterValue p (gap ++ rest) = ofChars afterValue (p.advance gap) rest := by
  induction hgap generalizing p with
  | nil => rfl
  | blank hc _ ih => rw [List.cons_append, ofChars_blank hc, ih, Position.advance_cons]
  | @comment body gap hbody _ ih =>
    have htake : (body ++ '\n' :: (gap ++ rest)).takeWhile (· ≠ '\n') = body :=
      takeWhile_append_of_stopsAt (by simpa using hbody) (by simp)
    have hdrop : (body ++ '\n' :: (gap ++ rest)).dropWhile (· ≠ '\n') = '\n' :: (gap ++ rest) := by
      rw [List.dropWhile_append_of_pos (by simpa using hbody)]
      simp
    rw [List.cons_append, List.cons_append, List.append_assoc, List.cons_append, ofChars_comment,
      htake, hdrop, ofChars_blank (by decide), ih]
    simp [Position.advance_append, Position.advance_cons]

/-- A comment that no line feed ends is skipped up to the end of the text. -/
theorem ofChars_openComment {cs : List Char} (h : OpenComment cs) (afterValue : Bool)
    (p : Position) : ofChars afterValue p cs = .ok [⟨.endOfInput, "", p.advance cs⟩] := by
  obtain ⟨body, hbody, rfl⟩ := h
  have htake : body.takeWhile (· ≠ '\n') = body := by
    rw [List.takeWhile_eq_self_iff]
    simpa using hbody
  have hdrop : body.dropWhile (· ≠ '\n') = [] := by
    rw [List.dropWhile_eq_nil_iff]
    simpa using hbody
  rw [ofChars_comment, htake, hdrop, ofChars_nil]

/-- A token is taken where a lexeme is read. -/
theorem ofChars_lexeme {afterValue : Bool} {c : Char} {body rest : List Char} {l : Lexeme}
    (hstart : StartsToken c (body ++ rest))
    (hscan : Lexeme.scan? afterValue c (body ++ rest) = some (l, body.length + 1)) (p : Position) :
    ofChars afterValue p (c :: (body ++ rest)) = (⟨l, String.ofList (c :: body), p⟩ :: ·) <$>
      ofChars l.endsValue (p.advance (c :: body)) rest := by
  rw [ofChars, if_neg (by simp [hstart.1]), if_neg hstart.2, hscan]
  simp only [Nat.add_sub_cancel, List.take_left, List.drop_left]
  cases ofChars l.endsValue (p.advance (c :: body)) rest <;> rfl

/-- Where no lexeme is read, reading fails. -/
theorem ofChars_error {afterValue : Bool} {c : Char} {rest : List Char}
    (hstart : StartsToken c rest) (hscan : Lexeme.scan? afterValue c rest = none) (p : Position) :
    ofChars afterValue p (c :: rest) = .error ⟨excerpt (c :: rest), p⟩ := by
  rw [ofChars, if_neg (by simp [hstart.1]), if_neg hstart.2, hscan]

end Token

end Workflow
