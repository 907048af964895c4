import Mathlib.Tactic.SplitIfs
import Workflow.Text.Quoted
import Workflow.Token.Scan

/-!
# String literals

One rule for each way in which a character is written between quotes. A string literal is read
again in front of every text, and a quoted string is read as the string it quotes.
-/

namespace Workflow.Lexeme

/-- What is read of a string literal, with one more character in front that took some characters of
the text. -/
def withChar (char : Char) (taken : Nat) (found : Option (List Char × Nat)) :
    Option (List Char × Nat) :=
  found.map fun (chars, width) => (char :: chars, width + taken)

theorem stringBody?_quote (rest : List Char) : stringBody? ('"' :: rest) = some ([], 1) := by
  rw [stringBody?.eq_def]
  rfl

theorem stringBody?_plain {c : Char} (hq : c ≠ '"') (hn : c ≠ '\n') (hb : c ≠ '\\')
    (rest : List Char) : stringBody? (c :: rest) = withChar c 1 (stringBody? rest) := by
  rw [stringBody?.eq_def]
  simp only [hq, hn, hb, if_false]
  cases stringBody? rest <;> rfl

theorem stringBody?_escape {e char : Char} (he : e ≠ 'u') (hc : simpleEscape? e = some char)
    (rest : List Char) :
    stringBody? ('\\' :: e :: rest) = withChar char 2 (stringBody? rest) := by
  rw [stringBody?.eq_def]
  simp [he, hc]
  cases stringBody? rest <;> rfl

theorem stringBody?_unit {h₁ h₂ h₃ h₄ char : Char} {unit : Nat}
    (hu : Text.hexValue4? h₁ h₂ h₃ h₄ = some unit) (hs : isHighSurrogate unit = false)
    (hc : charOf? unit = some char) (rest : List Char) :
    stringBody? ('\\' :: 'u' :: h₁ :: h₂ :: h₃ :: h₄ :: rest) =
      withChar char 6 (stringBody? rest) := by
  rw [stringBody?.eq_def]
  simp [hu, hs, hc]
  cases stringBody? rest <;> rfl

theorem stringBody?_pair {h₁ h₂ h₃ h₄ l₁ l₂ l₃ l₄ char : Char} {high low : Nat}
    (hh : Text.hexValue4? h₁ h₂ h₃ h₄ = some high) (hs : isHighSurrogate high = true)
    (hl : Text.hexValue4? l₁ l₂ l₃ l₄ = some low) (hc : pairOf? high low = some char)
    (rest : List Char) :
    stringBody? ('\\' :: 'u' :: h₁ :: h₂ :: h₃ :: h₄ :: '\\' :: 'u' :: l₁ :: l₂ :: l₃ :: l₄ ::
      rest) = withChar char 12 (stringBody? rest) := by
  rw [stringBody?.eq_def]
  simp [hh, hs, hl, hc]
  cases stringBody? rest <;> rfl

/-- One more character in front keeps the property that a string literal is read again. -/
theorem split_withChar (front : List Char) {rest chars : List Char} {char : Char} {width : Nat}
    (hfront : ∀ more, stringBody? (front ++ more) = withChar char front.length (stringBody? more))
    (hrest : ∀ found k, stringBody? rest = some (found, k) → ∃ body tail, rest = body ++ tail ∧
      body.length = k ∧ ∀ more, stringBody? (body ++ more) = some (found, k))
    (h : withChar char front.length (stringBody? rest) = some (chars, width)) :
    ∃ body tail, front ++ rest = body ++ tail ∧ body.length = width ∧
      ∀ more, stringBody? (body ++ more) = some (chars, width) := by
  obtain ⟨⟨found, k⟩, hfound, hsome⟩ := Option.map_eq_some_iff.mp h
  obtain ⟨body, tail, rfl, hk, hbody⟩ := hrest found k hfound
  cases hsome
  refine ⟨front ++ body, tail, by simp, by simp [hk]; omega, fun more => ?_⟩
  rw [List.append_assoc, hfront, hbody]
  rfl

/-- The body of a string literal is read again in front of every text. -/
theorem stringBody?_split {cs chars : List Char} {width : Nat}
    (h : stringBody? cs = some (chars, width)) :
    ∃ body tail, cs = body ++ tail ∧ body.length = width ∧
      ∀ more, stringBody? (body ++ more) = some (chars, width) := by
  fun_induction stringBody? cs generalizing chars width with
  | case2 rest =>
    cases h
    exact ⟨['"'], rest, rfl, rfl, stringBody?_quote⟩
  | case6 h₁ h₂ h₃ h₄ unit hunit hhigh b u l₁ l₂ l₃ l₄ rest hbu _ _ ih =>
    obtain ⟨rfl, rfl⟩ := hbu
    simp only [Option.bind_eq_bind, Option.bind_eq_some_iff] at h
    obtain ⟨low, hlow, char, hchar, ⟨found, k⟩, hrest, hpure⟩ := h
    refine split_withChar ['\\', 'u', h₁, h₂, h₃, h₄, '\\', 'u', l₁, l₂, l₃, l₄]
      (stringBody?_pair hunit hhigh hlow hchar) (fun _ _ => ih) ?_
    rw [hrest]
    exact hpure
  | case9 h₁ h₂ h₃ h₄ rest unit hunit hhigh _ _ ih =>
    simp only [Option.bind_eq_bind, Option.bind_eq_some_iff] at h
    obtain ⟨char, hchar, ⟨found, k⟩, hrest, hpure⟩ := h
    refine split_withChar ['\\', 'u', h₁, h₂, h₃, h₄]
      (stringBody?_unit hunit (by simpa using hhigh) hchar) (fun _ _ => ih) ?_
    rw [hrest]
    exact hpure
  | case11 e rest he _ _ ih =>
    simp only [Option.bind_eq_bind, Option.bind_eq_some_iff] at h
    obtain ⟨char, hchar, ⟨found, k⟩, hrest, hpure⟩ := h
    refine split_withChar ['\\', e] (stringBody?_escape he hchar) (fun _ _ => ih) ?_
    rw [hrest]
    exact hpure
  | case12 c rest hq hn hb ih =>
    simp only [Option.bind_eq_bind, Option.bind_eq_some_iff] at h
    obtain ⟨⟨found, k⟩, hrest, hpure⟩ := h
    refine split_withChar [c] (stringBody?_plain hq hn hb) (fun _ _ => ih) ?_
    rw [hrest]
    exact hpure
  | _ => simp at h

theorem hexValue4?_hexDigits {n : Nat} (h : n < 0x20) :
    ∃ h₁ h₂ h₃ h₄, Text.hexDigits .lower 4 n = [h₁, h₂, h₃, h₄] ∧
      Text.hexValue4? h₁ h₂ h₃ h₄ = some n := by
  refine ⟨_, _, _, _, rfl, ?_⟩
  revert n
  decide

/-- The three ways in which a character is written between quotes: behind a backslash, by its
number, or as it is. -/
def Escaped (c : Char) (text : List Char) : Prop :=
  (∃ e, e ≠ 'u' ∧ simpleEscape? e = some c ∧ text = ['\\', e]) ∨
  (c.toNat < 0x20 ∧ text = '\\' :: 'u' :: Text.hexDigits .lower 4 c.toNat) ∨
  (c ≠ '"' ∧ c ≠ '\n' ∧ c ≠ '\\' ∧ text = [c])

theorem escaped_ite {c k e : Char} {text : List Char} (hu : e ≠ 'u')
    (he : simpleEscape? e = some k) (h : c ≠ k → Escaped c text) :
    Escaped c (if c = k then ['\\', e] else text) := by
  split
  · rename_i hc
    rw [← hc] at he
    exact .inl ⟨e, hu, he, rfl⟩
  · rename_i hc
    exact h hc

theorem escaped_escape (c : Char) : Escaped c (Text.escape c) := by
  rw [Text.escape]
  refine escaped_ite (by decide) rfl fun hquote => ?_
  refine escaped_ite (by decide) rfl fun hbackslash => ?_
  refine escaped_ite (by decide) rfl fun _ => ?_
  refine escaped_ite (by decide) rfl fun _ => ?_
  refine escaped_ite (by decide) rfl fun hbreak => ?_
  refine escaped_ite (by decide) rfl fun _ => ?_
  refine escaped_ite (by decide) rfl fun _ => ?_
  split
  · rename_i hlow
    exact .inr (.inl ⟨hlow, rfl⟩)
  · exact .inr (.inr ⟨hquote, hbreak, hbackslash, rfl⟩)

theorem charOf?_toNat (c : Char) : charOf? c.toNat = some c := by
  have hvalid : c.toNat.isValidChar := c.valid
  rw [charOf?, if_pos hvalid, Char.ofNat_toNat]

/-- The escaped form of a character is read as that character. -/
theorem stringBody?_escape_append (c : Char) (rest : List Char) :
    stringBody? (Text.escape c ++ rest) =
      withChar c (Text.escape c).length (stringBody? rest) := by
  rcases escaped_escape c with ⟨e, he, hc, hescape⟩ | ⟨hlow, hescape⟩ | ⟨hq, hn, hb, hescape⟩
  · rw [hescape]
    exact stringBody?_escape he hc rest
  · obtain ⟨h₁, h₂, h₃, h₄, hdigits, hvalue⟩ := hexValue4?_hexDigits hlow
    have hhigh : isHighSurrogate c.toNat = false := by
      simp only [isHighSurrogate, Bool.and_eq_false_iff, decide_eq_false_iff_not]
      omega
    rw [hescape, hdigits]
    exact stringBody?_unit hvalue hhigh (charOf?_toNat c) rest
  · rw [hescape]
    exact stringBody?_plain hq hn hb rest

/-- A quoted string is read as the string it quotes, in front of every text. -/
theorem stringBody?_quoted (cs rest : List Char) :
    stringBody? (cs.flatMap Text.escape ++ '"' :: rest) =
      some (cs, (cs.flatMap Text.escape).length + 1) := by
  induction cs with
  | nil => exact stringBody?_quote rest
  | cons c cs ih =>
    rw [List.flatMap_cons, List.append_assoc, stringBody?_escape_append, ih, withChar]
    simp
    omega

end Workflow.Lexeme
