import Workflow.Proofs.Token.Numeral
import Workflow.Proofs.Token.Quoted

/-!
# Lexemes and their images

A lexeme takes some characters from the start of a text, its image. The image alone decides the
lexeme: it is read in the same way in front of every text whose first character could not belong
to it, and also where no value has just ended.
-/

namespace Workflow.Lexeme

/-- Whether a character behind a lexeme could belong to it, so that another lexeme or a comment
would be read. -/
def continuesWith : Lexeme → Char → Bool
  | .identifier _, c => Text.isWordChar c
  | .keyword _, c => Text.isWordChar c
  | .number _, c => Numeral.mayExtend c
  | .symbol .assign, c => c = '='
  | .symbol .lt, c => c = '='
  | .symbol .gt, c => c = '='
  | .symbol .minus, c => Decimal.isDigit c
  | .symbol .slash, c => c = '/'
  | _, _ => false

/-- Characters that end every lexeme in front of them. -/
def delimiters : List Char :=
  [' ', '\t', '\r', '\n', ',', ':', '(', ')', '[', ']', '{', '}']

theorem continuesWith_of_mem_delimiters {c : Char} (hc : c ∈ delimiters) (l : Lexeme) :
    l.continuesWith c = false := by
  have hclass : ∀ c ∈ delimiters, Text.isWordChar c = false ∧ Numeral.mayExtend c = false ∧
      Decimal.isDigit c = false ∧ c ≠ '=' ∧ c ≠ '/' :=
    List.all_iff_forall_prop.mp (by decide)
  obtain ⟨hword, hnumeral, hdigit, hassign, hslash⟩ := hclass c hc
  unfold continuesWith
  split
  all_goals simp [hword, hnumeral, hdigit, hassign, hslash]

/-! ## Expression literals -/

theorem expressionBody?_append {inner : List Char} (h : ∀ c ∈ inner, c ≠ '}') (rest : List Char) :
    expressionBody? (inner ++ '}' :: rest) = some (inner, inner.length + 1) := by
  have htake : (inner ++ '}' :: rest).takeWhile (· ≠ '}') = inner :=
    takeWhile_append_of_stopsAt (by simpa using h) (by simp)
  simp only [expressionBody?, htake, List.length_append, List.length_cons]
  rw [if_pos (by omega)]

/-- An expression literal ends at its first closing brace. -/
theorem expressionBody?_split {cs inner : List Char} {width : Nat}
    (h : expressionBody? cs = some (inner, width)) :
    (∀ c ∈ inner, c ≠ '}') ∧ width = inner.length + 1 ∧ ∃ tail, cs = inner ++ '}' :: tail := by
  simp only [expressionBody?] at h
  split at h
  · next hlt =>
    cases h
    refine ⟨fun c hc => by simpa using List.mem_takeWhile_imp hc, rfl, ?_⟩
    have hsplit := List.takeWhile_append_dropWhile (p := fun c => decide (c ≠ '}')) (l := cs)
    have hstop := stopsAt_dropWhile (fun c => decide (c ≠ '}')) cs
    cases hrest : cs.dropWhile (fun c => decide (c ≠ '}')) with
    | nil =>
      rw [hrest, List.append_nil] at hsplit
      rw [hsplit] at hlt
      exact absurd hlt (Nat.lt_irrefl _)
    | cons d tail =>
      rw [hrest] at hsplit hstop
      obtain rfl : d = '}' := by simpa using hstop
      exact ⟨tail, hsplit.symm⟩
  · cases h

/-! ## Classes of characters -/

theorem isDigit_eq_false_of_isWordStart {c : Char} (h : Text.isWordStart c = true) :
    Decimal.isDigit c = false := by
  simp only [Text.isWordStart, Bool.or_eq_true, Bool.and_eq_true, decide_eq_true_eq,
    Char.le_def, UInt32.le_iff_toNat_le] at h
  simp only [Decimal.isDigit, Bool.and_eq_false_iff, decide_eq_false_iff_not, Char.le_def,
    UInt32.le_iff_toNat_le]
  have h0 : ('0' : Char).val.toNat = 48 := rfl
  have h9 : ('9' : Char).val.toNat = 57 := rfl
  have ha : ('a' : Char).val.toNat = 97 := rfl
  have hA : ('A' : Char).val.toNat = 65 := rfl
  rcases h with (h | h) | rfl
  · omega
  · omega
  · exact .inr (by decide)

/-- The characters that are signs. -/
def symbolChars : List Char :=
  ['=', '<', '>', '+', '-', '*', '/', '%', '(', ')', '[', ']', '{', '}', ',', '.', ':']

theorem mem_symbolChars_of_singleSymbol? {c : Char} {s : Symbol} (h : singleSymbol? c = some s) :
    c ∈ symbolChars := by
  by_cases hc : c ∈ symbolChars
  · exact hc
  · simp only [symbolChars, List.mem_cons, List.not_mem_nil, or_false, not_or] at hc
    simp [singleSymbol?, hc] at h

theorem class_of_mem_symbolChars : ∀ c ∈ symbolChars, c ≠ '"' ∧ c ≠ '$' ∧
    Decimal.isDigit c = false ∧ Text.isWordStart c = false :=
  List.all_iff_forall_prop.mp (by decide)

theorem doubleSymbol?_class {c d : Char} {s : Symbol} (h : doubleSymbol? c d = some s) :
    d = '=' ∧ c ≠ '-' ∧ c ≠ '"' ∧ c ≠ '$' ∧ Decimal.isDigit c = false ∧
      Text.isWordStart c = false := by
  unfold doubleSymbol? at h
  split_ifs at h with hd h₁ h₂ h₃ h₄ <;> subst c <;>
    exact ⟨hd, by decide, by decide, by decide, rfl, rfl⟩

/-! ## The rules of the scan -/

theorem scan?_string (afterValue : Bool) (rest : List Char) :
    scan? afterValue '"' rest =
      (stringBody? rest).map fun (chars, width) => (.string (String.ofList chars), width + 1) := by
  simp [scan?]

theorem scan?_expression (afterValue : Bool) (rest : List Char) :
    scan? afterValue '$' ('{' :: rest) = (expressionBody? rest).map fun (chars, width) =>
      (.expression (String.ofList chars), width + 2) := by
  simp [scan?]

theorem scan?_numeral {afterValue : Bool} {c : Char} {rest : List Char}
    (h : startsNumeral afterValue c rest = true) :
    scan? afterValue c rest = (Numeral.scan (c :: rest)).number?.map fun n =>
      (.number n, (Numeral.scan (c :: rest)).chars.length) := by
  have hq : c ≠ '"' := by
    rintro rfl
    simp [startsNumeral, Decimal.isDigit] at h
  have hd : c ≠ '$' := by
    rintro rfl
    simp [startsNumeral, Decimal.isDigit] at h
  simp [scan?, hq, hd, h]

theorem scan?_word {c : Char} (h : Text.isWordStart c = true) (afterValue : Bool)
    (rest : List Char) :
    scan? afterValue c rest = some (ofWord (String.ofList (c :: rest.takeWhile Text.isWordChar)),
      (rest.takeWhile Text.isWordChar).length + 1) := by
  have hdigit := isDigit_eq_false_of_isWordStart h
  have hq : c ≠ '"' := by
    rintro rfl
    exact absurd h (by decide)
  have hd : c ≠ '$' := by
    rintro rfl
    exact absurd h (by decide)
  have hm : c ≠ '-' := by
    rintro rfl
    exact absurd h (by decide)
  simp [scan?, hq, hd, startsNumeral, hdigit, hm, h]

theorem scan?_symbol {afterValue : Bool} {c : Char} {rest : List Char}
    (hc : c ≠ '"' ∧ c ≠ '$' ∧ Decimal.isDigit c = false ∧ Text.isWordStart c = false)
    (hm : startsNumeral afterValue c rest = false) :
    scan? afterValue c rest = scanSymbol? c rest := by
  obtain ⟨hq, hd, -, hw⟩ := hc
  simp [scan?, hq, hd, hm, hw]

/-- What a scan can read: a string, an expression literal, a numeral, a word or a sign. -/
theorem scan?_cases {afterValue : Bool} {c : Char} {rest : List Char} {l : Lexeme} {width : Nat}
    (h : scan? afterValue c rest = some (l, width)) :
    (c = '"' ∧ ∃ chars k, stringBody? rest = some (chars, k) ∧
      l = .string (String.ofList chars) ∧ width = k + 1) ∨
    (c = '$' ∧ ∃ inner k tail, rest = '{' :: tail ∧ expressionBody? tail = some (inner, k) ∧
      l = .expression (String.ofList inner) ∧ width = k + 2) ∨
    (startsNumeral afterValue c rest = true ∧ ∃ n, (Numeral.scan (c :: rest)).number? = some n ∧
      l = .number n ∧ width = (Numeral.scan (c :: rest)).chars.length) ∨
    (Text.isWordStart c = true ∧
      l = ofWord (String.ofList (c :: rest.takeWhile Text.isWordChar)) ∧
      width = (rest.takeWhile Text.isWordChar).length + 1) ∨
    (startsNumeral afterValue c rest = false ∧ scanSymbol? c rest = some (l, width)) := by
  unfold scan? at h
  split_ifs at h with hq hd hn hw
  · obtain ⟨⟨chars, k⟩, hbody, hsome⟩ := Option.map_eq_some_iff.mp h
    cases hsome
    exact .inl ⟨hq, chars, k, hbody, rfl, rfl⟩
  · obtain ⟨hd, hbrace⟩ := hd
    obtain ⟨tail, rfl⟩ := List.head?_eq_some_iff.mp hbrace
    obtain ⟨⟨inner, k⟩, hbody, hsome⟩ := Option.map_eq_some_iff.mp h
    cases hsome
    exact .inr (.inl ⟨hd, inner, k, tail, rfl, hbody, rfl, rfl⟩)
  · obtain ⟨n, hnumber, hsome⟩ := Option.map_eq_some_iff.mp h
    cases hsome
    exact .inr (.inr (.inl ⟨hn, n, hnumber, rfl, rfl⟩))
  · cases h
    exact .inr (.inr (.inr (.inl ⟨hw, rfl, rfl⟩)))
  · exact .inr (.inr (.inr (.inr ⟨by simpa using hn, h⟩)))

/-- What a sign can be: two characters with `=` behind, or one character. -/
theorem scanSymbol?_cases {c : Char} {rest : List Char} {l : Lexeme} {width : Nat}
    (h : scanSymbol? c rest = some (l, width)) :
    (∃ s tail, rest = '=' :: tail ∧ doubleSymbol? c '=' = some s ∧ l = .symbol s ∧ width = 2) ∨
    (∃ s, singleSymbol? c = some s ∧ l = .symbol s ∧ width = 1) := by
  unfold scanSymbol? at h
  split at h
  · next s hs =>
    obtain ⟨d, hd, hdouble⟩ := Option.bind_eq_some_iff.mp hs
    obtain ⟨tail, rfl⟩ := List.head?_eq_some_iff.mp hd
    obtain rfl := (doubleSymbol?_class hdouble).1
    cases h
    exact .inl ⟨s, tail, rfl, hdouble, rfl, rfl⟩
  · obtain ⟨s, hs, hsome⟩ := Option.map_eq_some_iff.mp h
    cases hsome
    exact .inr ⟨s, hs, rfl, rfl⟩

/-! ## Images alone decide -/

theorem continuesWith_ofWord (word : String) : (ofWord word).continuesWith = Text.isWordChar := by
  unfold ofWord
  split <;> rfl

/-- Where a numeral starts, a regular one is read, and its sign stands behind no value. -/
theorem startsNumeral_spec {afterValue : Bool} {c : Char} {rest : List Char}
    (h : startsNumeral afterValue c rest = true) :
    (Numeral.scan (c :: rest)).Regular ∧ (Numeral.scan (c :: rest)).chars <+: c :: rest ∧
      ((Numeral.scan (c :: rest)).isNegative = true → afterValue = false) := by
  simp only [startsNumeral, Bool.or_eq_true, Bool.and_eq_true, decide_eq_true_eq,
    Bool.not_eq_true'] at h
  rcases h with hd | ⟨⟨rfl, hd⟩, hav⟩
  · obtain ⟨hr, hn, hp⟩ := Numeral.scan_digit_spec hd rest
    exact ⟨hr, hp, by simp [hn]⟩
  · cases rest with
    | nil => simp at hd
    | cons d rest =>
      obtain ⟨hr, hp⟩ := Numeral.scan_minus_spec (by simpa using hd) rest
      exact ⟨hr, hp, fun _ => hav⟩

/-- A numeral starts at the characters of a regular one. -/
theorem startsNumeral_of_regular {n : Numeral} (hn : n.Regular) {c : Char} {body : List Char}
    (hc : n.chars = c :: body) {afterValue : Bool} (hs : n.isNegative = true → afterValue = false)
    (more : List Char) : startsNumeral afterValue c (body ++ more) = true := by
  obtain ⟨d, ds, hd⟩ := List.exists_cons_of_ne_nil hn.whole.ne_nil
  have hdigit : Decimal.isDigit d = true := hn.whole.isDigit d (by simp [hd])
  rw [Numeral.chars_eq, hd] at hc
  cases hneg : n.isNegative with
  | false =>
    simp only [hneg, Bool.false_eq_true, if_false, List.nil_append, List.cons_append,
      List.cons.injEq] at hc
    simp [startsNumeral, ← hc.1, hdigit]
  | true =>
    simp only [hneg, if_true, List.cons_append, List.nil_append, List.cons.injEq] at hc
    simp [startsNumeral, ← hc.1, ← hc.2, hdigit, hs hneg]

theorem image_numeral {afterValue : Bool} {c : Char} {rest : List Char} {n : Number}
    (hstart : startsNumeral afterValue c rest = true)
    (hn : (Numeral.scan (c :: rest)).number? = some n) :
    ∃ body tail, rest = body ++ tail ∧ (Numeral.scan (c :: rest)).chars.length = body.length + 1 ∧
      ∀ more afterValue', (afterValue' = true → afterValue = true) →
        StopsAt Numeral.mayExtend more →
        scan? afterValue' c (body ++ more) = some (.number n, body.length + 1) := by
  obtain ⟨hregular, ⟨tail, htail⟩, hsign⟩ := startsNumeral_spec hstart
  generalize Numeral.scan (c :: rest) = numeral at hn hregular htail hsign ⊢
  obtain ⟨d, body, hbody⟩ := List.exists_cons_of_ne_nil hregular.chars_ne_nil
  rw [hbody, List.cons_append, List.cons.injEq] at htail
  obtain ⟨rfl, htail⟩ := htail
  refine ⟨body, tail, htail.symm, by simp [hbody], fun more afterValue' hav hmore => ?_⟩
  have hstart' : startsNumeral afterValue' d (body ++ more) = true := by
    refine startsNumeral_of_regular hregular hbody (fun hneg => ?_) more
    cases afterValue' with
    | false => rfl
    | true => rw [hav rfl] at hsign; exact hsign hneg
  have hscan : Numeral.scan (d :: (body ++ more)) = numeral := by
    rw [← List.cons_append, ← hbody]
    exact Numeral.scan_chars_append hregular hmore
  rw [scan?_numeral hstart', hscan, hn, hbody]
  rfl

/-- A sign of one character that `=` behind it would turn into another sign. -/
theorem continuesWith_of_doubleSymbol? {c : Char} {s t : Symbol} (hs : singleSymbol? c = some s)
    (ht : doubleSymbol? c '=' = some t) : (Lexeme.symbol s).continuesWith '=' = true := by
  unfold doubleSymbol? at ht
  split_ifs at ht with _ h₁ h₂ h₃ h₄ <;> subst c <;> cases hs <;> rfl

theorem image_symbol {c : Char} {rest : List Char} {l : Lexeme} {width : Nat}
    (h : scanSymbol? c rest = some (l, width)) :
    ∃ body tail, rest = body ++ tail ∧ width = body.length + 1 ∧
      ∀ more afterValue, StopsAt l.continuesWith more →
        scan? afterValue c (body ++ more) = some (l, width) := by
  rcases scanSymbol?_cases h with ⟨s, tail, rfl, hs, rfl, rfl⟩ | ⟨s, hs, rfl, rfl⟩
  · refine ⟨['='], tail, rfl, rfl, fun more afterValue _ => ?_⟩
    obtain ⟨-, hm, hclass⟩ := doubleSymbol?_class hs
    rw [scan?_symbol hclass (by simp [startsNumeral, hclass, hm])]
    simp [scanSymbol?, hs]
  · refine ⟨[], rest, rfl, rfl, fun more afterValue hmore => ?_⟩
    have hclass := class_of_mem_symbolChars c (mem_symbolChars_of_singleSymbol? hs)
    have hdouble : more.head?.bind (doubleSymbol? c) = none := by
      cases more with
      | nil => rfl
      | cons d more =>
        cases ht : doubleSymbol? c d with
        | none => exact ht
        | some t =>
          obtain rfl := (doubleSymbol?_class ht).1
          rw [stopsAt_cons, continuesWith_of_doubleSymbol? hs ht] at hmore
          cases hmore
    have hminus : startsNumeral afterValue c more = false := by
      by_cases hc : c = '-'
      · subst hc
        cases hs
        cases more with
        | nil => rfl
        | cons d more =>
          have hd : Decimal.isDigit d = false := stopsAt_cons.mp hmore
          have hsign : Decimal.isDigit '-' = false := rfl
          simp [startsNumeral, hsign, hd]
      · simp [startsNumeral, hclass, hc]
    rw [List.nil_append, scan?_symbol hclass hminus, scanSymbol?, hdouble]
    simp [hs]

/-- The characters that a lexeme takes decide it: in front of a text that could not belong to it
they are read in the same way, and also where no value has just ended. -/
theorem scan?_image {afterValue : Bool} {c : Char} {rest : List Char} {l : Lexeme} {width : Nat}
    (h : scan? afterValue c rest = some (l, width)) :
    ∃ body tail, rest = body ++ tail ∧ width = body.length + 1 ∧
      ∀ more afterValue', (afterValue' = true → afterValue = true) →
        StopsAt l.continuesWith more → scan? afterValue' c (body ++ more) = some (l, width) := by
  rcases scan?_cases h with ⟨rfl, chars, k, hbody, rfl, rfl⟩ |
    ⟨rfl, inner, k, tail, rfl, hbody, rfl, rfl⟩ | ⟨hstart, n, hn, rfl, rfl⟩ | ⟨hword, rfl, rfl⟩ |
    ⟨-, hsymbol⟩
  · obtain ⟨body, tail, rfl, rfl, hagain⟩ := stringBody?_split hbody
    exact ⟨body, tail, rfl, rfl, fun more _ _ _ => by rw [scan?_string, hagain]; rfl⟩
  · obtain ⟨hinner, rfl, tail, rfl⟩ := expressionBody?_split hbody
    refine ⟨'{' :: (inner ++ ['}']), tail, by simp, by simp, fun more _ _ _ => ?_⟩
    rw [List.cons_append, List.append_assoc, List.singleton_append, scan?_expression,
      expressionBody?_append hinner]
    rfl
  · obtain ⟨body, tail, rfl, hlength, hagain⟩ := image_numeral hstart hn
    refine ⟨body, tail, rfl, hlength, fun more afterValue' hav hmore => ?_⟩
    rw [hagain more afterValue' hav hmore, hlength]
  · refine ⟨_, _, List.takeWhile_append_dropWhile.symm, rfl, fun more _ _ hmore => ?_⟩
    rw [continuesWith_ofWord] at hmore
    rw [scan?_word hword, takeWhile_append_of_stopsAt (fun d hd => List.mem_takeWhile_imp hd) hmore]
  · obtain ⟨body, tail, rfl, hlength, hagain⟩ := image_symbol hsymbol
    exact ⟨body, tail, rfl, hlength, fun more afterValue' _ hmore => hagain more afterValue' hmore⟩

end Workflow.Lexeme
