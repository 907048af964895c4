import Workflow.Proofs.Token.Quotation

/-!
# Strings written by their code units

A string literal may write its characters by numbers of four hexadecimal digits. The numbers are the
code units of UTF-16: one for a character of the first plane, and a pair of surrogates for every
other character. The encoding is stated apart from the function that reads a literal. A literal is
read exactly if its surrogates stand in pairs, and then as the string whose code units it writes.
-/

namespace Workflow

namespace Text

/-- The hexadecimal digits with capital letters, in the order of their values. -/
def upperHexDigits : List Char := "0123456789ABCDEF".toList

/-- A character is the hexadecimal digit with a value, in either case. -/
def WritesDigit (value : Nat) (c : Char) : Prop :=
  lowerHexDigits[value]? = some c ∨ upperHexDigits[value]? = some c

/-- A code unit is written behind a backslash and a `u`, by four digits. -/
inductive WritesUnit (unit : UInt16) : List Char → Prop where
  | digits {a b c d : Char} (ha : WritesDigit (unit.toNat / 4096) a)
      (hb : WritesDigit (unit.toNat / 256 % 16) b) (hc : WritesDigit (unit.toNat / 16 % 16) c)
      (hd : WritesDigit (unit.toNat % 16) d) : WritesUnit unit ['\\', 'u', a, b, c, d]

/-- A text writes code units between double quotes, each by its number. -/
def WritesUnits (units : List UInt16) (text : String) : Prop :=
  ∃ written, List.Forall₂ WritesUnit units written ∧
    text.toList = '"' :: (written.flatten ++ ['"'])

/-- The code units of a character. -/
def codeUnits (c : Char) : List UInt16 :=
  if c.toNat < 0x10000 then [.ofNat c.toNat]
  else [.ofNat (0xD800 + (c.toNat - 0x10000) / 0x400), .ofNat (0xDC00 + (c.toNat - 0x10000) % 0x400)]

/-- A code unit is the first of a pair of surrogates. -/
def IsHigh (unit : UInt16) : Prop := 0xD800 ≤ unit.toNat ∧ unit.toNat ≤ 0xDBFF

/-- A code unit is the second of a pair of surrogates. -/
def IsLow (unit : UInt16) : Prop := 0xDC00 ≤ unit.toNat ∧ unit.toNat ≤ 0xDFFF

/-- Code units in which surrogates stand in pairs only, the high one first. -/
inductive Paired : List UInt16 → Prop where
  | nil : Paired []
  | single {unit : UInt16} {rest : List UInt16} (hhigh : ¬ IsHigh unit) (hlow : ¬ IsLow unit)
      (hrest : Paired rest) : Paired (unit :: rest)
  | pair {high low : UInt16} {rest : List UInt16} (hhigh : IsHigh high) (hlow : IsLow low)
      (hrest : Paired rest) : Paired (high :: low :: rest)

/-! ## Code units and characters -/

/-- A character has one code unit, which is no surrogate, or two, which are a pair of them. -/
theorem codeUnits_cases (c : Char) :
    (∃ unit, codeUnits c = [unit] ∧ ¬ IsHigh unit ∧ ¬ IsLow unit ∧ unit.toNat = c.toNat) ∨
    ∃ high low, codeUnits c = [high, low] ∧ IsHigh high ∧ IsLow low ∧
      0x10000 + (high.toNat - 0xD800) * 1024 + (low.toNat - 0xDC00) = c.toNat := by
  have hvalid : c.toNat.isValidChar := c.valid
  simp only [Nat.isValidChar] at hvalid
  unfold codeUnits IsHigh IsLow
  split_ifs with hplane
  · refine .inl ⟨_, rfl, ?_⟩
    rw [UInt16.toNat_ofNat_of_lt' (by simpa [UInt16.size] using hplane)]
    omega
  · refine .inr ⟨_, _, rfl, ?_⟩
    rw [UInt16.toNat_ofNat_of_lt' (by simp only [UInt16.size]; omega),
      UInt16.toNat_ofNat_of_lt' (by simp only [UInt16.size]; omega)]
    omega

/-- A code unit that is no surrogate is a character. -/
theorem exists_codeUnits_single {unit : UInt16} (hhigh : ¬ IsHigh unit) (hlow : ¬ IsLow unit) :
    ∃ c, codeUnits c = [unit] := by
  have hlt : unit.toNat < 65536 := unit.toNat_lt
  have hvalid : unit.toNat.isValidChar := by
    simp only [Nat.isValidChar, IsHigh, IsLow] at hhigh hlow ⊢
    omega
  refine ⟨.ofNatAux unit.toNat hvalid, ?_⟩
  rw [codeUnits, show (Char.ofNatAux unit.toNat hvalid).toNat = unit.toNat from rfl, if_pos hlt,
    UInt16.ofNat_toNat]

/-- Every pair of surrogates is a character. -/
theorem exists_codeUnits_pair {high low : UInt16} (hhigh : IsHigh high) (hlow : IsLow low) :
    ∃ c, codeUnits c = [high, low] := by
  obtain ⟨hhigh, hhigh'⟩ := hhigh
  obtain ⟨hlow, hlow'⟩ := hlow
  generalize hn : 0x10000 + (high.toNat - 0xD800) * 1024 + (low.toNat - 0xDC00) = n
  have hvalid : n.isValidChar := by
    simp only [Nat.isValidChar]
    omega
  refine ⟨.ofNatAux n hvalid, ?_⟩
  rw [codeUnits, show (Char.ofNatAux n hvalid).toNat = n from rfl, if_neg (by omega),
    show 0xD800 + (n - 0x10000) / 0x400 = high.toNat by omega,
    show 0xDC00 + (n - 0x10000) % 0x400 = low.toNat by omega, UInt16.ofNat_toNat,
    UInt16.ofNat_toNat]

theorem paired_codeUnits_append (c : Char) {rest : List UInt16} (h : Paired rest) :
    Paired (codeUnits c ++ rest) := by
  rcases codeUnits_cases c with ⟨unit, heq, hhigh, hlow, -⟩ | ⟨high, low, heq, hhigh, hlow, -⟩
  · rw [heq]
    exact .single hhigh hlow h
  · rw [heq]
    exact .pair hhigh hlow h

/-- Code units are those of a string exactly if their surrogates stand in pairs. -/
theorem paired_iff {units : List UInt16} :
    Paired units ↔ ∃ s : String, s.toList.flatMap codeUnits = units := by
  constructor
  · intro h
    induction h with
    | nil => exact ⟨"", rfl⟩
    | single hhigh hlow _ ih =>
      obtain ⟨s, rfl⟩ := ih
      obtain ⟨c, hc⟩ := exists_codeUnits_single hhigh hlow
      exact ⟨String.ofList (c :: s.toList), by simp [hc]⟩
    | pair hhigh hlow _ ih =>
      obtain ⟨s, rfl⟩ := ih
      obtain ⟨c, hc⟩ := exists_codeUnits_pair hhigh hlow
      exact ⟨String.ofList (c :: s.toList), by simp [hc]⟩
  · rintro ⟨s, rfl⟩
    induction s.toList with
    | nil => exact .nil
    | cons c cs ih => exact paired_codeUnits_append c ih

/-! ## Digits -/

theorem hexValue?_of_writesDigit {value : Nat} {c : Char} (h : WritesDigit value c) :
    hexValue? c = some value := by
  have htable : ∀ value < 16, lowerHexDigits[value]?.bind hexValue? = some value ∧
      upperHexDigits[value]?.bind hexValue? = some value := by decide
  have hlength : lowerHexDigits.length = 16 ∧ upperHexDigits.length = 16 := by decide
  rcases h with h | h
  · have hlt := (List.getElem?_eq_some_iff.mp h).1
    simpa [h] using (htable value (by omega)).1
  · have hlt := (List.getElem?_eq_some_iff.mp h).1
    simpa [h] using (htable value (by omega)).2

/-- The digits of a code unit are read as its number. -/
theorem WritesUnit.exists_digits {unit : UInt16} {text : List Char} (h : WritesUnit unit text) :
    ∃ a b c d, text = ['\\', 'u', a, b, c, d] ∧ hexValue4? a b c d = some unit.toNat := by
  obtain ⟨ha, hb, hc, hd⟩ := h
  refine ⟨_, _, _, _, rfl, ?_⟩
  rw [hexValue4?, hexValue?_of_writesDigit ha, hexValue?_of_writesDigit hb,
    hexValue?_of_writesDigit hc, hexValue?_of_writesDigit hd]
  refine congrArg some ?_
  omega

end Text

/-! ## Reading code units -/

namespace Lexeme

open Text

theorem isHighSurrogate_eq_true {unit : UInt16} (h : IsHigh unit) :
    isHighSurrogate unit.toNat = true := by
  simpa [isHighSurrogate, IsHigh] using h

theorem isHighSurrogate_eq_false {unit : UInt16} (h : ¬ IsHigh unit) :
    isHighSurrogate unit.toNat = false := by
  rw [isHighSurrogate, ← Bool.not_eq_true]
  simpa [IsHigh] using h

/-- The code units of a character are read as that character. -/
theorem stringBody?_codeUnits (c : Char) {written : List (List Char)}
    (h : List.Forall₂ WritesUnit (codeUnits c) written) (rest : List Char) :
    stringBody? (written.flatten ++ rest) =
      withChar c written.flatten.length (stringBody? rest) := by
  rcases codeUnits_cases c with ⟨unit, heq, hhigh, -, hvalue⟩ |
    ⟨high, low, heq, hhigh, hlow, hvalue⟩
  · rw [heq] at h
    obtain ⟨text, written, hunit, hnil, rfl⟩ := List.forall₂_cons_left_iff.mp h
    obtain rfl := List.forall₂_nil_left_iff.mp hnil
    obtain ⟨a, b, c', d, rfl, hdigits⟩ := hunit.exists_digits
    have hchar : charOf? unit.toNat = some c := by rw [hvalue, charOf?_toNat]
    simpa using stringBody?_unit hdigits (isHighSurrogate_eq_false hhigh) hchar rest
  · rw [heq] at h
    obtain ⟨text, written, hfirst, htail, rfl⟩ := List.forall₂_cons_left_iff.mp h
    obtain ⟨text', written, hsecond, hnil, rfl⟩ := List.forall₂_cons_left_iff.mp htail
    obtain rfl := List.forall₂_nil_left_iff.mp hnil
    obtain ⟨a, b, c', d, rfl, hdigits⟩ := hfirst.exists_digits
    obtain ⟨a', b', c'', d', rfl, hdigits'⟩ := hsecond.exists_digits
    have hchar : pairOf? high.toNat low.toNat = some c := by
      rw [pairOf?, if_pos (by simpa [isLowSurrogate, IsLow] using hlow), hvalue, charOf?_toNat]
    simpa using stringBody?_pair hdigits (isHighSurrogate_eq_true hhigh) hdigits' hchar rest

/-- What is related to two lists, one behind the other, is made of two parts. -/
theorem exists_append_of_forall₂ {α β : Type} {R : α → β → Prop} {xs xs' : List α} {ys : List β}
    (h : List.Forall₂ R (xs ++ xs') ys) :
    ∃ front back, List.Forall₂ R xs front ∧ List.Forall₂ R xs' back ∧ ys = front ++ back :=
  ⟨ys.take xs.length, ys.drop xs.length, by simpa using List.forall₂_take xs.length h,
    by simpa using List.forall₂_drop xs.length h, (List.take_append_drop xs.length ys).symm⟩

/-- The code units of a string are read as that string. -/
theorem stringBody?_units (cs : List Char) {written : List (List Char)}
    (h : List.Forall₂ WritesUnit (cs.flatMap codeUnits) written) (rest : List Char) :
    stringBody? (written.flatten ++ '"' :: rest) = some (cs, written.flatten.length + 1) := by
  induction cs generalizing written with
  | nil =>
    obtain rfl := List.forall₂_nil_left_iff.mp h
    exact stringBody?_quote rest
  | cons c cs ih =>
    rw [List.flatMap_cons] at h
    obtain ⟨front, back, hfront, hback, rfl⟩ := exists_append_of_forall₂ h
    rw [List.flatten_append, List.append_assoc, stringBody?_codeUnits c hfront, ih hback, withChar]
    simp only [Option.map_some, List.length_append]
    congr 2
    omega

/-- A low surrogate without a high one in front of it is no character. -/
theorem stringBody?_low {unit : UInt16} {text : List Char} (hunit : WritesUnit unit text)
    (hlow : IsLow unit) (rest : List Char) : stringBody? (text ++ rest) = none := by
  obtain ⟨a, b, c, d, rfl, hdigits⟩ := hunit.exists_digits
  obtain ⟨hle, hle'⟩ := hlow
  have hhigh : isHighSurrogate unit.toNat = false :=
    isHighSurrogate_eq_false fun h => absurd h.2 (by omega)
  have hchar : charOf? unit.toNat = none := by
    rw [charOf?, if_neg]
    simp only [Nat.isValidChar]
    omega
  simp only [List.cons_append, List.nil_append]
  rw [stringBody?.eq_def]
  simp [hdigits, hhigh, hchar]

/-- Behind a high surrogate the string cannot end. -/
theorem stringBody?_high_quote {unit : UInt16} {text : List Char} (hunit : WritesUnit unit text)
    (hhigh : IsHigh unit) (rest : List Char) : stringBody? (text ++ '"' :: rest) = none := by
  obtain ⟨a, b, c, d, rfl, hdigits⟩ := hunit.exists_digits
  simp only [List.cons_append, List.nil_append]
  rw [stringBody?.eq_def]
  simp [hdigits, isHighSurrogate_eq_true hhigh]
  split
  · rename_i heq
    obtain ⟨rfl, -⟩ := List.cons.inj heq
    simp
  · rfl

/-- Behind a high surrogate only a low one can stand. -/
theorem stringBody?_high_unit {high unit : UInt16} {text text' : List Char}
    (hfirst : WritesUnit high text) (hsecond : WritesUnit unit text') (hhigh : IsHigh high)
    (hlow : ¬ IsLow unit) (rest : List Char) : stringBody? (text ++ (text' ++ rest)) = none := by
  obtain ⟨a, b, c, d, rfl, hdigits⟩ := hfirst.exists_digits
  obtain ⟨a', b', c', d', rfl, hdigits'⟩ := hsecond.exists_digits
  have hpair : pairOf? high.toNat unit.toNat = none := by
    rw [pairOf?, if_neg]
    simpa [isLowSurrogate, IsLow] using hlow
  simp only [List.cons_append, List.nil_append]
  rw [stringBody?.eq_def]
  simp [hdigits, isHighSurrogate_eq_true hhigh, hdigits', hpair]

/-- Where surrogates do not stand in pairs, no string is read. -/
theorem stringBody?_unpaired {units : List UInt16} {written : List (List Char)}
    (hwritten : List.Forall₂ WritesUnit units written) (h : ¬ Paired units) (rest : List Char) :
    stringBody? (written.flatten ++ '"' :: rest) = none := by
  induction hn : units.length using Nat.strong_induction_on generalizing units written with
  | _ n ih =>
    cases hwritten with
    | nil => exact absurd .nil h
    | @cons unit text units written hunit hrest =>
      rw [List.flatten_cons, List.append_assoc]
      by_cases hhigh : IsHigh unit
      · cases hrest with
        | nil => exact stringBody?_high_quote hunit hhigh rest
        | @cons next text' units written hnext hrest =>
          by_cases hlow : IsLow next
          · -- a pair: the fault is behind it
            obtain ⟨c, hc⟩ := exists_codeUnits_pair hhigh hlow
            have hpair : List.Forall₂ WritesUnit (codeUnits c) [text, text'] := by
              rw [hc]
              exact .cons hunit (.cons hnext .nil)
            have hread := stringBody?_codeUnits c hpair (written.flatten ++ '"' :: rest)
            rw [ih units.length (by simp at hn; omega) hrest (fun h' => h (.pair hhigh hlow h'))
              rfl] at hread
            simpa [withChar] using hread
          · rw [List.flatten_cons, List.append_assoc]
            exact stringBody?_high_unit hunit hnext hhigh hlow _
      · by_cases hlow : IsLow unit
        · exact stringBody?_low hunit hlow _
        · obtain ⟨c, hc⟩ := exists_codeUnits_single hhigh hlow
          have hsingle : List.Forall₂ WritesUnit (codeUnits c) [text] := by
            rw [hc]
            exact .cons hunit .nil
          have hread := stringBody?_codeUnits c hsingle (written.flatten ++ '"' :: rest)
          rw [ih units.length (by simp at hn; omega) hrest (fun h' => h (.single hhigh hlow h'))
            rfl] at hread
          simpa [withChar] using hread

end Lexeme

namespace Token

open Text

/-- A literal that writes the code units of a string is scanned as that string. -/
theorem scanned_units {s text : String} (h : WritesUnits (s.toList.flatMap codeUnits) text)
    (p : Position) : Scanned true ⟨.string s, text, p⟩ := by
  obtain ⟨written, hwritten, htext⟩ := h
  rw [← String.ofList_toList (s := text), htext]
  refine scanned_of_scan? (by simp [StartsToken, isGap]) ?_ p
  rw [Lexeme.scan?_string, Lexeme.stringBody?_units s.toList hwritten]
  simp

/-- A literal in which surrogates do not stand in pairs is a fault where it starts, whatever stands
behind it. -/
theorem ofChars_unpaired {units : List UInt16} {text : String} (h : WritesUnits units text)
    (hunits : ¬ Paired units) (afterValue : Bool) (p : Position) (rest : List Char) :
    ofChars afterValue p (text.toList ++ rest) = .error ⟨excerpt (text.toList ++ rest), p⟩ := by
  obtain ⟨written, hwritten, htext⟩ := h
  rw [htext, List.cons_append, List.append_assoc, List.singleton_append]
  refine ofChars_error (by simp [StartsToken, isGap]) ?_ p
  rw [Lexeme.scan?_string, Lexeme.stringBody?_unpaired hwritten hunits]
  rfl

end Token

/-- A string literal that writes code units by their numbers is read exactly if the surrogates among
them stand in pairs, and then it is one token, whose value is the string with these code units.
Otherwise the fault is at the opening quote. -/
theorem tokenize_codeUnits {units : List UInt16} {text : String}
    (h : Text.WritesUnits units text) :
    (Text.Paired units ↔ ∃ s : String, s.toList.flatMap Text.codeUnits = units) ∧
    (∀ tokens, tokenize text = .ok tokens ↔ ∃ s : String, s.toList.flatMap Text.codeUnits = units ∧
      tokens = [⟨.string s, text, .start⟩, ⟨.endOfInput, "", .behind text.toList⟩]) ∧
    ∀ failure, tokenize text = .error failure ↔ ¬ Text.Paired units ∧
      failure = .scan ⟨Token.excerpt text.toList, .start⟩ := by
  have hread (s : String) (hs : s.toList.flatMap Text.codeUnits = units) : tokenize text =
      .ok [⟨.string s, text, .start⟩, ⟨.endOfInput, "", .behind text.toList⟩] := by
    rw [← hs] at h
    rw [tokenize, (Token.scanned_units h .start).ofSource_image]
    rfl
  have hfault (hunits : ¬ Text.Paired units) :
      tokenize text = .error (.scan ⟨Token.excerpt text.toList, .start⟩) := by
    have := Token.ofChars_unpaired h hunits false .start []
    rw [List.append_nil] at this
    rw [tokenize, Token.ofSource, this]
    rfl
  refine ⟨Text.paired_iff, fun tokens => ⟨fun hok => ?_, ?_⟩, fun failure => ⟨fun herror => ?_, ?_⟩⟩
  · by_cases hunits : Text.Paired units
    · obtain ⟨s, hs⟩ := Text.paired_iff.mp hunits
      rw [hread s hs] at hok
      cases hok
      exact ⟨s, hs, rfl⟩
    · rw [hfault hunits] at hok
      cases hok
  · rintro ⟨s, hs, rfl⟩
    exact hread s hs
  · have hunits : ¬ Text.Paired units := fun hunits => by
      obtain ⟨s, hs⟩ := Text.paired_iff.mp hunits
      rw [hread s hs] at herror
      cases herror
    rw [hfault hunits] at herror
    cases herror
    exact ⟨hunits, rfl⟩
  · rintro ⟨hunits, rfl⟩
    exact hfault hunits

/-- A pair of surrogates, in digits of both cases, with a character of the first plane behind it. -/
theorem tokenize_codeUnits_sample :
    Text.WritesUnits [0xD83D, 0xDE00, 0x00E9] "\"\\uD83d\\udE00\\u00e9\"" ∧
      tokenize "\"\\uD83d\\udE00\\u00e9\"" =
        .ok [⟨.string "😀é", "\"\\uD83d\\udE00\\u00e9\"", .start⟩,
          ⟨.endOfInput, "", ⟨20, 1, 21⟩⟩] := by
  have hwrites : Text.WritesUnits [0xD83D, 0xDE00, 0x00E9] "\"\\uD83d\\udE00\\u00e9\"" := by
    refine ⟨[['\\', 'u', 'D', '8', '3', 'd'], ['\\', 'u', 'd', 'E', '0', '0'],
      ['\\', 'u', '0', '0', 'e', '9']], .cons ?_ (.cons ?_ (.cons ?_ .nil)), by decide⟩
    · exact .digits (.inr (by decide)) (.inl (by decide)) (.inl (by decide)) (.inl (by decide))
    · exact .digits (.inl (by decide)) (.inr (by decide)) (.inl (by decide)) (.inl (by decide))
    · exact .digits (.inl (by decide)) (.inl (by decide)) (.inl (by decide)) (.inl (by decide))
  exact ⟨hwrites, ((tokenize_codeUnits hwrites).2.1 _).mpr ⟨"😀é", by decide, by decide⟩⟩

end Workflow
