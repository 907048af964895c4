import Workflow.Proofs.Token.Tiling

/-!
# Written tokens

Signs, words, quoted strings and integers, written as texts of expressions write them, are scanned
as the tokens they stand for.
-/

namespace Workflow

namespace Token

/-- A text that is a lexeme to its end is scanned as that lexeme. -/
theorem scanned_of_scan? {afterValue : Bool} {c : Char} {body : List Char} {l : Lexeme}
    (hstart : StartsToken c body)
    (h : Lexeme.scan? afterValue c body = some (l, body.length + 1)) (p : Position) :
    Scanned afterValue ⟨l, String.ofList (c :: body), p⟩ := by
  obtain ⟨front, tail, hsplit, hwidth, hscanned⟩ := exists_scanned hstart h
  have hlength : body.length = front.length + tail.length := by rw [hsplit, List.length_append]
  have htail : tail = [] := List.length_eq_zero_iff.mp (by omega)
  rw [hsplit, htail, List.append_nil]
  exact hscanned p

/-- What is scanned behind a value is scanned everywhere. -/
theorem Scanned.mono {t : Token} (h : Scanned true t) (afterValue : Bool) :
    Scanned afterValue t := by
  obtain ⟨hne, c, body, himage, hagain⟩ := h
  exact ⟨hne, c, body, himage, fun more afterValue' _ => hagain more afterValue' fun _ => rfl⟩

/-! ## Signs and words -/

theorem scanned_symbol (s : Symbol) (p : Position) : Scanned true ⟨.symbol s, s.text, p⟩ := by
  cases s with
  | _ => exact scanned_of_scan? (by decide) (by decide) p

end Token

/-- A word that is no reserved word. -/
def IsName (s : String) : Prop :=
  ∃ c body, s = String.ofList (c :: body) ∧ Text.isWordStart c = true ∧
    (∀ d ∈ body, Text.isWordChar d = true) ∧ Lexeme.ofWord s = .identifier s

namespace Token

/-- A character of a class without blanks and slashes starts a token. -/
theorem startsToken_of_class {p : Char → Bool}
    (hp : [' ', '\t', '\r', '\n', '/'].all (!p ·) = true) {c : Char} (hc : p c = true)
    (body : List Char) : StartsToken c body := by
  have hmem : c ∉ [' ', '\t', '\r', '\n', '/'] := by
    intro h
    have hnot := List.all_eq_true.mp hp c h
    rw [hc] at hnot
    cases hnot
  simp only [List.mem_cons, List.not_mem_nil, or_false, not_or] at hmem
  refine ⟨?_, fun h => hmem.2.2.2.2 h.1⟩
  simp [isGap, hmem]

theorem startsToken_of_startsNumeral {afterValue : Bool} {c : Char} {rest : List Char}
    (h : Lexeme.startsNumeral afterValue c rest = true) (body : List Char) : StartsToken c body := by
  have hc : (Decimal.isDigit c || c = '-') = true := by
    simp only [Lexeme.startsNumeral, Bool.or_eq_true, Bool.and_eq_true] at h ⊢
    exact h.imp_right fun h => h.1.1
  exact startsToken_of_class (p := fun c => Decimal.isDigit c || c = '-') (by decide) hc body

theorem scanned_word {c : Char} {body : List Char} (hc : Text.isWordStart c = true)
    (hbody : ∀ d ∈ body, Text.isWordChar d = true) (p : Position) :
    Scanned true ⟨.ofWord (String.ofList (c :: body)), String.ofList (c :: body), p⟩ := by
  refine scanned_of_scan? (startsToken_of_class (by decide) hc body) ?_ p
  have htake : body.takeWhile Text.isWordChar = body := List.takeWhile_eq_self_iff.mpr hbody
  rw [Lexeme.scan?_word hc, htake]

theorem scanned_name {name : String} (h : IsName name) (p : Position) :
    Scanned true ⟨.identifier name, name, p⟩ := by
  obtain ⟨c, body, rfl, hc, hbody, hword⟩ := h
  rw [← hword]
  exact scanned_word hc hbody p

theorem scanned_keyword (w : Keyword) (p : Position) : Scanned true ⟨.keyword w, w.text, p⟩ := by
  cases w with
  | _ => exact scanned_of_scan? (by decide) (by decide +kernel) p

/-- A name that is scanned is its own image. -/
theorem isName_of_scanned {afterValue : Bool} {t : Token} (h : Scanned afterValue t)
    (ht : t.lexeme.isIdentifier = true) : t.lexeme = .identifier t.image ∧ IsName t.image := by
  obtain ⟨-, c, body, himage, hagain⟩ := h
  obtain ⟨-, hscan⟩ := hagain [] false Bool.false_ne_true.elim (stopsAt_nil _)
  rw [List.append_nil] at hscan
  rcases Lexeme.scan?_cases hscan with ⟨-, _, _, -, hl, -⟩ | ⟨-, _, _, _, -, -, hl, -⟩ |
    ⟨-, _, -, hl, -⟩ | ⟨hc, hl, hwidth⟩ | ⟨-, hsymbol⟩
  · rw [hl] at ht
    cases ht
  · rw [hl] at ht
    cases ht
  · rw [hl] at ht
    cases ht
  · have htake : body.takeWhile Text.isWordChar = body :=
      (List.takeWhile_prefix _).eq_of_length (by omega)
    rw [htake, ← himage] at hl
    have hword : Lexeme.ofWord t.image = .identifier t.image := by
      rw [hl] at ht
      unfold Lexeme.ofWord at ht ⊢
      split
      · rename_i hk
        rw [hk] at ht
        cases ht
      · rfl
    exact ⟨hl.trans hword, c, body, himage, hc, List.takeWhile_eq_self_iff.mp htake, hword⟩
  · rcases Lexeme.scanSymbol?_cases hsymbol with ⟨_, _, -, -, hl, -⟩ | ⟨_, -, hl, -⟩
    · rw [hl] at ht
      cases ht
    · rw [hl] at ht
      cases ht

/-! ## Strings -/

theorem scanned_quote (s : String) (p : Position) :
    Scanned true ⟨.string s, Text.quote s, p⟩ := by
  refine scanned_of_scan? (by simp [StartsToken, isGap]) ?_ p
  rw [Lexeme.scan?_string, Lexeme.stringBody?_quoted]
  simp

end Token

/-! ## Integers -/

namespace Numeral

theorem ofDigits_toDigits (n : Nat) : Decimal.ofDigits (Decimal.toDigits n) = n :=
  Nat.ofDigitChars_toDigits (by decide) (by decide)

theorem isDigit_of_mem_toDigits {n : Nat} {c : Char} (h : c ∈ Decimal.toDigits n) :
    Decimal.isDigit c = true := by
  have := Nat.isDigit_of_mem_toDigits (by decide) (by decide) h
  simpa [Decimal.isDigit, Char.isDigit, Char.le_def] using this

theorem head?_toDigits {n : Nat} (h : 0 < n) : (Decimal.toDigits n).head? ≠ some '0' := by
  induction n using Nat.strong_induction_on with
  | _ n ih =>
    rw [Decimal.toDigits, Nat.toDigits_eq_if (by decide)]
    split
    · rename_i hlt
      have hdigit : ∀ m < 10, 0 < m → m.digitChar ≠ '0' := by decide
      simpa using hdigit n hlt h
    · have hrest := ih (n / 10) (by omega) (by omega)
      obtain ⟨d, ds, hds⟩ := List.exists_cons_of_ne_nil (@Nat.toDigits_ne_nil (n / 10) 10)
      rw [Decimal.toDigits, hds] at hrest
      rw [hds]
      exact hrest

theorem regularWhole_toDigits (n : Nat) : RegularWhole (Decimal.toDigits n) := by
  rcases Nat.eq_zero_or_pos n with rfl | h
  · exact .inl rfl
  · exact .inr ⟨Nat.toDigits_ne_nil, head?_toDigits h, fun _ => isDigit_of_mem_toDigits⟩

/-- The numeral of an integer. -/
def ofInt (n : Int) : Numeral := ⟨n < 0, Decimal.toDigits n.natAbs, [], none⟩

theorem regular_ofInt (n : Int) : (ofInt n).Regular :=
  ⟨regularWhole_toDigits _, by simp [ofInt], by simp [ofInt]⟩

theorem ofList_chars_ofInt (n : Int) : String.ofList (ofInt n).chars = Decimal.intText n := by
  by_cases h : n < 0
  · simp [ofInt, chars, Decimal.intText, h]
  · simp [ofInt, chars, Decimal.intText, h]

theorem number?_ofInt (n : Int64) : (ofInt n.toInt).number? = some (.int n) := by
  have hvalue : (ofInt n.toInt).wholeValue = n.toInt := by
    rw [wholeValue, ofInt]
    dsimp only
    rw [ofDigits_toDigits]
    by_cases h : n.toInt < 0
    · rw [if_pos (decide_eq_true h)]
      omega
    · rw [if_neg (by simpa using h)]
      omega
  have hint : (Number.ofInt? (ofInt n.toInt).wholeValue) = some (.int n) := by
    rw [hvalue, Number.ofInt?_toInt]
  simp only [number?, hint]
  rfl

end Numeral

namespace Token

/-- A regular numeral that stands for a number is scanned as that number. -/
theorem scanned_numeral {n : Numeral} (hn : n.Regular) {x : Number} (h : n.number? = some x)
    (p : Position) : Scanned false ⟨.number x, String.ofList n.chars, p⟩ := by
  obtain ⟨c, body, hchars⟩ := List.exists_cons_of_ne_nil hn.chars_ne_nil
  have hstart := Lexeme.startsNumeral_of_regular hn hchars (fun _ => rfl) []
  have hscan := Numeral.scan_chars_append hn (stopsAt_nil _)
  rw [List.append_nil] at hstart hscan
  rw [hchars]
  refine scanned_of_scan? (startsToken_of_startsNumeral hstart body) ?_ p
  rw [Lexeme.scan?_numeral hstart, ← hchars, hscan, h, hchars]
  rfl

/-- A number that is scanned has a regular numeral for its image. -/
theorem exists_numeral_of_scanned {afterValue : Bool} {t : Token} (h : Scanned afterValue t)
    {x : Number} (ht : t.lexeme = .number x) : ∃ n : Numeral, n.Regular ∧
      t.image = String.ofList n.chars ∧ n.number? = some x := by
  obtain ⟨-, c, body, himage, hagain⟩ := h
  obtain ⟨-, hscan⟩ := hagain [] false Bool.false_ne_true.elim (stopsAt_nil _)
  rw [List.append_nil, ht] at hscan
  rcases Lexeme.scan?_cases hscan with ⟨-, _, _, -, hl, -⟩ | ⟨-, _, _, _, -, -, hl, -⟩ |
    ⟨hstart, y, hy, hl, hwidth⟩ | ⟨-, hl, -⟩ | ⟨-, hsymbol⟩
  · cases hl
  · cases hl
  · cases hl
    obtain ⟨hregular, hchars, -⟩ := Lexeme.startsNumeral_spec hstart
    refine ⟨_, hregular, ?_, hy⟩
    rw [himage, hchars.eq_of_length (by simpa using hwidth.symm)]
  · unfold Lexeme.ofWord at hl
    split at hl <;> cases hl
  · rcases Lexeme.scanSymbol?_cases hsymbol with ⟨_, _, -, -, hl, -⟩ | ⟨_, -, hl, -⟩ <;> cases hl

theorem scanned_int (n : Int64) (p : Position) :
    Scanned false ⟨.number (.int n), Decimal.intText n.toInt, p⟩ := by
  rw [← Numeral.ofList_chars_ofInt]
  exact scanned_numeral (Numeral.regular_ofInt n.toInt) (Numeral.number?_ofInt n) p

end Token

end Workflow
