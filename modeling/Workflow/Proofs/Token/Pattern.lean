import Mathlib.Computability.RegularExpressions
import Workflow.Proofs.Token.Fault

/-!
# The pattern of numerals

Numerals have a regular expression, `-?(0|[1-9][0-9]*)(\.[0-9]+)?([eE][+-]?[0-9]+)?`, which speaks
of texts only. The texts that it matches are those of regular numerals, and where a numeral starts
the scan takes the longest of them, also where a point or a mark follows that belongs to no numeral.
-/

namespace Workflow

/-! ## Patterns -/

namespace TextPattern

/-- One of some characters. -/
def oneOf (cs : List Char) : RegularExpression Char := cs.foldr (fun c r => .char c + r) 0

/-- Nothing, or what a pattern matches. -/
def optionally (r : RegularExpression Char) : RegularExpression Char := 1 + r

/-- At least one of what a pattern matches. -/
def oneOrMore (r : RegularExpression Char) : RegularExpression Char := r * .star r

/-- A text is the longest one at the start of another text that a pattern matches. -/
structure Longest (r : RegularExpression Char) (text cs : List Char) : Prop where
  isPrefix : text <+: cs
  mem : text ∈ r.matches'
  length_le : ∀ other, other <+: cs → other ∈ r.matches' → other.length ≤ text.length

theorem Longest.unique {r : RegularExpression Char} {text other cs : List Char}
    (h : Longest r text cs) (h' : Longest r other cs) : text = other :=
  (List.prefix_of_prefix_length_le h.isPrefix h'.isPrefix
    (h'.length_le text h.isPrefix h.mem)).eq_of_length_le (h.length_le other h'.isPrefix h'.mem)

theorem mem_oneOf {cs text : List Char} : text ∈ (oneOf cs).matches' ↔ ∃ c ∈ cs, text = [c] := by
  induction cs with
  | nil => exact iff_of_false (Language.notMem_zero text) (by simp)
  | cons c cs ih =>
    have hcons : text ∈ (oneOf (c :: cs)).matches' ↔ text = [c] ∨ text ∈ (oneOf cs).matches' :=
      Language.mem_add _ _ text
    rw [hcons, ih]
    simp

theorem mem_optionally {r : RegularExpression Char} {text : List Char} :
    text ∈ (optionally r).matches' ↔ text = [] ∨ text ∈ r.matches' :=
  Language.mem_add _ _ text

theorem mem_mul {r s : RegularExpression Char} {text : List Char} :
    text ∈ (r * s).matches' ↔ ∃ front ∈ r.matches', ∃ back ∈ s.matches', front ++ back = text :=
  Language.mem_mul

theorem mem_star_oneOf {cs text : List Char} :
    text ∈ (RegularExpression.star (oneOf cs)).matches' ↔ ∀ c ∈ text, c ∈ cs := by
  rw [RegularExpression.matches'_star, Language.mem_kstar]
  constructor
  · rintro ⟨parts, rfl, hparts⟩ c hc
    obtain ⟨part, hpart, hc⟩ := List.mem_flatten.mp hc
    obtain ⟨d, hd, rfl⟩ := mem_oneOf.mp (hparts part hpart)
    exact List.mem_singleton.mp hc ▸ hd
  · intro h
    refine ⟨text.map ([·]), (List.flatMap_singleton' text).symm, fun part hpart => ?_⟩
    obtain ⟨c, hc, rfl⟩ := List.mem_map.mp hpart
    exact mem_oneOf.mpr ⟨c, h c hc, rfl⟩

theorem mem_oneOrMore {cs text : List Char} :
    text ∈ (oneOrMore (oneOf cs)).matches' ↔ text ≠ [] ∧ ∀ c ∈ text, c ∈ cs := by
  rw [oneOrMore, mem_mul]
  constructor
  · rintro ⟨front, hfront, back, hback, rfl⟩
    obtain ⟨c, hc, rfl⟩ := mem_oneOf.mp hfront
    exact ⟨List.cons_ne_nil _ _, List.forall_mem_cons.mpr ⟨hc, mem_star_oneOf.mp hback⟩⟩
  · rintro ⟨hne, hall⟩
    obtain ⟨c, back, rfl⟩ := List.exists_cons_of_ne_nil hne
    obtain ⟨hc, hback⟩ := List.forall_mem_cons.mp hall
    exact ⟨[c], mem_oneOf.mpr ⟨c, hc, rfl⟩, back, mem_star_oneOf.mpr hback, rfl⟩

end TextPattern

/-! ## Numerals -/

namespace Numeral

open TextPattern

/-- The digits other than zero. -/
def leadingDigits : List Char := ['1', '2', '3', '4', '5', '6', '7', '8', '9']

/-- The pattern of a digit. -/
def digitPattern : RegularExpression Char := oneOf ('0' :: leadingDigits)

/-- The pattern of whole digits, `0|[1-9][0-9]*`. -/
def wholePattern : RegularExpression Char := .char '0' + oneOf leadingDigits * .star digitPattern

/-- The pattern of a fraction, `\.[0-9]+`. -/
def fractionPattern : RegularExpression Char := .char '.' * oneOrMore digitPattern

/-- The pattern of a power of ten, `[eE][+-]?[0-9]+`. -/
def powerPattern : RegularExpression Char :=
  oneOf ['e', 'E'] * (optionally (oneOf ['+', '-']) * oneOrMore digitPattern)

/-- The pattern of a numeral, `-?(0|[1-9][0-9]*)(\.[0-9]+)?([eE][+-]?[0-9]+)?`. -/
def pattern : RegularExpression Char :=
  optionally (.char '-') * (wholePattern * (optionally fractionPattern * optionally powerPattern))

theorem mem_digits_iff {c : Char} : c ∈ '0' :: leadingDigits ↔ Decimal.isDigit c = true := by
  constructor
  · intro h
    exact List.all_eq_true.mp (show ('0' :: leadingDigits).all Decimal.isDigit = true by decide) c h
  · intro h
    rw [Decimal.isDigit, Bool.and_eq_true, decide_eq_true_eq, decide_eq_true_eq] at h
    have hlow : 48 ≤ c.toNat := h.1
    have hhigh : c.toNat ≤ 57 := h.2
    obtain ⟨k, hk, hc⟩ : ∃ k < 10, c.toNat = 48 + k := ⟨c.toNat - 48, by omega, by omega⟩
    rw [← Char.ofNat_toNat c, hc]
    exact (by decide : ∀ k < 10, Char.ofNat (48 + k) ∈ '0' :: leadingDigits) k hk

theorem mem_someDigits_iff {text : List Char} :
    text ∈ (oneOrMore digitPattern).matches' ↔
      text ≠ [] ∧ ∀ c ∈ text, Decimal.isDigit c = true := by
  rw [digitPattern, mem_oneOrMore]
  simp only [mem_digits_iff]

theorem mem_wholePattern_iff {text : List Char} :
    text ∈ wholePattern.matches' ↔ RegularWhole text := by
  have hsplit : text ∈ wholePattern.matches' ↔ text = ['0'] ∨
      text ∈ (oneOf leadingDigits * .star digitPattern).matches' := Language.mem_add _ _ text
  rw [hsplit, RegularWhole, mem_mul]
  refine or_congr_right ⟨?_, ?_⟩
  · rintro ⟨front, hfront, back, hback, rfl⟩
    obtain ⟨c, hc, rfl⟩ := mem_oneOf.mp hfront
    have hdigits : ∀ d ∈ [c] ++ back, Decimal.isDigit d = true := by
      intro d hd
      rw [← mem_digits_iff]
      rcases List.mem_cons.mp hd with rfl | hd
      · exact List.mem_cons_of_mem _ hc
      · exact mem_star_oneOf.mp hback d hd
    refine ⟨List.cons_ne_nil _ _, fun hzero => ?_, hdigits⟩
    cases hzero
    exact absurd hc (by decide)
  · rintro ⟨hne, hzero, hdigits⟩
    obtain ⟨c, back, rfl⟩ := List.exists_cons_of_ne_nil hne
    obtain ⟨hc, hback⟩ := List.forall_mem_cons.mp hdigits
    have hleading : c ∈ leadingDigits :=
      (List.mem_cons.mp (mem_digits_iff.mpr hc)).resolve_left fun h => hzero (by rw [h]; rfl)
    exact ⟨[c], mem_oneOf.mpr ⟨c, hleading, rfl⟩, back,
      mem_star_oneOf.mpr fun d hd => mem_digits_iff.mpr (hback d hd), rfl⟩

theorem mem_optionally_fractionPattern_iff {text : List Char} :
    text ∈ (optionally fractionPattern).matches' ↔
      ∃ fraction, (∀ c ∈ fraction, Decimal.isDigit c = true) ∧ fractionChars fraction = text := by
  rw [mem_optionally, fractionPattern, mem_mul]
  constructor
  · rintro (rfl | ⟨front, rfl, fraction, hfraction, rfl⟩)
    · exact ⟨[], List.forall_mem_nil _, rfl⟩
    · obtain ⟨hne, hdigits⟩ := mem_someDigits_iff.mp hfraction
      exact ⟨fraction, hdigits, by rw [fractionChars, if_neg (by simpa using hne)]; rfl⟩
  · rintro ⟨fraction, hdigits, rfl⟩
    by_cases hne : fraction = []
    · exact .inl (by rw [hne]; rfl)
    · refine .inr ⟨['.'], rfl, fraction, mem_someDigits_iff.mpr ⟨hne, hdigits⟩, ?_⟩
      rw [fractionChars, if_neg (by simpa using hne)]
      rfl

theorem mem_powerPattern_iff {text : List Char} :
    text ∈ powerPattern.matches' ↔ ∃ p : Power, p.Regular ∧ p.chars = text := by
  rw [powerPattern, mem_mul]
  constructor
  · rintro ⟨front, hfront, back, hback, rfl⟩
    obtain ⟨mark, hmark, rfl⟩ := mem_oneOf.mp hfront
    obtain ⟨sign, hsign, digits, hdigits, rfl⟩ := mem_mul.mp hback
    obtain ⟨hne, hall⟩ := mem_someDigits_iff.mp hdigits
    rcases mem_optionally.mp hsign with rfl | hsign
    · exact ⟨⟨mark, none, digits⟩, ⟨by simpa using hmark, by simp, hall, hne⟩, rfl⟩
    · obtain ⟨c, hc, rfl⟩ := mem_oneOf.mp hsign
      refine ⟨⟨mark, some c, digits⟩, ⟨by simpa using hmark, ?_, hall, hne⟩, rfl⟩
      rintro d hd
      cases hd
      simpa using hc
  · rintro ⟨⟨mark, sign, digits⟩, hp, rfl⟩
    have hsign : sign.toList ∈ (optionally (oneOf ['+', '-'])).matches' := by
      cases sign with
      | none => exact mem_optionally.mpr (.inl rfl)
      | some c =>
        exact mem_optionally.mpr (.inr (mem_oneOf.mpr ⟨c, by simpa using hp.sign c rfl, rfl⟩))
    exact ⟨[mark], mem_oneOf.mpr ⟨mark, by simpa using hp.mark, rfl⟩, sign.toList ++ digits,
      mem_mul.mpr ⟨_, hsign, digits, mem_someDigits_iff.mpr ⟨hp.nonempty, hp.digits⟩, rfl⟩, rfl⟩

theorem mem_optionally_powerPattern_iff {text : List Char} :
    text ∈ (optionally powerPattern).matches' ↔
      ∃ power : Option Power, (∀ p, power = some p → p.Regular) ∧ powerChars power = text := by
  rw [mem_optionally, mem_powerPattern_iff]
  constructor
  · rintro (rfl | ⟨p, hp, rfl⟩)
    · exact ⟨none, by simp, rfl⟩
    · exact ⟨some p, fun q hq => Option.some.inj hq ▸ hp, rfl⟩
  · rintro ⟨power, hpower, rfl⟩
    cases power with
    | none => exact .inl rfl
    | some p => exact .inr ⟨p, hpower p rfl, rfl⟩

/-- The pattern matches the texts of regular numerals. -/
theorem mem_pattern_iff {text : List Char} :
    text ∈ pattern.matches' ↔ ∃ n : Numeral, n.Regular ∧ n.chars = text := by
  rw [pattern, mem_mul]
  constructor
  · rintro ⟨sign, hsign, unsigned, hunsigned, rfl⟩
    obtain ⟨whole, hwhole, behind, hbehind, rfl⟩ := mem_mul.mp hunsigned
    obtain ⟨front, hfront, back, hback, rfl⟩ := mem_mul.mp hbehind
    obtain ⟨fraction, hfraction, rfl⟩ := mem_optionally_fractionPattern_iff.mp hfront
    obtain ⟨power, hpower, rfl⟩ := mem_optionally_powerPattern_iff.mp hback
    have hregular (isNegative : Bool) : Regular ⟨isNegative, whole, fraction, power⟩ :=
      ⟨mem_wholePattern_iff.mp hwhole, hfraction, hpower⟩
    rcases mem_optionally.mp hsign with rfl | rfl
    · exact ⟨_, hregular false, chars_eq _⟩
    · exact ⟨_, hregular true, chars_eq _⟩
  · rintro ⟨n, hn, rfl⟩
    have hsign : (if n.isNegative then ['-'] else []) ∈ (optionally (.char '-')).matches' := by
      cases n.isNegative with
      | false => exact mem_optionally.mpr (.inl rfl)
      | true => exact mem_optionally.mpr (.inr rfl)
    exact ⟨_, hsign, _, mem_mul.mpr ⟨n.whole, mem_wholePattern_iff.mpr hn.whole, _,
      mem_mul.mpr ⟨_, mem_optionally_fractionPattern_iff.mpr ⟨_, hn.fraction, rfl⟩, _,
        mem_optionally_powerPattern_iff.mpr ⟨_, hn.power, rfl⟩, rfl⟩, rfl⟩, (chars_eq n).symm⟩

/-- Where a numeral starts, the scan takes the longest text of a numeral. -/
theorem longest_scan {afterValue : Bool} {c : Char} {rest : List Char}
    (h : Lexeme.startsNumeral afterValue c rest = true) :
    Longest pattern (scan (c :: rest)).chars (c :: rest) := by
  obtain ⟨hregular, hscan, -⟩ := Lexeme.startsNumeral_spec h
  refine ⟨hscan, mem_pattern_iff.mpr ⟨_, hregular, rfl⟩, fun other hother hmem => ?_⟩
  obtain ⟨n, hn, rfl⟩ := mem_pattern_iff.mp hmem
  rcases List.prefix_or_prefix_of_prefix hother hscan with hshorter | hlonger
  · exact hshorter.length_le
  · -- a longer one would be read from its own text both as itself and as what is read here
    have hcut := Lexeme.scan_cut h hother hlonger
    have hself := scan_chars_append hn (stopsAt_nil mayExtend)
    rw [List.append_nil] at hself
    rw [← hcut, hself]

end Numeral

end Workflow
