import Mathlib.Logic.Relation
import Workflow.Proofs.Number.Integer
import Workflow.Proofs.Token.Pattern

/-!
# Numerals in front of a reader

Where reading comes to a numeral, the longest text of the pattern is taken. Whole digits alone are
the integer that they write as long as it fits into 64 bits. Larger ones, and all numerals with a
fraction, are the nearest floating-point number. Values are rounded to infinity from the middle
between the largest finite number and the next power of two on: there reading fails, in whatever
form they are written.
-/

namespace Workflow

/-! ## Values that are too large -/

namespace Binary64

/-- The middle between the largest finite number and `2 ^ 1024`. -/
def overflow : ℚ := 2 ^ 1024 - 2 ^ 970

theorem two_pow_lt_overflow : (2 : ℚ) ^ 63 < overflow := by
  calc (2 : ℚ) ^ 63 < 2 ^ 970 := pow_lt_pow_right₀ one_lt_two (by decide)
    _ = 2 ^ 971 - 2 ^ 970 := by rw [pow_succ 2 970, mul_two, add_sub_cancel_right]
    _ < 2 ^ 1024 - 2 ^ 970 := sub_lt_sub_right (pow_lt_pow_right₀ one_lt_two (by decide)) _

theorem middle_infinite {k : Nat} (h : k + 1 = infinite) : middle k = overflow := by
  obtain rfl : k = 2045 * hiddenBit + (2 * hiddenBit - 1) := by
    rw [infinite, hiddenBit] at h
    rw [hiddenBit]
    omega
  have hexponent : ((2045 : Nat) - 1074 : ℤ) = (970 + 1 : Nat) := rfl
  rw [middle_add (by decide) (.inr (by decide)), hexponent, zpow_natCast, pow_succ, overflow,
    show 1024 = 54 + 970 from rfl, pow_add, show 2 * hiddenBit - 1 = 9007199254740991 from rfl]
  generalize (2 : ℚ) ^ 970 = unit
  push_cast
  ring

/-- A decimal is rounded to a finite number exactly if it lies below the last middle. -/
theorem isFinite_nearest_iff (negative : Bool) (d : Decimal) :
    (nearest negative d).isFinite = true ↔ d.value < overflow := by
  obtain ⟨last, hlast⟩ : ∃ last, last + 1 = infinite := ⟨infinite - 1, by decide⟩
  have hrounds := roundsTo_nearestMagnitude d
  rw [isFinite_nearest, decide_eq_true_eq, ← middle_infinite hlast]
  constructor
  · intro hlt
    obtain ⟨hle, heven⟩ := hrounds.below hlt
    rcases Nat.lt_or_eq_of_le (show nearestMagnitude d ≤ last by omega) with hless | heq
    · exact lt_of_le_of_lt hle (strictMono_middle hless)
    · -- the largest finite number is odd, so the middle itself goes to infinity
      refine lt_of_le_of_ne (heq ▸ hle) fun hmiddle => ?_
      have hodd := heven (heq ▸ hmiddle)
      rw [heq] at hodd
      have : infinite % 2 = 0 := by decide
      omega
  · intro hlt
    refine lt_of_le_of_ne (nearestMagnitude_le d) fun hinfinite => ?_
    exact absurd (hrounds.above last (by omega)).1 (not_le.mpr hlt)

/-- A finite number to which no finite number is nearer. -/
def IsNearest (x : Binary64) (v : ℚ) : Prop :=
  x.isFinite = true ∧ ∀ y : Binary64, y.isFinite = true → |v - x.value| ≤ |v - y.value|

end Binary64

/-! ## Numbers of numerals -/

namespace Numeral

/-- The number of a numeral is the nearest floating-point number. -/
def Rounds (n : Numeral) (number : Option Number) : Prop :=
  ∃ x, Binary64.IsNearest x n.value ∧ number = some (.float x)

variable {n : Numeral}

theorem abs_value (n : Numeral) : |n.value| = n.decimal.value := by
  have hnonneg := Decimal.value_nonneg n.decimal
  rw [value_eq_decimal, signed]
  split
  · rw [abs_neg, abs_of_nonneg hnonneg]
  · rw [abs_of_nonneg hnonneg]

theorem isFinite_nearest_iff :
    (Binary64.nearest n.isNegative n.decimal).isFinite = true ↔ |n.value| < Binary64.overflow := by
  rw [Binary64.isFinite_nearest_iff, abs_value]

theorem rounds_nearest (h : |n.value| < Binary64.overflow) :
    n.Rounds (if (Binary64.nearest n.isNegative n.decimal).isFinite
      then some (.float (Binary64.nearest n.isNegative n.decimal)) else none) := by
  have hfinite := isFinite_nearest_iff.mpr h
  exact ⟨_, ⟨hfinite, fun y _ => abs_value_sub_nearest_le hfinite y⟩, if_pos hfinite⟩

/-- The integers of 64 bits, by the value that is written. -/
theorem wholeValue_fits_iff (hfraction : n.fraction = []) (hpower : n.power = none) :
    Int64.minValue.toInt ≤ n.wholeValue ∧ n.wholeValue ≤ Int64.maxValue.toInt ↔
      -2 ^ 63 ≤ n.value ∧ n.value ≤ 2 ^ 63 - 1 := by
  rw [value_eq_wholeValue hfraction hpower, Int64.toInt_minValue, Int64.toInt_maxValue]
  exact_mod_cast Iff.rfl

/-- Whole digits alone are an integer as long as it fits. -/
theorem number?_plain (hfraction : n.fraction = []) (hpower : n.power = none) :
    (-2 ^ 63 ≤ n.value ∧ n.value ≤ 2 ^ 63 - 1 →
      ∃ i : Int64, (i.toInt : ℚ) = n.value ∧ n.number? = some (.int i)) ∧
    (n.value < -2 ^ 63 ∨ 2 ^ 63 - 1 < n.value → |n.value| < Binary64.overflow →
      n.Rounds n.number?) := by
  have hmin := Int64.toInt_minValue
  have hmax := Int64.toInt_maxValue
  have hnumber : n.number? = (Number.ofInt? n.wholeValue).or
      (if (Binary64.nearest n.isNegative n.decimal).isFinite
        then some (.float (Binary64.nearest n.isNegative n.decimal)) else none) := by
    rw [number?, hfraction, hpower]
    rfl
  constructor
  · rw [← wholeValue_fits_iff hfraction hpower]
    intro hrange
    refine ⟨Int64.ofInt n.wholeValue, ?_, ?_⟩
    · rw [value_eq_wholeValue hfraction hpower, Int64.toInt_ofInt_of_le (by omega) (by omega)]
    · rw [hnumber, Number.ofInt?, if_pos hrange, Option.some_or]
  · rw [← not_le, ← not_le, ← not_and_or, ← wholeValue_fits_iff hfraction hpower]
    intro hrange hlt
    rw [hnumber, Number.ofInt?, if_neg hrange, Option.none_or]
    exact rounds_nearest hlt

theorem rounds_number?_of_fraction (hfraction : n.fraction ≠ [])
    (h : |n.value| < Binary64.overflow) : n.Rounds n.number? := by
  have hnumber : n.number? = if (Binary64.nearest n.isNegative n.decimal).isFinite
      then some (.float (Binary64.nearest n.isNegative n.decimal)) else none := by
    rw [number?]
    exact if_neg (by simpa using hfraction)
  rw [hnumber]
  exact rounds_nearest h

/-- However it is written, what is rounded to infinity is no number. -/
theorem number?_eq_none (h : Binary64.overflow ≤ |n.value|) : n.number? = none := by
  have hinfinite : ¬(Binary64.nearest n.isNegative n.decimal).isFinite = true := by
    rw [isFinite_nearest_iff]
    exact not_lt.mpr h
  have hint : (Binary64.nearest n.isNegative n.decimal).toInt? = none :=
    Option.eq_none_iff_forall_ne_some.mpr fun i hi => hinfinite (Binary64.value_of_toInt? hi).1
  rw [number?, if_neg hinfinite, hint]
  by_cases hfraction : n.fraction = []
  · rw [if_pos (List.isEmpty_iff.mpr hfraction)]
    cases hpower : n.power with
    | none =>
      -- no integer of 64 bits is that large
      have hrange : ¬(-2 ^ 63 ≤ n.value ∧ n.value ≤ 2 ^ 63 - 1) := by
        rintro ⟨hlow, hhigh⟩
        have hle : |n.value| ≤ 2 ^ 63 := abs_le.mpr ⟨hlow, by linarith⟩
        exact absurd (h.trans hle) (not_le.mpr Binary64.two_pow_lt_overflow)
      rw [← wholeValue_fits_iff hfraction hpower] at hrange
      rw [Number.ofInt?, if_neg hrange]
      rfl
    | some p => rfl
  · rw [if_neg fun hempty => hfraction (List.isEmpty_iff.mp hempty)]

end Numeral

/-! ## Readers -/

namespace Token.Reader

/-- Reading goes on from one reader to another by some steps. -/
def Reaches : Reader → Reader → Prop := Relation.ReflTransGen fun r r' => r.step? = some r'

/-- A numeral is in front of a reader: a digit, or a minus with a digit behind it where the last
token that was taken ends no value. -/
def AtNumeral (r : Reader) : Prop :=
  ∃ c rest, r.rest = c :: rest ∧ (Decimal.isDigit c = true ∨
    c = '-' ∧ (∃ d tail, rest = d :: tail ∧ Decimal.isDigit d = true) ∧
      ∀ t, r.taken.getLast? = some t → t.lexeme.endsValue = false)

/-- A reader takes a text as a lexeme: it goes on behind the text, and if the source can be read to
its end, the token is one of its tokens. -/
def Takes (source : String) (r : Reader) (l : Lexeme) (text : List Char) : Prop :=
  ∃ rest, r.rest = text ++ rest ∧
    r.step? = some ⟨r.taken ++ [⟨l, String.ofList text, r.position⟩], l.endsValue,
      r.position.advance text, rest⟩ ∧
    ∀ tokens, tokenize source = .ok tokens →
      r.taken ++ [⟨l, String.ofList text, r.position⟩] <+: tokens

/-- A step takes no token and keeps whether a value has just ended, or takes a token that decides
it. -/
theorem step?_taken {r r' : Reader} (h : r.step? = some r') :
    r'.taken = r.taken ∧ r'.afterValue = r.afterValue ∨
      ∃ t, r'.taken = r.taken ++ [t] ∧ r'.afterValue = t.lexeme.endsValue := by
  obtain ⟨taken, afterValue, position, cs⟩ := r
  rcases rest_cases afterValue cs with rfl | ⟨c, rest, rfl, hc⟩ | ⟨rest, rfl⟩ |
    ⟨c, body, tail, l, rfl, hstart, hscan, -⟩ | ⟨c, rest, rfl, hstart, hscan⟩
  · cases h
  · cases (step?_blank hc).symm.trans h
    exact .inl ⟨rfl, rfl⟩
  · cases step?_comment.symm.trans h
    exact .inl ⟨rfl, rfl⟩
  · cases (step?_token hstart hscan).symm.trans h
    exact .inr ⟨_, rfl, rfl⟩
  · rw [step?_stuck hstart hscan] at h
    cases h

theorem Reaches.taken_isPrefix {r r' : Reader} (h : r.Reaches r') : r.taken <+: r'.taken := by
  induction h with
  | refl => exact List.prefix_refl _
  | tail _ hstep ih =>
    rcases step?_taken hstep with ⟨htaken, -⟩ | ⟨t, htaken, -⟩
    · rwa [htaken]
    · rw [htaken]
      exact ih.trans (List.prefix_append _ _)

theorem Reaches.last_eq {r r' : Reader} (h : r.Reaches r') : r.last = r'.last := by
  induction h with
  | refl => rfl
  | tail _ hstep ih => rw [ih, last_of_some hstep]

theorem reaches_last (r : Reader) : r.Reaches r.last := by
  induction r using stepInduction with
  | stuck r h =>
    rw [last_of_none h]
    exact .refl
  | step r r' h ih =>
    rw [last_of_some h]
    exact .head h ih

/-- Whether a value has just ended is told by the last token. -/
theorem Reaches.afterValue_eq {source : String} {r : Reader} (h : (start source).Reaches r) :
    r.afterValue = r.taken.getLast?.any (·.lexeme.endsValue) := by
  induction h with
  | refl => rfl
  | tail _ hstep ih =>
    rcases step?_taken hstep with ⟨htaken, hafter⟩ | ⟨t, htaken, hafter⟩
    · rw [hafter, htaken, ih]
    · rw [hafter, htaken, List.getLast?_concat, Option.any_some]

theorem exists_startsNumeral {source : String} {r : Reader} (h : (start source).Reaches r)
    (hnumeral : r.AtNumeral) :
    ∃ c rest, r.rest = c :: rest ∧ Lexeme.startsNumeral r.afterValue c rest = true := by
  obtain ⟨c, rest, hrest, hc | ⟨rfl, ⟨d, tail, rfl, hd⟩, hlast⟩⟩ := hnumeral
  · exact ⟨c, rest, hrest, by rw [Lexeme.startsNumeral, hc, Bool.true_or]⟩
  · have hafter : r.afterValue = false := by
      rw [h.afterValue_eq]
      cases hlast' : r.taken.getLast? with
      | none => rfl
      | some t => exact hlast t hlast'
    exact ⟨'-', d :: tail, hrest, by rw [Lexeme.startsNumeral, hafter]; simp [hd]⟩

theorem tokenize_start (source : String) :
    tokenize source = (start source).last.outcome.mapError .scan := by
  rw [tokenize, outcome_start]

/-- Tokens that were taken are tokens of the source. -/
theorem Reaches.isPrefix_tokens {source : String} {r : Reader} (h : (start source).Reaches r)
    {tokens : List Token} (htokens : tokenize source = .ok tokens) : r.taken <+: tokens := by
  rw [tokenize_start, h.last_eq, mapError_eq_ok, outcome] at htokens
  split at htokens
  · cases htokens
    exact r.reaches_last.taken_isPrefix.trans (List.prefix_append _ _)
  · cases htokens

/-- Where a numeral starts, reading takes its number, or fails if there is none. -/
theorem takes_numeral {source : String} {r : Reader} (h : (start source).Reaches r) {c : Char}
    {rest : List Char} (hrest : r.rest = c :: rest)
    (hstart : Lexeme.startsNumeral r.afterValue c rest = true) :
    (∀ x, (Numeral.scan (c :: rest)).number? = some x →
      r.Takes source (.number x) (Numeral.scan (c :: rest)).chars) ∧
    ((Numeral.scan (c :: rest)).number? = none →
      tokenize source = .error (.scan ⟨excerpt r.rest, r.position⟩)) := by
  have htoken := startsToken_of_startsNumeral hstart rest
  obtain ⟨taken, afterValue, position, cs⟩ := r
  subst hrest
  constructor
  · intro x hx
    obtain ⟨hregular, ⟨tail, htail⟩, -⟩ := Lexeme.startsNumeral_spec hstart
    generalize hn : Numeral.scan (c :: rest) = n at hx hregular htail ⊢
    obtain ⟨d, body, hchars⟩ := List.exists_cons_of_ne_nil hregular.chars_ne_nil
    rw [hchars, List.cons_append, List.cons.injEq] at htail
    obtain ⟨rfl, rfl⟩ := htail
    have hscan : Lexeme.scan? afterValue d (body ++ tail) = some (.number x, body.length + 1) := by
      rw [Lexeme.scan?_numeral hstart, hn, hx, hchars]
      rfl
    have hstep := @step?_token taken afterValue position d tail body _ htoken hscan
    rw [hchars]
    exact ⟨tail, rfl, hstep, fun tokens htokens =>
      Reaches.isPrefix_tokens (h.tail hstep) htokens⟩
  · intro hnone
    have hscan : Lexeme.scan? afterValue c rest = none := by
      rw [Lexeme.scan?_numeral hstart, hnone]
      rfl
    rw [tokenize_start, h.last_eq, last_of_none (step?_stuck htoken hscan), outcome,
      if_neg (List.cons_ne_nil c rest)]
    rfl

end Token.Reader

open Token in
/-- A reader takes a numeral as the nearest floating-point number. -/
def Token.Reader.TakesNearest (source : String) (r : Reader) (n : Numeral) : Prop :=
  ∃ x, Binary64.IsNearest x n.value ∧ r.Takes source (.number (.float x)) n.chars

open Token in
/-- Where reading comes to a numeral, the longest text of the pattern is taken as a number if its
value is not rounded to infinity, and otherwise reading fails there. Whole digits alone are the
integer that they write if it fits into 64 bits, and otherwise the nearest floating-point number, as
are all numerals with a fraction. -/
theorem tokenize_longest_numeral {source : String} {r : Reader}
    (hreach : (Reader.start source).Reaches r) (hnumeral : r.AtNumeral) :
    ∃ n : Numeral, n.Regular ∧ TextPattern.Longest Numeral.pattern n.chars r.rest ∧
      (|n.value| < Binary64.overflow → ∃ x, r.Takes source (.number x) n.chars) ∧
      (Binary64.overflow ≤ |n.value| →
        tokenize source = .error (.scan ⟨excerpt r.rest, r.position⟩)) ∧
      (n.fraction = [] → n.power = none →
        (-2 ^ 63 ≤ n.value ∧ n.value ≤ 2 ^ 63 - 1 → ∃ i : Int64,
          (i.toInt : ℚ) = n.value ∧ r.Takes source (.number (.int i)) n.chars) ∧
        (n.value < -2 ^ 63 ∨ 2 ^ 63 - 1 < n.value → |n.value| < Binary64.overflow →
          r.TakesNearest source n)) ∧
      (n.fraction ≠ [] → |n.value| < Binary64.overflow → r.TakesNearest source n) := by
  obtain ⟨c, rest, hrest, hstart⟩ := Reader.exists_startsNumeral hreach hnumeral
  obtain ⟨htakes, hfails⟩ := Reader.takes_numeral hreach hrest hstart
  have hnearest (hrounds : (Numeral.scan (c :: rest)).Rounds (Numeral.scan (c :: rest)).number?) :
      r.TakesNearest source (Numeral.scan (c :: rest)) := by
    obtain ⟨x, hx, hnumber⟩ := hrounds
    exact ⟨x, hx, htakes _ hnumber⟩
  refine ⟨Numeral.scan (c :: rest), (Lexeme.startsNumeral_spec hstart).1,
    hrest ▸ Numeral.longest_scan hstart, fun hlt => ?_,
    fun hle => hfails (Numeral.number?_eq_none hle), fun hfraction hpower => ?_,
    fun hfraction hlt => hnearest (Numeral.rounds_number?_of_fraction hfraction hlt)⟩
  · obtain ⟨x, hnumber⟩ := Numeral.exists_number? (Numeral.isFinite_nearest_iff.mpr hlt)
    exact ⟨x, htakes x hnumber⟩
  · obtain ⟨hfits, hlarge⟩ := Numeral.number?_plain hfraction hpower
    refine ⟨fun hrange => ?_, fun hrange hlt => hnearest (hlarge hrange hlt)⟩
    obtain ⟨i, hi, hnumber⟩ := hfits hrange
    exact ⟨i, hi, htakes _ hnumber⟩

open Token in
/-- The least integer, behind a sign that ends no value and in front of a point and a mark that
belong to no numeral. -/
theorem tokenize_longest_numeral_sample : ∃ r : Reader,
    (Reader.start "[-9223372036854775808.e5").Reaches r ∧ r.AtNumeral ∧
      TextPattern.Longest Numeral.pattern "-9223372036854775808".toList r.rest ∧
      r.Takes "[-9223372036854775808.e5" (.number (.int Int64.minValue))
        "-9223372036854775808".toList := by
  have hstep : (Reader.start "[-9223372036854775808.e5").step? =
      some ⟨[⟨.symbol .lbracket, "[", .start⟩], false, ⟨1, 1, 2⟩,
        "-9223372036854775808.e5".toList⟩ :=
    @Reader.step?_token [] false .start '[' "-9223372036854775808.e5".toList [] _ (by decide)
      (by decide +kernel)
  have hnumeral : Reader.AtNumeral ⟨[⟨.symbol .lbracket, "[", .start⟩], false, ⟨1, 1, 2⟩,
      "-9223372036854775808.e5".toList⟩ :=
    ⟨'-', _, rfl, .inr ⟨rfl, ⟨'9', _, rfl, by decide⟩, fun t ht => by cases ht; rfl⟩⟩
  obtain ⟨n, hregular, hlongest, -, -, hplain, -⟩ := tokenize_longest_numeral (.single hstep) hnumeral
  have hchars : n.chars = "-9223372036854775808".toList :=
    (hlongest.unique (@Numeral.longest_scan false '-' "9223372036854775808.e5".toList
      (by decide))).trans (by decide)
  have hn : n = ⟨true, "9223372036854775808".toList, [], none⟩ := by
    rw [← Numeral.scan_chars_append hregular (stopsAt_nil _), List.append_nil, hchars]
    decide
  subst hn
  have hvalue : Numeral.value ⟨true, "9223372036854775808".toList, [], none⟩ = -2 ^ 63 := by
    rw [Numeral.value_eq_wholeValue rfl rfl,
      show Numeral.wholeValue ⟨true, "9223372036854775808".toList, [], none⟩ = -2 ^ 63 by decide]
    norm_num
  obtain ⟨i, hi, htakes⟩ := (hplain rfl rfl).1 (by rw [hvalue]; norm_num)
  obtain rfl : i = Int64.minValue := by
    rw [hvalue] at hi
    refine Int64.toInt_inj.mp ?_
    exact_mod_cast hi
  rw [hchars] at hlongest htakes
  exact ⟨_, .single hstep, hnumeral, hlongest, htakes⟩

open Token in
/-- An integer of 310 digits is rounded to infinity, and reading fails in front of it. -/
theorem tokenize_large_integer_error : ∃ (source : String) (n : Numeral),
    source = String.ofList ('1' :: List.replicate 309 '0') ∧ (Reader.start source).AtNumeral ∧
      n.Regular ∧ TextPattern.Longest Numeral.pattern n.chars source.toList ∧ n.fraction = [] ∧
      n.power = none ∧ 2 ^ 63 - 1 < n.value ∧
      tokenize source = .error (.scan ⟨"1000000000000000", .start⟩) := by
  have hstart : Lexeme.startsNumeral false '1' (List.replicate 309 '0') = true := rfl
  have hscan : (Numeral.scan ('1' :: List.replicate 309 '0')).fraction = [] ∧
      (Numeral.scan ('1' :: List.replicate 309 '0')).power = none ∧
      2 ^ 63 - 1 < (Numeral.scan ('1' :: List.replicate 309 '0')).wholeValue ∧
      (Numeral.scan ('1' :: List.replicate 309 '0')).number? = none := by
    decide +kernel
  have hshown : excerpt ('1' :: List.replicate 309 '0') = "1000000000000000" := by decide +kernel
  generalize List.replicate 309 '0' = zeros at hstart hscan hshown ⊢
  obtain ⟨hfraction, hpower, hlarge, hnumber⟩ := hscan
  have hrest : (Reader.start (String.ofList ('1' :: zeros))).rest = '1' :: zeros :=
    String.toList_ofList
  refine ⟨_, Numeral.scan ('1' :: zeros), rfl, ⟨'1', zeros, hrest, .inl rfl⟩,
    (Lexeme.startsNumeral_spec hstart).1, ?_, hfraction, hpower, ?_, ?_⟩
  · rw [String.toList_ofList]
    exact Numeral.longest_scan hstart
  · rw [Numeral.value_eq_wholeValue hfraction hpower]
    exact_mod_cast hlarge
  · rw [(Reader.takes_numeral .refl hrest hstart).2 hnumber, hrest, hshown]
    rfl

end Workflow
