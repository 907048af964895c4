import Mathlib.Data.Bool.AllAny
import Mathlib.Data.List.TakeWhile
import Workflow.Token.Numeral

/-!
# The shape of numerals

`Numeral.scan` reads the longest numeral at the start of a text. What it reads is regular: it
follows the pattern of a sign, whole digits without a leading zero, a fraction and a power of ten.
A regular numeral is read back from its own characters, whatever stands behind them, as long as
the next character could not belong to it.
-/

namespace Workflow

/-- The first character of a text, if there is one, does not satisfy a test. -/
def StopsAt (p : Char → Bool) (cs : List Char) : Prop := ∀ c ∈ cs.head?, p c = false

@[simp] theorem stopsAt_nil (p : Char → Bool) : StopsAt p [] := by simp [StopsAt]

@[simp] theorem stopsAt_cons {p : Char → Bool} {c : Char} {cs : List Char} :
    StopsAt p (c :: cs) ↔ p c = false := by simp [StopsAt]

theorem StopsAt.mono {p q : Char → Bool} {cs : List Char} (h : StopsAt p cs)
    (hq : ∀ c, q c = true → p c = true) : StopsAt q cs := by
  intro c hc
  have hp := h c hc
  cases hqc : q c with
  | false => rfl
  | true => rw [hq c hqc] at hp; cases hp

theorem StopsAt.of_isPrefix {p : Char → Bool} {cs cut : List Char} (h : StopsAt p cs)
    (hcut : cut <+: cs) : StopsAt p cut := by
  obtain ⟨more, rfl⟩ := hcut
  cases cut with
  | nil => exact stopsAt_nil p
  | cons c cut => exact stopsAt_cons.mpr (stopsAt_cons.mp h)

theorem stopsAt_dropWhile (p : Char → Bool) (cs : List Char) : StopsAt p (cs.dropWhile p) := by
  induction cs with
  | nil => exact stopsAt_nil p
  | cons c cs ih =>
    cases h : p c with
    | true => simpa [h] using ih
    | false => simp [h]

theorem StopsAt.takeWhile {p : Char → Bool} {cs : List Char} (h : StopsAt p cs) :
    cs.takeWhile p = [] := by
  cases cs with
  | nil => rfl
  | cons c cs => simp [stopsAt_cons.mp h]

theorem StopsAt.dropWhile {p : Char → Bool} {cs : List Char} (h : StopsAt p cs) :
    cs.dropWhile p = cs := by
  cases cs with
  | nil => rfl
  | cons c cs => simp [stopsAt_cons.mp h]

/-- A run that satisfies a test is taken whole, and no more than it. -/
theorem takeWhile_append_of_stopsAt {p : Char → Bool} {run rest : List Char}
    (hrun : ∀ c ∈ run, p c = true) (hrest : StopsAt p rest) : (run ++ rest).takeWhile p = run := by
  rw [List.takeWhile_append_of_pos hrun, hrest.takeWhile, List.append_nil]

namespace Numeral

/-- The pattern of a power of ten: a mark, perhaps a sign, and at least one digit. -/
structure Power.Regular (p : Power) : Prop where
  mark : p.mark = 'e' ∨ p.mark = 'E'
  sign : ∀ c, p.sign = some c → c = '+' ∨ c = '-'
  digits : ∀ c ∈ p.digits, Decimal.isDigit c = true
  nonempty : p.digits ≠ []

/-- The pattern of whole digits: a zero that stands alone, or digits that start with no zero. -/
def RegularWhole (cs : List Char) : Prop :=
  cs = ['0'] ∨ (cs ≠ [] ∧ cs.head? ≠ some '0' ∧ ∀ c ∈ cs, Decimal.isDigit c = true)

/-- The pattern of a numeral. -/
structure Regular (n : Numeral) : Prop where
  whole : RegularWhole n.whole
  fraction : ∀ c ∈ n.fraction, Decimal.isDigit c = true
  power : ∀ p, n.power = some p → p.Regular

/-- Whether a character could belong to the numeral in front of it. -/
def mayExtend (c : Char) : Bool := Decimal.isDigit c || c = '.' || c = 'e' || c = 'E'

theorem mayExtend_of_isDigit {c : Char} (h : Decimal.isDigit c = true) : mayExtend c = true := by
  simp [mayExtend, h]

theorem RegularWhole.ne_nil {cs : List Char} (h : RegularWhole cs) : cs ≠ [] := by
  rcases h with rfl | ⟨h, -, -⟩
  · simp
  · exact h

theorem RegularWhole.isDigit {cs : List Char} (h : RegularWhole cs) :
    ∀ c ∈ cs, Decimal.isDigit c = true := by
  rcases h with rfl | ⟨-, -, h⟩
  · intro c hc
    rw [List.mem_singleton.mp hc]
    decide
  · exact h

/-- The characters of a power of ten are the characters that its scan takes. -/
theorem Power.scan?_spec {cs : List Char} {p : Power} (h : Power.scan? cs = some p) :
    p.Regular ∧ p.chars <+: cs := by
  cases cs with
  | nil => simp [Power.scan?] at h
  | cons mark rest =>
    by_cases hm : mark = 'e' ∨ mark = 'E'
    · cases rest with
      | nil => simp [Power.scan?, hm] at h
      | cons s r =>
        by_cases hs : s = '+' ∨ s = '-'
        · simp only [Power.scan?, hm, hs, if_true] at h
          split at h
          · cases h
          · next hd =>
            cases h
            refine ⟨⟨hm, ?_, fun c hc => List.mem_takeWhile_imp hc, by simpa using hd⟩, ?_⟩
            · intro c hc
              cases hc
              exact hs
            · simpa [Power.chars] using List.takeWhile_prefix Decimal.isDigit
        · simp only [Power.scan?, hm, hs, if_true, if_false] at h
          split at h
          · cases h
          · next hd =>
            cases h
            refine ⟨⟨hm, by simp, fun c hc => List.mem_takeWhile_imp hc, by simpa using hd⟩, ?_⟩
            simpa [Power.chars] using List.takeWhile_prefix Decimal.isDigit
    · simp [Power.scan?, hm] at h

/-- A regular power of ten is read back from its characters. -/
theorem Power.scan?_chars_append {p : Power} (hp : p.Regular) {rest : List Char}
    (hrest : StopsAt Decimal.isDigit rest) : Power.scan? (p.chars ++ rest) = some p := by
  obtain ⟨mark, sign, digits⟩ := p
  obtain ⟨d, ds, rfl⟩ := List.exists_cons_of_ne_nil hp.nonempty
  have htake : ((d :: ds) ++ rest).takeWhile Decimal.isDigit = d :: ds :=
    takeWhile_append_of_stopsAt hp.digits hrest
  have hd : Decimal.isDigit d = true := hp.digits d (by simp)
  have hmark : mark = 'e' ∨ mark = 'E' := hp.mark
  cases sign with
  | none =>
    have hsign : ¬ (d = '+' ∨ d = '-') := by
      rintro (rfl | rfl) <;> revert hd <;> decide
    simp only [List.cons_append] at htake
    simp [Power.scan?, Power.chars, hmark, hsign, htake]
  | some s =>
    have hsign : s = '+' ∨ s = '-' := hp.sign s rfl
    simp only [List.cons_append] at htake
    simp [Power.scan?, Power.chars, hmark, hsign, htake]

/-- A power of ten starts with its mark. -/
theorem Power.scan?_of_stopsAt {cs : List Char} (h : StopsAt mayExtend cs) :
    Power.scan? cs = none := by
  cases cs with
  | nil => rfl
  | cons c cs =>
    have hc : ¬ (c = 'e' ∨ c = 'E') := by
      have := stopsAt_cons.mp h
      simp only [mayExtend, Bool.or_eq_false_iff, decide_eq_false_iff_not] at this
      rintro (hc | hc)
      · exact this.1.2 hc
      · exact this.2 hc
    simp [Power.scan?, hc]

/-- The written form of a power of ten that may be missing. -/
def powerChars (power : Option Power) : List Char := (power.map Power.chars).getD []

/-- The written form of a fraction that may be missing. -/
def fractionChars (fraction : List Char) : List Char :=
  if fraction.isEmpty then [] else '.' :: fraction

theorem chars_eq (n : Numeral) : n.chars = (if n.isNegative then ['-'] else []) ++
    (n.whole ++ (fractionChars n.fraction ++ powerChars n.power)) := by
  simp only [chars, fractionChars, powerChars, List.append_assoc]

theorem Regular.chars_ne_nil {n : Numeral} (h : n.Regular) : n.chars ≠ [] := by
  intro hnil
  simp only [chars_eq, List.append_eq_nil_iff] at hnil
  exact h.whole.ne_nil hnil.2.1

theorem stopsAt_powerChars {power : Option Power} (hp : ∀ p, power = some p → p.Regular)
    {rest : List Char} (hrest : StopsAt mayExtend rest) :
    StopsAt (fun c => Decimal.isDigit c || c = '.') (powerChars power ++ rest) := by
  cases power with
  | none =>
    refine StopsAt.mono hrest fun c hc => ?_
    rcases Bool.or_eq_true _ _ ▸ hc with h | h <;> simp [mayExtend, h]
  | some p =>
    rcases (hp p rfl).mark with h | h <;>
      simp [powerChars, Power.chars, h, Decimal.isDigit]

theorem scan?_powerChars {power : Option Power} (hp : ∀ p, power = some p → p.Regular)
    {rest : List Char} (hrest : StopsAt mayExtend rest) :
    Power.scan? (powerChars power ++ rest) = power := by
  cases power with
  | none => exact Power.scan?_of_stopsAt hrest
  | some p =>
    exact Power.scan?_chars_append (hp p rfl) (hrest.mono fun _ => mayExtend_of_isDigit)

/-- Whole digits are read first, and the scan goes on behind them. -/
theorem scan_whole_append {whole tail : List Char} (hw : RegularWhole whole)
    (ht : StopsAt Decimal.isDigit tail) : scan (whole ++ tail) = ⟨false, whole,
      (scan ('0' :: tail)).fraction, (scan ('0' :: tail)).power⟩ := by
  rcases hw with rfl | ⟨hne, hzero, hdigits⟩
  · simp [scan]
  · obtain ⟨d, ds, rfl⟩ := List.exists_cons_of_ne_nil hne
    have hd : d ≠ '0' := by simpa using hzero
    have hm : d ≠ '-' := by
      rintro rfl
      exact absurd (hdigits '-' (by simp)) (by decide)
    have htake := takeWhile_append_of_stopsAt hdigits ht
    simp only [List.cons_append] at htake
    simp [scan, hd, hm, htake]

/-- A point with digits behind it is read as a fraction. -/
theorem scan_zero_fraction {r : List Char} (h : r.takeWhile Decimal.isDigit ≠ []) :
    scan ('0' :: '.' :: r) = ⟨false, ['0'], r.takeWhile Decimal.isDigit,
      Power.scan? (r.dropWhile Decimal.isDigit)⟩ := by
  have hdrop : r.drop (r.takeWhile Decimal.isDigit).length = r.dropWhile Decimal.isDigit := by
    have hsplit := List.takeWhile_append_dropWhile (p := Decimal.isDigit) (l := r)
    calc r.drop (r.takeWhile Decimal.isDigit).length
        = (r.takeWhile Decimal.isDigit ++ r.dropWhile Decimal.isDigit).drop
            (r.takeWhile Decimal.isDigit).length := by rw [hsplit]
      _ = r.dropWhile Decimal.isDigit := List.drop_left
  simp [scan, h, hdrop]

/-- Without a point that has digits behind it there is no fraction. -/
theorem scan_zero_of_no_fraction {tail : List Char}
    (h : ∀ r, tail = '.' :: r → r.takeWhile Decimal.isDigit = []) :
    scan ('0' :: tail) = ⟨false, ['0'], [], Power.scan? tail⟩ := by
  cases tail with
  | nil => rfl
  | cons c r =>
    by_cases hc : c = '.'
    · subst hc
      simp [scan, h r rfl]
    · simp [scan, hc]

/-- The part of a numeral behind its sign is read back from its characters. -/
theorem scan_unsigned {n : Numeral} (hn : n.Regular) {rest : List Char}
    (hrest : StopsAt mayExtend rest) :
    scan (n.whole ++ (fractionChars n.fraction ++ (powerChars n.power ++ rest))) =
      ⟨false, n.whole, n.fraction, n.power⟩ := by
  have hpower := scan?_powerChars hn.power hrest
  have hstop := stopsAt_powerChars hn.power hrest
  generalize powerChars n.power ++ rest = tail at hpower hstop ⊢
  have hdigit : StopsAt Decimal.isDigit tail := hstop.mono (by simp +contextual)
  have htake : (n.fraction ++ tail).takeWhile Decimal.isDigit = n.fraction :=
    takeWhile_append_of_stopsAt hn.fraction hdigit
  have hdrop : (n.fraction ++ tail).dropWhile Decimal.isDigit = tail := by
    rw [List.dropWhile_append_of_pos hn.fraction]
    exact hdigit.dropWhile
  by_cases hf : n.fraction = []
  · have hscan : scan ('0' :: tail) = ⟨false, ['0'], [], n.power⟩ := by
      rw [scan_zero_of_no_fraction, hpower]
      rintro r rfl
      simp at hstop
    rw [hf, fractionChars, List.isEmpty_nil, if_pos rfl, List.nil_append,
      scan_whole_append hn.whole hdigit, hscan]
  · have hscan : scan ('0' :: '.' :: (n.fraction ++ tail)) =
        ⟨false, ['0'], n.fraction, n.power⟩ := by
      rw [scan_zero_fraction (by rwa [htake]), htake, hdrop, hpower]
    rw [fractionChars, if_neg (by simpa using hf), List.cons_append,
      scan_whole_append hn.whole (by simp [Decimal.isDigit]), hscan]

/-- A sign is read before everything else. -/
theorem scan_minus {cs : List Char} (h : cs.head? ≠ some '-') :
    scan ('-' :: cs) = ⟨true, (scan cs).whole, (scan cs).fraction, (scan cs).power⟩ := by
  cases cs with
  | nil => rfl
  | cons c cs =>
    have hc : c ≠ '-' := by simpa using h
    simp [scan, hc]

/-- A regular numeral is read back from its characters. -/
theorem scan_chars_append {n : Numeral} (hn : n.Regular) {rest : List Char}
    (hrest : StopsAt mayExtend rest) : scan (n.chars ++ rest) = n := by
  have hscan := scan_unsigned hn hrest
  obtain ⟨neg, whole, fraction, power⟩ := n
  cases neg with
  | false => simpa [chars_eq] using hscan
  | true =>
    obtain ⟨d, ds, hd⟩ := List.exists_cons_of_ne_nil hn.whole.ne_nil
    have hhead : d ≠ '-' := by
      rintro rfl
      exact absurd (hn.whole.isDigit '-' (by rw [hd]; simp)) (by decide)
    have hsign : (whole ++ (fractionChars fraction ++ (powerChars power ++ rest))).head? ≠
        some '-' := by
      simp [show whole = d :: ds from hd, hhead]
    have hminus := scan_minus hsign
    rw [hscan] at hminus
    simpa [chars_eq] using hminus

/-- Behind the whole digits, a scan takes a regular fraction and a regular power of ten. -/
theorem scan_tail_spec (tail : List Char) :
    (∀ c ∈ (scan ('0' :: tail)).fraction, Decimal.isDigit c = true) ∧
    (∀ p, (scan ('0' :: tail)).power = some p → p.Regular) ∧
    fractionChars (scan ('0' :: tail)).fraction ++ powerChars (scan ('0' :: tail)).power <+:
      tail := by
  have hpower : ∀ cs, (∀ p, Power.scan? cs = some p → p.Regular) ∧
      powerChars (Power.scan? cs) <+: cs := by
    intro cs
    cases h : Power.scan? cs with
    | none => simp [powerChars]
    | some p =>
      have hp := Power.scan?_spec h
      exact ⟨fun q hq => Option.some.inj hq ▸ hp.1, hp.2⟩
  by_cases hdot : ∃ r, tail = '.' :: r ∧ r.takeWhile Decimal.isDigit ≠ []
  · obtain ⟨r, rfl, hr⟩ := hdot
    rw [scan_zero_fraction hr]
    refine ⟨fun c hc => List.mem_takeWhile_imp hc, (hpower _).1, ?_⟩
    obtain ⟨rest, hrest⟩ := (hpower (r.dropWhile Decimal.isDigit)).2
    refine ⟨rest, ?_⟩
    rw [fractionChars, if_neg (by simpa using hr), List.append_assoc, hrest, List.cons_append,
      List.takeWhile_append_dropWhile]
  · rw [scan_zero_of_no_fraction fun r hr => Classical.byContradiction fun h => hdot ⟨r, hr, h⟩]
    exact ⟨by simp, (hpower tail).1, by simpa [fractionChars] using (hpower tail).2⟩

/-- Where a digit stands, whole digits are read first, and also from a text that is cut somewhere
behind them. -/
theorem exists_whole {c : Char} (h : Decimal.isDigit c = true) (rest : List Char) :
    ∃ whole tail, c :: rest = whole ++ tail ∧ RegularWhole whole ∧
      ∀ cut, cut <+: tail → scan (whole ++ cut) = ⟨false, whole, (scan ('0' :: cut)).fraction,
        (scan ('0' :: cut)).power⟩ := by
  by_cases hc : c = '0'
  · subst hc
    exact ⟨['0'], rest, rfl, .inl rfl, fun cut _ => by simp [scan]⟩
  · have hsplit := (List.takeWhile_append_dropWhile (p := Decimal.isDigit) (l := c :: rest)).symm
    have hw : RegularWhole ((c :: rest).takeWhile Decimal.isDigit) :=
      .inr ⟨by simp [h], by simp [h, hc], fun d hd => List.mem_takeWhile_imp hd⟩
    exact ⟨_, _, hsplit, hw, fun cut hcut =>
      scan_whole_append hw ((stopsAt_dropWhile _ _).of_isPrefix hcut)⟩

/-- Where a digit stands, a scan takes a regular numeral from the start of the text. -/
theorem scan_digit_spec {c : Char} (h : Decimal.isDigit c = true) (rest : List Char) :
    (scan (c :: rest)).Regular ∧ (scan (c :: rest)).isNegative = false ∧
      (scan (c :: rest)).chars <+: c :: rest := by
  obtain ⟨whole, tail, hsplit, hw, hscan⟩ := exists_whole h rest
  obtain ⟨hf, hp, hprefix⟩ := scan_tail_spec tail
  rw [hsplit, hscan tail (List.prefix_refl tail)]
  refine ⟨⟨hw, hf, hp⟩, rfl, ?_⟩
  rw [chars_eq, if_neg (by simp), List.nil_append]
  exact (List.prefix_append_right_inj whole).mpr hprefix

/-- Where a sign with a digit behind it stands, too. -/
theorem scan_minus_spec {c : Char} (h : Decimal.isDigit c = true) (rest : List Char) :
    (scan ('-' :: c :: rest)).Regular ∧
      (scan ('-' :: c :: rest)).chars <+: '-' :: c :: rest := by
  obtain ⟨hr, hn, hprefix⟩ := scan_digit_spec h rest
  have hc : c ≠ '-' := by
    rintro rfl
    exact absurd h (by decide)
  rw [scan_minus (by simpa using hc)]
  refine ⟨⟨hr.whole, hr.fraction, hr.power⟩, ?_⟩
  rw [chars_eq, hn, if_neg (by simp), List.nil_append] at hprefix
  rw [chars_eq, if_pos rfl, List.singleton_append]
  exact List.cons_prefix_cons.mpr ⟨rfl, hprefix⟩

end Numeral

end Workflow
