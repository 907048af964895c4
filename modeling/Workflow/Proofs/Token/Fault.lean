import Workflow.Proofs.Token.Tiling

/-!
# Where reading fails

A lexeme is read in the same way when the text behind it is cut short: a cut only takes away what
the lexeme could not use. So a text that reading gives up at some place can be cut there, and its
front has exactly the tokens that were read up to that place, with the end of input at the place
of the fault.

`Reader` is the reading of tokens as a row of steps, so that the tokens read before a fault can be
spoken of.
-/

namespace Workflow

namespace Numeral

/-- Behind the characters of a regular power of ten, all the digits that follow belong to it. -/
theorem Power.scan?_chars_append_digits {p : Power} (hp : p.Regular) (rest : List Char) :
    Power.scan? (p.chars ++ rest) =
      some { p with digits := p.digits ++ rest.takeWhile Decimal.isDigit } := by
  have hlonger : Power.Regular { p with digits := p.digits ++ rest.takeWhile Decimal.isDigit } := by
    refine ⟨hp.mark, hp.sign, ?_, by simp [hp.nonempty]⟩
    exact List.forall_mem_append.mpr ⟨hp.digits, fun c hc => List.mem_takeWhile_imp hc⟩
  have hsplit : p.chars ++ rest =
      Power.chars { p with digits := p.digits ++ rest.takeWhile Decimal.isDigit } ++
        rest.dropWhile Decimal.isDigit := by
    simp [Power.chars]
  rw [hsplit, Power.scan?_chars_append hlonger (stopsAt_dropWhile _ _)]

/-- A power of ten is read in the same way from a text that is cut behind it. -/
theorem Power.scan?_cut {cs cut : List Char} (hcut : cut <+: cs)
    (hkept : powerChars (Power.scan? cs) <+: cut) : Power.scan? cut = Power.scan? cs := by
  obtain ⟨more, rfl⟩ := hcut
  cases hpower : Power.scan? (cut ++ more) with
  | none =>
    cases hshort : Power.scan? cut with
    | none => rfl
    | some p =>
      -- the same power would stand at the start of the longer text
      obtain ⟨hregular, ⟨rest, rfl⟩⟩ := Power.scan?_spec hshort
      rw [List.append_assoc, Power.scan?_chars_append_digits hregular] at hpower
      cases hpower
  | some p =>
    obtain ⟨hregular, -⟩ := Power.scan?_spec hpower
    rw [hpower] at hkept
    obtain ⟨rest, rfl⟩ : p.chars <+: cut := hkept
    rw [List.append_assoc, Power.scan?_chars_append_digits hregular, Option.some.injEq] at hpower
    have hnone : (rest ++ more).takeWhile Decimal.isDigit = [] := by
      simpa using congrArg Power.digits hpower
    have hstop : StopsAt Decimal.isDigit (rest ++ more) := by
      have := stopsAt_dropWhile Decimal.isDigit (rest ++ more)
      rwa [← List.takeWhile_append_dropWhile (p := Decimal.isDigit) (l := rest ++ more), hnone]
    exact Power.scan?_chars_append hregular (hstop.of_isPrefix (List.prefix_append rest more))

/-- What stands behind the whole digits is read in the same way from a text that is cut behind
it. -/
theorem scan_tail_cut {tail cut : List Char} (hcut : cut <+: tail)
    (hkept : fractionChars (scan ('0' :: tail)).fraction ++
      powerChars (scan ('0' :: tail)).power <+: cut) :
    scan ('0' :: cut) = scan ('0' :: tail) := by
  by_cases hdot : ∃ r, tail = '.' :: r ∧ r.takeWhile Decimal.isDigit ≠ []
  · obtain ⟨r, rfl, hr⟩ := hdot
    rw [scan_zero_fraction hr] at hkept ⊢
    rw [fractionChars, if_neg (by simpa using hr)] at hkept
    obtain ⟨rest, rfl⟩ := hkept
    rw [List.append_assoc, List.cons_append, List.cons_prefix_cons] at hcut
    have hbehind : powerChars (Power.scan? (r.dropWhile Decimal.isDigit)) ++ rest <+:
        r.dropWhile Decimal.isDigit := by
      rw [← List.prefix_append_right_inj (r.takeWhile Decimal.isDigit),
        List.takeWhile_append_dropWhile]
      exact hcut.2
    have hstop := (stopsAt_dropWhile Decimal.isDigit r).of_isPrefix hbehind
    have htake := takeWhile_append_of_stopsAt
      (fun c (hc : c ∈ r.takeWhile Decimal.isDigit) => List.mem_takeWhile_imp hc) hstop
    rw [List.append_assoc, List.cons_append, scan_zero_fraction (by rwa [htake]), htake,
      List.dropWhile_append_of_pos fun c hc => List.mem_takeWhile_imp hc, hstop.dropWhile,
      Power.scan?_cut hbehind (List.prefix_append _ _)]
  · have hnone : ∀ r, tail = '.' :: r → r.takeWhile Decimal.isDigit = [] :=
      fun r hr => Classical.byContradiction fun h => hdot ⟨r, hr, h⟩
    rw [scan_zero_of_no_fraction hnone] at hkept ⊢
    rw [scan_zero_of_no_fraction, Power.scan?_cut hcut (by simpa [fractionChars] using hkept)]
    rintro r rfl
    obtain ⟨more, rfl⟩ := hcut
    have hlonger := hnone (r ++ more) rfl
    cases r with
    | nil => rfl
    | cons c r =>
      rw [List.takeWhile_eq_nil_iff] at hlonger ⊢
      simpa using hlonger

theorem scan_digit_cut {c : Char} (h : Decimal.isDigit c = true) {rest cut : List Char}
    (hcut : cut <+: c :: rest) (hkept : (scan (c :: rest)).chars <+: cut) :
    scan cut = scan (c :: rest) := by
  obtain ⟨whole, tail, hsplit, -, hscan⟩ := exists_whole h rest
  rw [hsplit] at hcut hkept ⊢
  rw [hscan tail (List.prefix_refl tail)] at hkept ⊢
  rw [chars_eq, if_neg (by simp), List.nil_append] at hkept
  obtain ⟨behind, rfl⟩ := (List.prefix_append whole _).trans hkept
  rw [List.prefix_append_right_inj] at hcut hkept
  rw [hscan behind hcut, scan_tail_cut hcut hkept]

theorem scan_minus_cut {c : Char} (h : Decimal.isDigit c = true) {rest cut : List Char}
    (hcut : cut <+: '-' :: c :: rest) (hkept : (scan ('-' :: c :: rest)).chars <+: cut) :
    scan cut = scan ('-' :: c :: rest) := by
  obtain ⟨-, hn, -⟩ := scan_digit_spec h rest
  have hc : c ≠ '-' := by
    rintro rfl
    exact absurd h (by decide)
  rw [scan_minus (by simpa using hc)] at hkept ⊢
  rw [chars_eq, if_pos rfl, List.singleton_append] at hkept
  obtain ⟨behind, rfl⟩ := (List.prefix_append ['-'] _).trans hkept
  rw [List.singleton_append, List.cons_prefix_cons] at hcut hkept
  have hagain : scan behind = scan (c :: rest) := by
    refine scan_digit_cut h hcut.2 ?_
    rw [chars_eq, hn, if_neg (by simp), List.nil_append]
    exact hkept.2
  have hhead : behind.head? ≠ some '-' := by
    obtain ⟨more, hmore⟩ := hcut.2
    cases behind with
    | nil => simp
    | cons d behind =>
      rw [List.cons_append, List.cons.injEq] at hmore
      simpa [hmore.1] using hc
  rw [List.singleton_append, scan_minus hhead, hagain]

end Numeral

namespace Lexeme

/-- A numeral is read in the same way from a text that is cut behind it. -/
theorem scan_cut {afterValue : Bool} {c : Char} {rest cut : List Char}
    (hstart : startsNumeral afterValue c rest = true) (hcut : cut <+: c :: rest)
    (hkept : (Numeral.scan (c :: rest)).chars <+: cut) :
    Numeral.scan cut = Numeral.scan (c :: rest) := by
  simp only [startsNumeral, Bool.or_eq_true, Bool.and_eq_true, decide_eq_true_eq] at hstart
  rcases hstart with hc | ⟨⟨rfl, hd⟩, _⟩
  · exact Numeral.scan_digit_cut hc hcut hkept
  · cases rest with
    | nil => simp at hd
    | cons d rest => exact Numeral.scan_minus_cut (by simpa using hd) hcut hkept

theorem cut_numeral {afterValue : Bool} {c : Char} {rest : List Char} {n : Number}
    (hstart : startsNumeral afterValue c rest = true)
    (hn : (Numeral.scan (c :: rest)).number? = some n) :
    ∃ body tail, rest = body ++ tail ∧
      (Numeral.scan (c :: rest)).chars.length = body.length + 1 ∧
      ∀ cut, cut <+: tail →
        scan? afterValue c (body ++ cut) = some (.number n, body.length + 1) := by
  obtain ⟨hregular, hprefix, hsign⟩ := startsNumeral_spec hstart
  obtain ⟨d, body, hbody⟩ := List.exists_cons_of_ne_nil hregular.chars_ne_nil
  obtain ⟨tail, htail⟩ := hprefix
  rw [hbody, List.cons_append, List.cons.injEq] at htail
  obtain ⟨rfl, rfl⟩ := htail
  refine ⟨body, tail, rfl, by simp [hbody], fun cut hcut => ?_⟩
  have hagain : Numeral.scan (d :: (body ++ cut)) = Numeral.scan (d :: (body ++ tail)) := by
    refine scan_cut hstart ?_ ?_
    · rw [List.cons_prefix_cons, List.prefix_append_right_inj]
      exact ⟨rfl, hcut⟩
    · rw [hbody, ← List.cons_append]
      exact List.prefix_append _ _
  rw [scan?_numeral (startsNumeral_of_regular hregular hbody hsign cut), hagain, hn, hbody]
  rfl

theorem cut_symbol {afterValue : Bool} {c : Char} {rest : List Char} {l : Lexeme} {width : Nat}
    (hstart : startsNumeral afterValue c rest = false)
    (h : scanSymbol? c rest = some (l, width)) :
    ∃ body tail, rest = body ++ tail ∧ width = body.length + 1 ∧
      ∀ cut, cut <+: tail → scan? afterValue c (body ++ cut) = some (l, width) := by
  rcases scanSymbol?_cases h with ⟨s, tail, rfl, hs, rfl, rfl⟩ | ⟨s, hs, rfl, rfl⟩
  · refine ⟨['='], tail, rfl, rfl, fun cut _ => ?_⟩
    have hagain : startsNumeral afterValue c (['='] ++ cut) = false := hstart
    rw [scan?_symbol (doubleSymbol?_class hs).2.2 hagain]
    exact h
  · refine ⟨[], rest, rfl, rfl, fun cut hcut => ?_⟩
    have hclass := class_of_mem_symbolChars c (mem_symbolChars_of_singleSymbol? hs)
    cases cut with
    | nil =>
      have hend : startsNumeral afterValue c [] = false := by simp [startsNumeral, hclass]
      rw [List.nil_append, scan?_symbol hclass hend]
      simp [scanSymbol?, hs]
    | cons d cut =>
      -- the next character is still there, and no further one is looked at
      obtain ⟨more, rfl⟩ := hcut
      have hagain : startsNumeral afterValue c (d :: cut) = false := hstart
      rw [List.nil_append, scan?_symbol hclass hagain]
      exact h

/-- A lexeme is read in the same way from a text that is cut behind it. -/
theorem scan?_cut {afterValue : Bool} {c : Char} {rest : List Char} {l : Lexeme} {width : Nat}
    (h : scan? afterValue c rest = some (l, width)) :
    ∃ body tail, rest = body ++ tail ∧ width = body.length + 1 ∧
      ∀ cut, cut <+: tail → scan? afterValue c (body ++ cut) = some (l, width) := by
  rcases scan?_cases h with ⟨rfl, chars, k, hbody, rfl, rfl⟩ |
    ⟨rfl, inner, k, tail, rfl, hbody, rfl, rfl⟩ | ⟨hstart, n, hn, rfl, rfl⟩ | ⟨hword, rfl, rfl⟩ |
    ⟨hstart, hsymbol⟩
  · obtain ⟨body, tail, rfl, rfl, hagain⟩ := stringBody?_split hbody
    exact ⟨body, tail, rfl, rfl, fun cut _ => by rw [scan?_string, hagain]; rfl⟩
  · obtain ⟨hinner, rfl, tail, rfl⟩ := expressionBody?_split hbody
    refine ⟨'{' :: (inner ++ ['}']), tail, by simp, by simp, fun cut _ => ?_⟩
    rw [List.cons_append, List.append_assoc, List.singleton_append, scan?_expression,
      expressionBody?_append hinner]
    rfl
  · obtain ⟨body, tail, rfl, hlength, hagain⟩ := cut_numeral hstart hn
    exact ⟨body, tail, rfl, hlength, fun cut hcut => by rw [hagain cut hcut, hlength]⟩
  · refine ⟨_, _, List.takeWhile_append_dropWhile.symm, rfl, fun cut hcut => ?_⟩
    have hstop := (stopsAt_dropWhile Text.isWordChar rest).of_isPrefix hcut
    rw [scan?_word hword, takeWhile_append_of_stopsAt (fun d hd => List.mem_takeWhile_imp hd) hstop]
  · exact cut_symbol hstart hsymbol

end Lexeme

theorem StartsToken.cut {c : Char} {body tail cut : List Char} (h : StartsToken c (body ++ tail))
    (hcut : cut <+: tail) : StartsToken c (body ++ cut) := by
  obtain ⟨more, rfl⟩ := hcut
  refine ⟨h.1, ?_⟩
  rintro ⟨rfl, hhead⟩
  obtain ⟨text, htext⟩ := List.head?_eq_some_iff.mp hhead
  exact h.2 ⟨rfl, by rw [← List.append_assoc, htext]; rfl⟩

namespace Token

/-- How far a text has been read: the tokens taken so far, whether a value has just ended, the
place that is reached, and the text that is left. -/
structure Reader where
  taken : List Token
  afterValue : Bool
  position : Position
  rest : List Char

namespace Reader

/-- In front of a source text. -/
def start (source : String) : Reader := ⟨[], false, .start, source.toList⟩

/-- One step of reading: past a blank, past a comment, or past a token, which is taken. There is
none at the end of the text and where no lexeme is read. -/
def step? (r : Reader) : Option Reader :=
  match r.rest with
  | [] => none
  | c :: rest =>
    if isGap c then some { r with position := r.position.next c, rest := rest }
    else if c = '/' ∧ rest.head? = some '/' then
      some { r with
        position := r.position.advance (c :: rest.takeWhile (· ≠ '\n'))
        rest := rest.dropWhile (· ≠ '\n') }
    else
      (Lexeme.scan? r.afterValue c rest).map fun (l, width) =>
        let image := c :: rest.take (width - 1)
        { taken := r.taken ++ [⟨l, String.ofList image, r.position⟩]
          afterValue := l.endsValue
          position := r.position.advance image
          rest := rest.drop (width - 1) }

variable {taken : List Token} {afterValue : Bool} {position : Position} {c : Char}
  {rest body : List Char} {l : Lexeme}

theorem step?_blank (hc : isGap c = true) :
    step? ⟨taken, afterValue, position, c :: rest⟩ =
      some ⟨taken, afterValue, position.advance [c], rest⟩ := by
  simp only [step?, if_pos hc]
  rfl

theorem step?_comment :
    step? ⟨taken, afterValue, position, '/' :: '/' :: rest⟩ =
      some ⟨taken, afterValue, position.advance ('/' :: '/' :: rest.takeWhile (· ≠ '\n')),
        rest.dropWhile (· ≠ '\n')⟩ := by
  simp [step?, show isGap '/' = false from rfl]

theorem step?_token (hstart : StartsToken c (body ++ rest))
    (hscan : Lexeme.scan? afterValue c (body ++ rest) = some (l, body.length + 1)) :
    step? ⟨taken, afterValue, position, c :: (body ++ rest)⟩ =
      some ⟨taken ++ [⟨l, String.ofList (c :: body), position⟩], l.endsValue,
        position.advance (c :: body), rest⟩ := by
  simp only [step?, hstart.1, Bool.false_eq_true, if_false, if_neg hstart.2, hscan]
  simp

theorem step?_stuck (hstart : StartsToken c rest) (hscan : Lexeme.scan? afterValue c rest = none) :
    step? ⟨taken, afterValue, position, c :: rest⟩ = none := by
  simp only [step?, hstart.1, Bool.false_eq_true, if_false, if_neg hstart.2, hscan]
  rfl

/-- What stands in front of a reader: nothing, a blank, a comment, a token or a fault. -/
theorem rest_cases (afterValue : Bool) (cs : List Char) : cs = [] ∨
    (∃ c rest, cs = c :: rest ∧ isGap c = true) ∨
    (∃ rest, cs = '/' :: '/' :: rest) ∨
    (∃ c body tail l, cs = c :: (body ++ tail) ∧ StartsToken c (body ++ tail) ∧
      Lexeme.scan? afterValue c (body ++ tail) = some (l, body.length + 1) ∧
      ∀ cut, cut <+: tail →
        Lexeme.scan? afterValue c (body ++ cut) = some (l, body.length + 1)) ∨
    (∃ c rest, cs = c :: rest ∧ StartsToken c rest ∧ Lexeme.scan? afterValue c rest = none) := by
  cases cs with
  | nil => exact .inl rfl
  | cons c rest =>
    refine .inr ?_
    by_cases hblank : isGap c = true
    · exact .inl ⟨c, rest, rfl, hblank⟩
    · by_cases hcomment : c = '/' ∧ rest.head? = some '/'
      · obtain ⟨rfl, hhead⟩ := hcomment
        obtain ⟨text, rfl⟩ := List.head?_eq_some_iff.mp hhead
        exact .inr (.inl ⟨text, rfl⟩)
      · have hstart : StartsToken c rest := ⟨by simpa using hblank, hcomment⟩
        cases hscan : Lexeme.scan? afterValue c rest with
        | none => exact .inr (.inr (.inr ⟨c, rest, rfl, hstart, hscan⟩))
        | some found =>
          obtain ⟨l, width⟩ := found
          obtain ⟨body, tail, rfl, rfl, hcut⟩ := Lexeme.scan?_cut hscan
          exact .inr (.inr (.inl ⟨c, body, tail, l, rfl, hstart, hscan, hcut⟩))

/-- A step passes some characters, and passes them in the same way when the text behind them is
cut short. -/
theorem step?_cut {r r' : Reader} (h : r.step? = some r') :
    ∃ passed, passed ≠ [] ∧ r.rest = passed ++ r'.rest ∧
      r'.position = r.position.advance passed ∧
      ∀ cut, cut <+: r'.rest →
        step? { r with rest := passed ++ cut } = some { r' with rest := cut } := by
  obtain ⟨taken, afterValue, position, cs⟩ := r
  rcases rest_cases afterValue cs with rfl | ⟨c, rest, rfl, hc⟩ | ⟨rest, rfl⟩ |
    ⟨c, body, tail, l, rfl, hstart, hscan, hcut⟩ | ⟨c, rest, rfl, hstart, hscan⟩
  · cases h
  · cases (step?_blank hc).symm.trans h
    exact ⟨[c], by simp, rfl, rfl, fun cut _ => step?_blank hc⟩
  · cases step?_comment.symm.trans h
    refine ⟨'/' :: '/' :: rest.takeWhile (· ≠ '\n'), by simp, by simp, rfl, fun cut hcut => ?_⟩
    have hline : ∀ d ∈ rest.takeWhile (· ≠ '\n'), decide (d ≠ '\n') = true := by
      intro d hd
      simpa using List.mem_takeWhile_imp hd
    have hstop := (stopsAt_dropWhile (fun d => decide (d ≠ '\n')) rest).of_isPrefix hcut
    rw [List.cons_append, List.cons_append, step?_comment, takeWhile_append_of_stopsAt hline hstop,
      List.dropWhile_append_of_pos hline, hstop.dropWhile]
  · cases (step?_token hstart hscan).symm.trans h
    exact ⟨c :: body, by simp, rfl, rfl, fun cut hshort =>
      step?_token (hstart.cut hshort) (hcut cut hshort)⟩
  · rw [step?_stuck hstart hscan] at h
    cases h

/-- There is no step at the end of the text and in front of text that starts no token. -/
theorem cases_of_step?_eq_none {r : Reader} (h : r.step? = none) : r.rest = [] ∨
    ∃ c tail, r.rest = c :: tail ∧ StartsToken c tail ∧
      Lexeme.scan? r.afterValue c tail = none := by
  obtain ⟨taken, afterValue, position, cs⟩ := r
  rcases rest_cases afterValue cs with rfl | ⟨c, rest, rfl, hc⟩ | ⟨rest, rfl⟩ |
    ⟨c, body, tail, l, rfl, hstart, hscan, -⟩ | ⟨c, rest, rfl, hstart, hscan⟩
  · exact .inl rfl
  · cases (step?_blank hc).symm.trans h
  · cases step?_comment.symm.trans h
  · cases (step?_token hstart hscan).symm.trans h
  · exact .inr ⟨c, rest, rfl, hstart, hscan⟩

theorem step?_shorter {r r' : Reader} (h : r.step? = some r') : r'.rest.length < r.rest.length := by
  obtain ⟨passed, hne, hrest, -, -⟩ := step?_cut h
  have := List.length_pos_iff.mpr hne
  rw [hrest, List.length_append]
  omega

/-- The reader after all its steps. -/
def last (r : Reader) : Reader :=
  match _h : r.step? with
  | none => r
  | some r' => r'.last
termination_by r.rest.length
decreasing_by exact step?_shorter _h

theorem last_of_none {r : Reader} (h : r.step? = none) : r.last = r := by
  rw [last]
  split
  · rfl
  · next h' => rw [h] at h'; cases h'

theorem last_of_some {r r' : Reader} (h : r.step? = some r') : r.last = r'.last := by
  rw [last]
  split
  · next h' => rw [h] at h'; cases h'
  · next h' => rw [h] at h'; cases h'; rfl

/-- Steps come to an end, so what every step carries back holds of every reader. -/
theorem stepInduction {motive : Reader → Prop} (stuck : ∀ r, r.step? = none → motive r)
    (step : ∀ r r', r.step? = some r' → motive r' → motive r) (r : Reader) : motive r := by
  induction hn : r.rest.length using Nat.strong_induction_on generalizing r with
  | _ n ih =>
    cases h : r.step? with
    | none => exact stuck r h
    | some r' => exact step r r' h (ih _ (hn ▸ step?_shorter h) r' rfl)

theorem step?_last (r : Reader) : r.last.step? = none := by
  induction r using stepInduction with
  | stuck r h => rwa [last_of_none h]
  | step r r' h ih => rwa [last_of_some h]

/-- All the steps pass some characters, and pass them in the same way when the text behind them is
cut short. -/
theorem last_cut (r : Reader) : ∃ passed, r.rest = passed ++ r.last.rest ∧
    r.last.position = r.position.advance passed ∧
    ∀ cut, cut <+: r.last.rest →
      last { r with rest := passed ++ cut } = last { r.last with rest := cut } := by
  induction r using stepInduction with
  | stuck r h =>
    rw [last_of_none h]
    exact ⟨[], rfl, rfl, fun cut _ => rfl⟩
  | step r r' h ih =>
    obtain ⟨passed, -, hrest, hposition, hcut⟩ := step?_cut h
    obtain ⟨others, hrest', hposition', hcut'⟩ := ih
    rw [last_of_some h]
    refine ⟨passed ++ others, ?_, ?_, fun cut hshort => ?_⟩
    · rw [hrest, List.append_assoc, ← hrest']
    · rw [Position.advance_append, ← hposition, hposition']
    · have hkept : others ++ cut <+: r'.rest := by
        rw [hrest', List.prefix_append_right_inj]
        exact hshort
      rw [List.append_assoc, last_of_some (hcut _ hkept), hcut' cut hshort]

/-- What a reader that has come to its last step tells: its tokens and the end of input, or the
fault in front of it. -/
def outcome (r : Reader) : Except ScanError (List Token) :=
  if r.rest = [] then .ok (r.taken ++ [⟨.endOfInput, "", r.position⟩])
  else .error ⟨excerpt r.rest, r.position⟩

/-- The steps read what `ofChars` reads. -/
theorem outcome_last (r : Reader) :
    r.last.outcome = (r.taken ++ ·) <$> ofChars r.afterValue r.position r.rest := by
  induction r using stepInduction with
  | stuck r h =>
    rw [last_of_none h]
    rcases cases_of_step?_eq_none h with hend | ⟨c, tail, hrest, hstart, hscan⟩
    · rw [outcome, if_pos hend, hend, ofChars_nil]
      rfl
    · rw [outcome, if_neg (by simp [hrest]), hrest, ofChars_error hstart hscan]
      rfl
  | step r r' h ih =>
    rw [last_of_some h, ih]
    obtain ⟨taken, afterValue, position, cs⟩ := r
    rcases rest_cases afterValue cs with rfl | ⟨c, rest, rfl, hc⟩ | ⟨rest, rfl⟩ |
      ⟨c, body, tail, l, rfl, hstart, hscan, -⟩ | ⟨c, rest, rfl, hstart, hscan⟩
    · cases h
    · cases (step?_blank hc).symm.trans h
      rw [ofChars_blank hc]
      rfl
    · cases step?_comment.symm.trans h
      rw [ofChars_comment]
    · cases (step?_token hstart hscan).symm.trans h
      rw [ofChars_lexeme hstart hscan]
      cases ofChars l.endsValue (position.advance (c :: body)) tail with
      | error e => rfl
      | ok ts => simp [Functor.map, Except.map]
    · rw [step?_stuck hstart hscan] at h
      cases h

theorem outcome_start (source : String) : ofSource source = (start source).last.outcome := by
  rw [outcome_last, ofSource]
  cases hread : ofChars false .start source.toList with
  | error e => simp [start, hread, Functor.map, Except.map]
  | ok ts => simp [start, hread, Functor.map, Except.map]

/-- A reader that ends with a fault stands in front of text that starts no token. -/
theorem exists_fault {r : Reader} {error : ScanError} (h : r.last.outcome = .error error) :
    ∃ c tail, r.last.rest = c :: tail ∧ StartsToken c tail ∧
      Lexeme.scan? r.last.afterValue c tail = none ∧
      error = ⟨excerpt (c :: tail), r.last.position⟩ := by
  rcases cases_of_step?_eq_none (step?_last r) with hend | ⟨c, tail, hrest, hstart, hscan⟩
  · rw [outcome, if_pos hend] at h
    cases h
  · rw [outcome, if_neg (by simp [hrest]), hrest] at h
    cases h
    exact ⟨c, tail, hrest, hstart, hscan, rfl⟩

end Reader

end Token

open Token in
/-- A failed reading names the first text that is no token: the source can be cut there, and the
front has the tokens that were taken up to the fault, with the end of input at its place. -/
theorem tokenize_front_of_error {source : String} {failure : Failure}
    (h : tokenize source = .error failure) :
    ∃ error front c tail, failure = .scan error ∧
      (Reader.start source).last.rest = c :: tail ∧
      StartsToken c tail ∧ Lexeme.scan? (Reader.start source).last.afterValue c tail = none ∧
      error = ⟨excerpt (c :: tail), (Reader.start source).last.position⟩ ∧
      source = front ++ String.ofList (c :: tail) ∧
      front.utf8ByteSize = error.position.offset ∧
      tokenize front =
        .ok ((Reader.start source).last.taken ++ [⟨.endOfInput, "", error.position⟩]) := by
  obtain ⟨error, hread, rfl⟩ := mapError_eq_error h
  rw [Reader.outcome_start] at hread
  obtain ⟨c, tail, hrest, hstart, hscan, rfl⟩ := Reader.exists_fault hread
  obtain ⟨passed, hpassed, hposition, hcut⟩ := (Reader.start source).last_cut
  refine ⟨_, String.ofList passed, c, tail, rfl, hrest, hstart, hscan, rfl, ?_, ?_, ?_⟩
  · rw [← String.ofList_append, ← hrest, ← hpassed]
    exact String.ofList_toList.symm
  · have hbehind : (Reader.start source).last.position = .behind passed := by
      rw [hposition]
      exact Position.advance_behind [] passed
    simp only [hbehind, Position.behind]
  · have hfront : Reader.last { Reader.start source with rest := passed } =
        { (Reader.start source).last with rest := [] } := by
      have := hcut [] List.nil_prefix
      rwa [List.append_nil, Reader.last_of_none (r := ⟨_, _, _, []⟩) rfl] at this
    have hsame : Reader.start (String.ofList passed) =
        { Reader.start source with rest := passed } := by
      simp [Reader.start]
    rw [tokenize, Reader.outcome_start, hsame, hfront]
    rfl

/-- A numeral with a point and one with a mark behind it, both of which are looked at and left, and
then a string without an end. -/
theorem tokenize_front_of_error_sample :
    tokenize "x // ä\n2. 1e+\"k" = .error (.scan ⟨"\"k", ⟨14, 2, 7⟩⟩) ∧
      ∃ front rest, "x // ä\n2. 1e+\"k" = front ++ rest ∧ front.utf8ByteSize = 14 ∧
        tokenize front = .ok ((Token.Reader.start "x // ä\n2. 1e+\"k").last.taken ++
          [⟨.endOfInput, "", ⟨14, 2, 7⟩⟩]) := by
  have hread : Token.ofSource "x // ä\n2. 1e+\"k" = .error ⟨"\"k", ⟨14, 2, 7⟩⟩ := by
    decide +kernel
  have herror : tokenize "x // ä\n2. 1e+\"k" = .error (.scan ⟨"\"k", ⟨14, 2, 7⟩⟩) := by
    rw [tokenize, hread]
    rfl
  obtain ⟨error, front, c, tail, hfailure, -, -, -, -, hsource, hsize, hfront⟩ :=
    tokenize_front_of_error herror
  cases hfailure
  exact ⟨herror, front, _, hsource, hsize, hfront⟩

end Workflow
