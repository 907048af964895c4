import Workflow.Proofs.Layout.Alike
import Workflow.Proofs.Token.Tiling

/-!
# Texts in front of a delimiter

A delimiter ends every lexeme that can be read in front of it, and a line feed ends every comment
as well. So the tokens of a text stay the same when a delimiter and more follow it, and what
follows is read behind them, unless a comment at the end of the text takes it in.
-/

namespace Workflow

/-- Nothing, or a text that starts with a delimiter. -/
def Delimited (rest : List Char) : Prop := ∀ c ∈ rest.head?, c ∈ Lexeme.delimiters

theorem delimited_nil : Delimited [] := by
  intro c hc
  cases hc

theorem delimited_cons {c : Char} {rest : List Char} :
    Delimited (c :: rest) ↔ c ∈ Lexeme.delimiters := by
  simp [Delimited]

section

variable {p : Char → Bool} {rest : List Char}

theorem Delimited.stopsAt (h : Delimited rest) (hp : Lexeme.delimiters.all (!p ·) = true) :
    StopsAt p rest := by
  intro c hc
  simpa using List.all_eq_true.mp hp c (h c hc)

theorem takeWhile_append_rest (h : StopsAt p rest) (cs : List Char) :
    (cs ++ rest).takeWhile p = cs.takeWhile p := by
  induction cs with
  | nil => exact h.takeWhile
  | cons c cs ih => rw [List.cons_append, List.takeWhile_cons, List.takeWhile_cons, ih]

theorem dropWhile_append_rest (h : StopsAt p rest) (cs : List Char) :
    (cs ++ rest).dropWhile p = cs.dropWhile p ++ rest := by
  induction cs with
  | nil => exact h.dropWhile
  | cons c cs ih =>
    rw [List.cons_append, List.dropWhile_cons, List.dropWhile_cons, ih]
    split
    · rfl
    · rfl

end

namespace Numeral

variable {rest : List Char}

theorem Power.scan?_append_rest (h : Delimited rest) (cs : List Char) :
    Power.scan? (cs ++ rest) = Power.scan? cs := by
  have htake := takeWhile_append_rest (h.stopsAt (p := Decimal.isDigit) (by decide))
  have hsigns : StopsAt (fun s => s = '+' ∨ s = '-') rest := h.stopsAt (by decide)
  cases cs with
  | nil => exact Power.scan?_of_stopsAt (h.stopsAt (by decide))
  | cons mark cs =>
    cases cs with
    | nil =>
      have hnone : rest.takeWhile Decimal.isDigit = [] := htake []
      cases rest with
      | nil => rfl
      | cons d rest =>
        have hsign : ¬ (d = '+' ∨ d = '-') := of_decide_eq_false (stopsAt_cons.mp hsigns)
        simp only [List.cons_append, List.nil_append, Power.scan?, hsign, if_false, hnone]
        rfl
    | cons s r =>
      by_cases hs : s = '+' ∨ s = '-'
      · simp only [List.cons_append, Power.scan?, hs, if_true, htake]
      · have hwhole := htake (s :: r)
        rw [List.cons_append] at hwhole
        simp only [List.cons_append, Power.scan?, hs, if_false, hwhole]

/-- Behind the whole digits. -/
theorem scan_zero_append_rest (h : Delimited rest) (tail : List Char) :
    scan ('0' :: (tail ++ rest)) = scan ('0' :: tail) := by
  have hstop : StopsAt Decimal.isDigit rest := h.stopsAt (by decide)
  have htake := takeWhile_append_rest hstop
  by_cases hdot : ∃ r, tail = '.' :: r ∧ r.takeWhile Decimal.isDigit ≠ []
  · obtain ⟨r, rfl, hr⟩ := hdot
    rw [List.cons_append, scan_zero_fraction hr, scan_zero_fraction (by rwa [htake]), htake,
      dropWhile_append_rest hstop, Power.scan?_append_rest h]
  · have hnone : ∀ r, tail = '.' :: r → r.takeWhile Decimal.isDigit = [] :=
      fun r hr => Classical.byContradiction fun h => hdot ⟨r, hr, h⟩
    rw [scan_zero_of_no_fraction hnone, scan_zero_of_no_fraction, Power.scan?_append_rest h]
    intro r hr
    cases tail with
    | nil =>
      have hpoint : StopsAt (· = '.') rest := h.stopsAt (by decide)
      rw [show rest = '.' :: r from hr] at hpoint
      cases stopsAt_cons.mp hpoint
    | cons c tail =>
      cases hr
      exact (htake tail).trans (hnone tail rfl)

theorem scan_digit_append_rest (h : Delimited rest) {c : Char} (hc : Decimal.isDigit c = true)
    (cs : List Char) : scan (c :: (cs ++ rest)) = scan (c :: cs) := by
  by_cases hzero : c = '0'
  · rw [hzero, scan_zero_append_rest h]
  · -- the digits stand in front of something that is none
    have hdigit : StopsAt Decimal.isDigit rest := h.stopsAt (by decide)
    have hsplit := (List.takeWhile_append_dropWhile (p := Decimal.isDigit) (l := c :: cs)).symm
    have hstop := stopsAt_dropWhile Decimal.isDigit (c :: cs)
    have hwhole : RegularWhole ((c :: cs).takeWhile Decimal.isDigit) :=
      .inr ⟨by simp [hc], by simp [hc, hzero], fun d hd => List.mem_takeWhile_imp hd⟩
    have hbehind := stopsAt_dropWhile Decimal.isDigit (c :: cs ++ rest)
    rw [dropWhile_append_rest hdigit] at hbehind
    rw [← List.cons_append, hsplit, List.append_assoc, scan_whole_append hwhole hbehind,
      scan_whole_append hwhole hstop, scan_zero_append_rest h]

end Numeral

namespace Lexeme

variable {rest : List Char}

theorem startsNumeral_append_rest (h : Delimited rest) (afterValue : Bool) (c : Char)
    (cs : List Char) : startsNumeral afterValue c (cs ++ rest) = startsNumeral afterValue c cs := by
  have hdigit : StopsAt Decimal.isDigit rest := h.stopsAt (by decide)
  cases cs with
  | nil =>
    cases rest with
    | nil => rfl
    | cons d rest => simp [startsNumeral, stopsAt_cons.mp hdigit]
  | cons d cs => rfl

theorem scan_append_rest (h : Delimited rest) {afterValue : Bool} {c : Char} {cs : List Char}
    (hstart : startsNumeral afterValue c cs = true) :
    Numeral.scan (c :: (cs ++ rest)) = Numeral.scan (c :: cs) := by
  simp only [startsNumeral, Bool.or_eq_true, Bool.and_eq_true, decide_eq_true_eq] at hstart
  rcases hstart with hc | ⟨⟨rfl, hd⟩, _⟩
  · exact Numeral.scan_digit_append_rest h hc cs
  · cases cs with
    | nil => simp at hd
    | cons d cs =>
      have hdigit : Decimal.isDigit d = true := by simpa using hd
      have hsign : d ≠ '-' := by
        rintro rfl
        exact absurd hdigit (by decide)
      rw [List.cons_append, Numeral.scan_minus (by simpa using hsign),
        Numeral.scan_minus (by simpa using hsign), Numeral.scan_digit_append_rest h hdigit]

theorem scanSymbol?_append_rest (h : Delimited rest) (c : Char) (cs : List Char) :
    scanSymbol? c (cs ++ rest) = scanSymbol? c cs := by
  have hassign : StopsAt (· = '=') rest := h.stopsAt (by decide)
  cases cs with
  | nil =>
    cases rest with
    | nil => rfl
    | cons d rest => simp [scanSymbol?, doubleSymbol?, of_decide_eq_false (stopsAt_cons.mp hassign)]
  | cons d cs => rfl

theorem class_of_scanSymbol? {c : Char} {rest : List Char} {l : Lexeme} {width : Nat}
    (h : scanSymbol? c rest = some (l, width)) :
    c ≠ '"' ∧ c ≠ '$' ∧ Decimal.isDigit c = false ∧ Text.isWordStart c = false := by
  rcases scanSymbol?_cases h with ⟨s, _, _, hs, _, _⟩ | ⟨s, hs, _, _⟩
  · exact (doubleSymbol?_class hs).2.2
  · exact class_of_mem_symbolChars c (mem_symbolChars_of_singleSymbol? hs)

/-- A lexeme in front of a delimiter does not depend on what follows. -/
theorem scan?_append_rest (hrest : Delimited rest) {afterValue : Bool} {c : Char} {cs : List Char}
    {l : Lexeme} {width : Nat} (h : scan? afterValue c cs = some (l, width)) :
    scan? afterValue c (cs ++ rest) = some (l, width) := by
  rcases scan?_cases h with ⟨rfl, chars, k, hbody, rfl, rfl⟩ |
    ⟨rfl, inner, k, tail, rfl, hbody, rfl, rfl⟩ | ⟨hstart, n, hn, rfl, rfl⟩ | ⟨hword, rfl, rfl⟩ |
    ⟨hstart, hsymbol⟩
  · obtain ⟨body, tail, rfl, _, hagain⟩ := stringBody?_split hbody
    rw [scan?_string, List.append_assoc, hagain]
    rfl
  · obtain ⟨hinner, rfl, tail, rfl⟩ := expressionBody?_split hbody
    rw [List.cons_append, List.append_assoc, List.cons_append, scan?_expression,
      expressionBody?_append hinner]
    rfl
  · have hagain : startsNumeral afterValue c (cs ++ rest) = true := by
      rw [startsNumeral_append_rest hrest, hstart]
    rw [scan?_numeral hagain, scan_append_rest hrest hstart, hn]
    rfl
  · rw [scan?_word hword, takeWhile_append_rest (hrest.stopsAt (by decide))]
  · have hagain : startsNumeral afterValue c (cs ++ rest) = false := by
      rw [startsNumeral_append_rest hrest, hstart]
    rw [scan?_symbol (class_of_scanSymbol? hsymbol) hagain, scanSymbol?_append_rest hrest, hsymbol]

end Lexeme

theorem StartsToken.append_rest {c : Char} {cs rest : List Char} (h : StartsToken c cs)
    (hrest : Delimited rest) : StartsToken c (cs ++ rest) := by
  refine ⟨h.1, ?_⟩
  rintro ⟨rfl, hhead⟩
  cases cs with
  | nil => exact absurd (hrest '/' hhead) (by decide)
  | cons d cs => exact h.2 ⟨rfl, hhead⟩

/-- With a line feed behind it, a comment is complete. -/
theorem OpenComment.gap {cs : List Char} (h : OpenComment cs) : Gap (cs ++ ['\n']) := by
  obtain ⟨body, hbody, rfl⟩ := h
  exact .comment hbody .nil

theorem OpenComment.append {cs rest : List Char} (h : OpenComment cs)
    (hrest : ∀ c ∈ rest, c ≠ '\n') : OpenComment (cs ++ rest) := by
  obtain ⟨body, hbody, rfl⟩ := h
  exact ⟨body ++ rest, List.forall_mem_append.mpr ⟨hbody, hrest⟩, rfl⟩

namespace Token

theorem map_append_nil (x : Except LexError (List Token)) : x = (([] : List Token) ++ ·) <$> x := by
  cases x <;> rfl

/-- The tokens of a text in front of its end of input are also read in front of a delimiter, from
every position. Behind them stands at most a comment that may go on. -/
theorem ofChars_append_rest {afterValue : Bool} {p : Position} {cs : List Char}
    {tokens : List Token} (h : ofChars afterValue p cs = .ok tokens) :
    ∃ w stop afterValue' last, tokens = w ++ [⟨.endOfInput, "", stop⟩] ∧
      (∀ t ∈ w, t.lexeme ≠ .endOfInput) ∧ (last = [] ∨ OpenComment last) ∧
      ∀ q rest, Delimited rest → ∃ w' r, Alikes w w' ∧ (q = p → w' = w) ∧
        ofChars afterValue q (cs ++ rest) =
          (w' ++ ·) <$> ofChars afterValue' r (last ++ rest) := by
  induction hn : cs.length using Nat.strong_induction_on generalizing afterValue p cs tokens with
  | _ n ih =>
    obtain ⟨gap, tail, rfl, hgap, htail⟩ := exists_gap cs
    rw [ofChars_gap hgap] at h
    rcases htail with rfl | hopen | ⟨c, cs, rfl, hstart⟩
    · rw [ofChars_nil] at h
      cases h
      refine ⟨[], _, afterValue, [], rfl, List.forall_mem_nil _, .inl rfl, fun q rest _ => ?_⟩
      refine ⟨[], q.advance gap, .nil, fun _ => rfl, ?_⟩
      rw [List.append_nil, ofChars_gap hgap]
      exact map_append_nil _
    · rw [ofChars_openComment hopen] at h
      cases h
      refine ⟨[], _, afterValue, tail, rfl, List.forall_mem_nil _, .inr hopen, fun q rest _ => ?_⟩
      refine ⟨[], q.advance gap, .nil, fun _ => rfl, ?_⟩
      rw [List.append_assoc, ofChars_gap hgap]
      exact map_append_nil _
    · cases hscan : Lexeme.scan? afterValue c cs with
      | none =>
        rw [ofChars_error hstart hscan] at h
        cases h
      | some found =>
        obtain ⟨l, width⟩ := found
        obtain ⟨body, tail, rfl, rfl, _⟩ := Lexeme.scan?_image hscan
        rw [ofChars_lexeme hstart hscan] at h
        obtain ⟨ts, hts, rfl⟩ := map_eq_ok.mp h
        obtain ⟨w, stop, afterValue', last, rfl, hw, hlast, hread⟩ :=
          ih tail.length (by simp at hn; omega) hts rfl
        refine ⟨⟨l, String.ofList (c :: body), p.advance gap⟩ :: w, stop, afterValue', last, rfl,
          List.forall_mem_cons.mpr ⟨ne_endOfInput_of_scan? hscan, hw⟩, hlast,
          fun q rest hrest => ?_⟩
        obtain ⟨w', r, halike, hsame, hread⟩ :=
          hread ((q.advance gap).advance (c :: body)) rest hrest
        refine ⟨⟨l, String.ofList (c :: body), q.advance gap⟩ :: w', r, .cons ⟨rfl, rfl⟩ halike,
          ?_, ?_⟩
        · rintro rfl
          rw [hsame rfl]
        · have hagain := Lexeme.scan?_append_rest hrest hscan
          have hstart' := hstart.append_rest hrest
          rw [List.append_assoc] at hagain hstart'
          rw [List.append_assoc, ofChars_gap hgap, List.cons_append, List.append_assoc,
            ofChars_lexeme hstart' hagain, hread]
          cases ofChars afterValue' r (last ++ rest) <;> rfl

/-- The tokens of a text in front of its end of input are also read with a line feed and another
text behind, and then the other text is. -/
theorem ofChars_newline {afterValue : Bool} {p : Position} {cs : List Char} {tokens : List Token}
    (h : ofChars afterValue p cs = .ok tokens) (more : List Char) :
    ∃ w stop afterValue' q, tokens = w ++ [⟨.endOfInput, "", stop⟩] ∧
      (∀ t ∈ w, t.lexeme ≠ .endOfInput) ∧
      ofChars afterValue p (cs ++ '\n' :: more) = (w ++ ·) <$> ofChars afterValue' q more := by
  obtain ⟨w, stop, afterValue', last, htokens, hw, hlast, hread⟩ := ofChars_append_rest h
  obtain ⟨w', r, _, hsame, hread⟩ := hread p ('\n' :: more) (delimited_cons.mpr (by decide))
  rw [hsame rfl] at hread
  have hgap : Gap (last ++ ['\n']) := by
    rcases hlast with rfl | hopen
    · exact .blank (by decide) .nil
    · exact hopen.gap
  refine ⟨w, stop, afterValue', r.advance (last ++ ['\n']), htokens, hw, ?_⟩
  rw [hread, List.append_cons, ofChars_gap hgap]

end Token

end Workflow
