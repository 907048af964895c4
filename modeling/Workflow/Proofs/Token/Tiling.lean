import Workflow.Compile
import Workflow.Proofs.Outcome
import Workflow.Proofs.Token.Gap

/-!
# Tokens tile their source

The source text of a list of tokens is their images, in order, with a gap in front of each and one
behind the last, so that nothing of it is lost. Positions are those that counting bytes, lines and
characters of the text in front gives. Each token is decided by its own image: the image alone is
read as that token.
-/

namespace Workflow

namespace Position

/-- The position behind a text, counted from the whole text: its bytes, its line feeds, and its
characters since the last of them. -/
def behind (text : List Char) : Position :=
  ⟨(String.ofList text).utf8ByteSize, 1 + text.count '\n',
    1 + (text.reverse.takeWhile (· ≠ '\n')).length⟩

theorem next_behind (text : List Char) (c : Char) : (behind text).next c = behind (text ++ [c]) := by
  have hsize : (String.ofList (text ++ [c])).utf8ByteSize =
      (String.ofList text).utf8ByteSize + c.utf8Size := by
    rw [String.ofList_append, String.utf8ByteSize_append, String.ofList_cons,
      String.utf8ByteSize_append, String.utf8ByteSize_singleton]
    rfl
  by_cases hc : c = '\n'
  · subst hc
    simp only [next, behind, hsize, if_pos, Position.mk.injEq, true_and]
    simp [Nat.add_assoc]
  · simp only [next, behind, hsize, if_neg hc, Position.mk.injEq, true_and]
    simp [hc, Nat.add_comm]

/-- Advancing character by character counts the whole text. -/
theorem advance_behind (before text : List Char) :
    (behind before).advance text = behind (before ++ text) := by
  induction text generalizing before with
  | nil => simp
  | cons c text ih => rw [advance_cons, next_behind, ih, List.append_assoc, List.singleton_append]

theorem behind_nil : behind [] = start := rfl

end Position

/-- The gap behind the last token: its last comment need not have an end. -/
def LastGap (cs : List Char) : Prop :=
  ∃ gap rest, cs = gap ++ rest ∧ Gap gap ∧ (rest = [] ∨ OpenComment rest)

/-- A text, behind some text `before`, is tiled by tokens: a gap and the image of the token, again
and again, and a last gap in front of the end of input. -/
inductive Tiling : (before text : List Char) → List Token → Prop where
  | stop {before gap : List Char} (hgap : LastGap gap) :
      Tiling before gap [⟨.endOfInput, "", .behind (before ++ gap)⟩]
  | token {before gap rest : List Char} {t : Token} {ts : List Token} (hgap : Gap gap)
      (hlexeme : t.lexeme ≠ .endOfInput) (hposition : t.position = .behind (before ++ gap))
      (hrest : Tiling (before ++ gap ++ t.image.toList) rest ts) :
      Tiling before (gap ++ t.image.toList ++ rest) (t :: ts)

namespace Token

/-- The image of a token is read as its lexeme in front of every text that could not belong to it,
where a value has or has not just ended. -/
def Scanned (afterValue : Bool) (t : Token) : Prop :=
  t.lexeme ≠ .endOfInput ∧ ∃ c body, t.image = String.ofList (c :: body) ∧
    ∀ more afterValue', (afterValue' = true → afterValue = true) →
      StopsAt t.lexeme.continuesWith more → StartsToken c (body ++ more) ∧
        Lexeme.scan? afterValue' c (body ++ more) = some (t.lexeme, body.length + 1)

/-- Tokens that are read one after the other, up to the end of input. -/
inductive Chain : (afterValue : Bool) → List Token → Prop where
  | stop (afterValue : Bool) (p : Position) : Chain afterValue [⟨.endOfInput, "", p⟩]
  | token {afterValue : Bool} {t : Token} {ts : List Token} (hscan : Scanned afterValue t)
      (hrest : Chain t.lexeme.endsValue ts) : Chain afterValue (t :: ts)

theorem ne_endOfInput_of_scan? {afterValue : Bool} {c : Char} {rest : List Char} {l : Lexeme}
    {width : Nat} (h : Lexeme.scan? afterValue c rest = some (l, width)) : l ≠ .endOfInput := by
  rcases Lexeme.scan?_cases h with ⟨-, _, _, -, rfl, -⟩ | ⟨-, _, _, _, -, -, rfl, -⟩ |
    ⟨-, _, -, rfl, -⟩ | ⟨-, rfl, -⟩ | ⟨-, hsymbol⟩
  · simp
  · simp
  · simp
  · unfold Lexeme.ofWord
    split <;> simp
  · rcases Lexeme.scanSymbol?_cases hsymbol with ⟨_, _, -, -, rfl, -⟩ | ⟨_, -, rfl, -⟩ <;> simp

/-- A slash is read as a sign of its own. -/
theorem scan?_slash {afterValue : Bool} {rest : List Char} {l : Lexeme} {width : Nat}
    (h : Lexeme.scan? afterValue '/' rest = some (l, width)) :
    l = .symbol .slash ∧ width = 1 := by
  rw [Lexeme.scan?_symbol (by decide) rfl] at h
  rcases Lexeme.scanSymbol?_cases h with ⟨_, _, -, hs, -, -⟩ | ⟨_, hs, rfl, rfl⟩
  · cases hs
  · cases hs
    exact ⟨rfl, rfl⟩

/-- Where a lexeme is read, its token is scanned, and the text goes on behind its image. -/
theorem exists_scanned {afterValue : Bool} {c : Char} {rest : List Char} {l : Lexeme} {width : Nat}
    (hstart : StartsToken c rest) (h : Lexeme.scan? afterValue c rest = some (l, width)) :
    ∃ body tail, rest = body ++ tail ∧ width = body.length + 1 ∧
      ∀ p, Scanned afterValue ⟨l, String.ofList (c :: body), p⟩ := by
  obtain ⟨body, tail, rfl, rfl, hagain⟩ := Lexeme.scan?_image h
  refine ⟨body, tail, rfl, rfl, fun p => ⟨ne_endOfInput_of_scan? h, c, body, rfl, ?_⟩⟩
  intro more afterValue' hav hmore
  refine ⟨⟨hstart.1, ?_⟩, hagain more afterValue' hav hmore⟩
  rintro ⟨rfl, hhead⟩
  obtain ⟨rfl, hwidth⟩ := scan?_slash h
  obtain rfl : body = [] := List.length_eq_zero_iff.mp (by omega)
  have := hmore '/' hhead
  simp [Lexeme.continuesWith] at this

/-- Reading tokens tiles the text. -/
theorem tiling_ofChars {afterValue : Bool} {before cs : List Char} {tokens : List Token}
    (h : ofChars afterValue (.behind before) cs = .ok tokens) :
    Tiling before cs tokens ∧ Chain afterValue tokens := by
  induction hn : cs.length using Nat.strong_induction_on generalizing afterValue before cs tokens
    with
  | _ n ih =>
    -- behind the gap the text ends, has a last comment, or goes on with a token
    obtain ⟨gap, rest, rfl, hgap, hrest⟩ := exists_gap cs
    rw [ofChars_gap hgap, Position.advance_behind] at h
    rcases hrest with rfl | hopen | ⟨c, tail, rfl, hstart⟩
    · rw [ofChars_nil] at h
      cases h
      refine ⟨?_, .stop _ _⟩
      rw [List.append_nil]
      exact .stop ⟨gap, [], by simp, hgap, .inl rfl⟩
    · rw [ofChars_openComment hopen, Position.advance_behind] at h
      cases h
      rw [List.append_assoc]
      exact ⟨.stop ⟨gap, rest, rfl, hgap, .inr hopen⟩, .stop _ _⟩
    · cases hscan : Lexeme.scan? afterValue c tail with
      | none => rw [ofChars_error hstart hscan] at h; cases h
      | some found =>
        obtain ⟨l, width⟩ := found
        obtain ⟨body, more, rfl, rfl, hscanned⟩ := exists_scanned hstart hscan
        rw [ofChars_lexeme hstart hscan, Position.advance_behind] at h
        obtain ⟨ts, hts, rfl⟩ := map_eq_ok.mp h
        obtain ⟨htiling, hchain⟩ := ih more.length (by simp at hn; omega) hts rfl
        refine ⟨?_, .token (hscanned _) hchain⟩
        have := Tiling.token (t := ⟨l, String.ofList (c :: body), .behind (before ++ gap)⟩)
          hgap (ne_endOfInput_of_scan? hscan) rfl (by simpa using htiling)
        simpa using this

theorem Chain.scanned {afterValue : Bool} {ts : List Token} (h : Chain afterValue ts) :
    ∀ t ∈ ts, t.lexeme ≠ .endOfInput → ∃ afterValue', Scanned afterValue' t := by
  induction h with
  | stop afterValue p =>
    intro t ht hne
    rw [List.mem_singleton.mp ht] at hne
    exact absurd rfl hne
  | @token afterValue u ts hscan _ ih =>
    intro t ht hne
    rcases List.mem_cons.mp ht with rfl | ht
    · exact ⟨afterValue, hscan⟩
    · exact ih t ht hne

/-- The end of input is the last token, and no other is. -/
theorem Chain.exists_stop {afterValue : Bool} {ts : List Token} (h : Chain afterValue ts) :
    ∃ w p, ts = w ++ [⟨.endOfInput, "", p⟩] ∧ ∀ t ∈ w, t.lexeme ≠ .endOfInput := by
  induction h with
  | stop afterValue p => exact ⟨[], p, rfl, List.forall_mem_nil _⟩
  | @token afterValue t ts hscan _ ih =>
    obtain ⟨w, p, rfl, hw⟩ := ih
    exact ⟨t :: w, p, rfl, List.forall_mem_cons.mpr ⟨hscan.1, hw⟩⟩

/-- A scanned token is read from its image in front of every text that could not belong to it. -/
theorem Scanned.ofChars_image {afterValue : Bool} {t : Token} (h : Scanned afterValue t)
    {afterValue' : Bool} (hav : afterValue' = true → afterValue = true) {rest : List Char}
    (hrest : StopsAt t.lexeme.continuesWith rest) (p : Position) :
    ofChars afterValue' p (t.image.toList ++ rest) = (⟨t.lexeme, t.image, p⟩ :: ·) <$>
      ofChars t.lexeme.endsValue (p.advance t.image.toList) rest := by
  obtain ⟨-, c, body, himage, hagain⟩ := h
  obtain ⟨hstart, hscan⟩ := hagain rest afterValue' hav hrest
  rw [himage, String.toList_ofList]
  exact ofChars_lexeme hstart hscan p

/-- The image of a token alone is read as that token. -/
theorem Scanned.ofSource_image {afterValue : Bool} {t : Token} (h : Scanned afterValue t) :
    ofSource t.image =
      .ok [⟨t.lexeme, t.image, .start⟩, ⟨.endOfInput, "", .behind t.image.toList⟩] := by
  have hread := h.ofChars_image Bool.false_ne_true.elim (stopsAt_nil _) .start
  rw [List.append_nil, ofChars_nil, ← Position.behind_nil, Position.advance_behind] at hread
  rw [ofSource, ← Position.behind_nil, hread]
  rfl

end Token

/-- The tokens of a source text tile it, and each of them is read from its image alone. -/
theorem tokenize_tiling {source : String} {tokens : List Token}
    (h : tokenize source = .ok tokens) :
    Tiling [] source.toList tokens ∧
      ∀ t ∈ tokens, t.lexeme ≠ .endOfInput → tokenize t.image =
        .ok [⟨t.lexeme, t.image, .start⟩, ⟨.endOfInput, "", .behind t.image.toList⟩] := by
  have hread : Token.ofChars false (.behind []) source.toList = .ok tokens := mapError_eq_ok.mp h
  obtain ⟨htiling, hchain⟩ := Token.tiling_ofChars hread
  refine ⟨htiling, fun t ht hne => ?_⟩
  obtain ⟨afterValue, hscanned⟩ := hchain.scanned t ht hne
  rw [tokenize, hscanned.ofSource_image]
  rfl

/-- A comment, a sign behind a value, and a character of two bytes. -/
theorem tokenize_tiling_sample : Tiling [] "x -1 // é\n\"é\" -1".toList
    [⟨.identifier "x", "x", ⟨0, 1, 1⟩⟩, ⟨.symbol .minus, "-", ⟨2, 1, 3⟩⟩,
      ⟨.number (.int 1), "1", ⟨3, 1, 4⟩⟩, ⟨.string "é", "\"é\"", ⟨11, 2, 1⟩⟩,
      ⟨.symbol .minus, "-", ⟨16, 2, 5⟩⟩, ⟨.number (.int 1), "1", ⟨17, 2, 6⟩⟩,
      ⟨.endOfInput, "", ⟨18, 2, 7⟩⟩] :=
  (tokenize_tiling (eq_ok_of_toOption (by decide +kernel))).1

end Workflow
