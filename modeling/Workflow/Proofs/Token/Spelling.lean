import Workflow.Proofs.Layout.Alike
import Workflow.Proofs.Token.Written

/-!
# Spelling token by token

A text spells tokens if reading it gives them, up to positions, in front of every text that could
not belong to the last one. Spellings are put together token by token, so that the text of a
compound is read as the tokens of its parts.
-/

namespace Workflow

open Token

/-- Whether a character could belong to the last of some tokens. -/
def lastContinues (ts : List Token) : Char → Bool :=
  (ts.getLast?.map (·.lexeme.continuesWith)).getD fun _ => false

/-- Whether a value ends with the last of some tokens. -/
def lastEndsValue (ts : List Token) : Bool :=
  (ts.getLast?.map (·.lexeme.endsValue)).getD false

/-- A text is read as tokens, in front of every text that could not belong to the last of them. Where
a value has just ended this holds only if `afterValue` says so. -/
structure Spelled (afterValue : Bool) (cs : List Char) (ts : List Token) : Prop where
  chars_ne_nil : cs ≠ []
  tokens_ne_nil : ts ≠ []
  reads : ∀ afterValue' p rest, (afterValue' = true → afterValue = true) →
    StopsAt (lastContinues ts) rest → ∃ ts' q, Alikes ts ts' ∧
      ofChars afterValue' p (cs ++ rest) =
        (ts' ++ ·) <$> ofChars (lastEndsValue ts) q rest

section

variable {afterValue afterValue' : Bool} {c : Char} {cs ds : List Char} {t : Token}
  {ts us : List Token}

theorem lastContinues_append (h : us ≠ []) : lastContinues (ts ++ us) = lastContinues us := by
  obtain ⟨u, hu⟩ := Option.ne_none_iff_exists'.mp (List.getLast?_eq_none_iff.not.mpr h)
  rw [lastContinues, lastContinues, List.getLast?_append, hu]
  rfl

theorem lastEndsValue_append (h : us ≠ []) : lastEndsValue (ts ++ us) = lastEndsValue us := by
  obtain ⟨u, hu⟩ := Option.ne_none_iff_exists'.mp (List.getLast?_eq_none_iff.not.mpr h)
  rw [lastEndsValue, lastEndsValue, List.getLast?_append, hu]
  rfl

theorem map_append_map (ts us : List Token) (x : Except LexError (List Token)) :
    (ts ++ ·) <$> (us ++ ·) <$> x = ((ts ++ us) ++ ·) <$> x := by
  cases x with
  | error e => rfl
  | ok others => simp [Functor.map, Except.map]

/-- A token spells itself. -/
theorem spelled_token (h : Scanned afterValue t) : Spelled afterValue t.image.toList [t] := by
  refine ⟨?_, List.cons_ne_nil _ _, fun afterValue' p rest hav hrest => ?_⟩
  · obtain ⟨-, c, body, himage, -⟩ := h
    rw [himage, String.toList_ofList]
    exact List.cons_ne_nil _ _
  · exact ⟨[⟨t.lexeme, t.image, p⟩], _, .cons ⟨rfl, rfl⟩ .nil, h.ofChars_image hav hrest p⟩

theorem Spelled.mono (h : Spelled true cs ts) : Spelled afterValue cs ts :=
  ⟨h.chars_ne_nil, h.tokens_ne_nil, fun afterValue' p rest _ =>
    h.reads afterValue' p rest fun _ => rfl⟩

/-- A blank may stand in front. -/
theorem Spelled.blank (h : Spelled afterValue cs ts) : Spelled afterValue (' ' :: cs) ts := by
  refine ⟨List.cons_ne_nil _ _, h.tokens_ne_nil, fun afterValue' p rest hav hrest => ?_⟩
  obtain ⟨ts', q, halike, hread⟩ := h.reads afterValue' (p.next ' ') rest hav hrest
  exact ⟨ts', q, halike, by rw [List.cons_append, ofChars_blank (by decide), hread]⟩

/-- Spellings are put together where the second could not belong to the first. -/
theorem Spelled.append (h : Spelled afterValue cs ts) (h' : Spelled afterValue' ds us)
    (hstop : StopsAt (lastContinues ts) ds) (hav : lastEndsValue ts = true → afterValue' = true) :
    Spelled afterValue (cs ++ ds) (ts ++ us) := by
  refine ⟨by simp [h.chars_ne_nil], by simp [h.tokens_ne_nil], fun a p rest ha hrest => ?_⟩
  -- what stops the first spelling is the first character of the second
  obtain ⟨d, ds', rfl⟩ := List.exists_cons_of_ne_nil h'.chars_ne_nil
  rw [lastContinues_append h'.tokens_ne_nil] at hrest
  have hstop' : StopsAt (lastContinues ts) (d :: ds' ++ rest) :=
    stopsAt_cons.mpr (stopsAt_cons.mp hstop)
  obtain ⟨ts', q, hts, hread⟩ := h.reads a p (d :: ds' ++ rest) ha hstop'
  obtain ⟨us', r, hus, hread'⟩ := h'.reads (lastEndsValue ts) q rest hav hrest
  refine ⟨ts' ++ us', r, List.rel_append hts hus, ?_⟩
  rw [List.append_assoc, hread, hread', lastEndsValue_append h'.tokens_ne_nil, map_append_map]

/-- A token in front of a spelling. -/
theorem Spelled.cons (ht : Scanned afterValue t) (h : Spelled afterValue' ds us)
    (hstop : StopsAt t.lexeme.continuesWith ds)
    (hav : t.lexeme.endsValue = true → afterValue' = true) :
    Spelled afterValue (t.image.toList ++ ds) (t :: us) :=
  (spelled_token ht).append h hstop hav

/-- What stands behind a spelling may be missing. -/
theorem Spelled.append_optional (h : Spelled afterValue cs ts)
    (h' : (ds = [] ∧ us = []) ∨ Spelled true ds us) (hstop : StopsAt (lastContinues ts) ds) :
    Spelled afterValue (cs ++ ds) (ts ++ us) := by
  obtain ⟨rfl, rfl⟩ | h' := h'
  · rw [List.append_nil, List.append_nil]
    exact h
  · exact h.append h' hstop fun _ => rfl

theorem lastContinues_of_mem_delimiters (hc : c ∈ Lexeme.delimiters) (ts : List Token) :
    lastContinues ts c = false := by
  rw [lastContinues]
  cases ts.getLast? with
  | none => rfl
  | some t => exact Lexeme.continuesWith_of_mem_delimiters hc t.lexeme

theorem stopsAt_of_mem_delimiters (hc : c ∈ Lexeme.delimiters) (ts : List Token)
    (rest : List Char) : StopsAt (lastContinues ts) (c :: rest) :=
  stopsAt_cons.mpr (lastContinues_of_mem_delimiters hc ts)

/-- A text that spells tokens is read as them to its end. -/
theorem Spelled.ofSource {s : String} (h : Spelled false s.toList ts) :
    ∃ ts' p, Alikes ts ts' ∧ ofSource s = .ok (ts' ++ [⟨.endOfInput, "", p⟩]) := by
  obtain ⟨ts', q, halike, hread⟩ := h.reads false .start [] id (stopsAt_nil _)
  refine ⟨ts', q, halike, ?_⟩
  rw [Token.ofSource, ← List.append_nil s.toList, hread, ofChars_nil]
  rfl

end

end Workflow
