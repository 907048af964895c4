import Workflow.Proofs.Token.Continuation
import Workflow.Proofs.Token.Spelling

/-!
# Spelling in front of delimiters

Every text that is read, and has no comment at its end, is read as the same tokens in front of a
delimiter. What is behind it need not stop its last token only: in `1.` the point is a token of its
own, but with a digit behind it there would be one number. So these texts are put together where
delimiters separate them, and a sign that closes them makes them a spelling.
-/

namespace Workflow

open Token

/-- A text is read as tokens, in front of nothing and of every delimiter. Where a value has just
ended this holds only if `afterValue` says so. -/
structure Bounded (afterValue : Bool) (cs : List Char) (ts : List Token) : Prop where
  chars_ne_nil : cs ≠ []
  reads : ∀ afterValue' p rest, (afterValue' = true → afterValue = true) → Delimited rest →
    ∃ ts' a q, Alikes ts ts' ∧
      ofChars afterValue' p (cs ++ rest) = (ts' ++ ·) <$> ofChars a q rest

section

variable {afterValue afterValue' : Bool} {cs ds : List Char} {t : Token} {ts us : List Token}

theorem Delimited.stopsAt_lastContinues (h : Delimited cs) (ts : List Token) :
    StopsAt (lastContinues ts) cs :=
  fun c hc => lastContinues_of_mem_delimiters (h c hc) ts

theorem Delimited.append_of_ne_nil (h : Delimited cs) (hne : cs ≠ []) (ds : List Char) :
    Delimited (cs ++ ds) := by
  cases cs with
  | nil => exact absurd rfl hne
  | cons c cs => exact delimited_cons.mpr (delimited_cons.mp h)

/-- Where no value has just ended, nothing else has to be shown. -/
theorem bounded_of_forall (hne : cs ≠ []) (h : ∀ p rest, Delimited rest → ∃ ts' a q, Alikes ts ts' ∧
    ofChars false p (cs ++ rest) = (ts' ++ ·) <$> ofChars a q rest) : Bounded false cs ts := by
  refine ⟨hne, fun a p rest ha hrest => ?_⟩
  cases a with
  | false => exact h p rest hrest
  | true => exact absurd (ha rfl) Bool.false_ne_true

theorem Spelled.bounded (h : Spelled afterValue cs ts) : Bounded afterValue cs ts := by
  refine ⟨h.chars_ne_nil, fun a p rest ha hrest => ?_⟩
  obtain ⟨ts', q, halike, hread⟩ := h.reads a p rest ha (hrest.stopsAt_lastContinues ts)
  exact ⟨ts', _, q, halike, hread⟩

/-- A blank may stand in front. -/
theorem Bounded.blank (h : Bounded afterValue cs ts) : Bounded afterValue (' ' :: cs) ts := by
  refine ⟨List.cons_ne_nil _ _, fun a p rest ha hrest => ?_⟩
  obtain ⟨ts', b, q, halike, hread⟩ := h.reads a (p.next ' ') rest ha hrest
  exact ⟨ts', b, q, halike, by rw [List.cons_append, ofChars_blank (by decide), hread]⟩

/-- What is put together starts with a delimiter in its second part. -/
theorem Bounded.append (h : Bounded afterValue cs ts) (h' : Bounded true ds us)
    (hds : Delimited ds) : Bounded afterValue (cs ++ ds) (ts ++ us) := by
  refine ⟨by simp [h.chars_ne_nil], fun a p rest ha hrest => ?_⟩
  obtain ⟨ts', b, q, hts, hread⟩ := h.reads a p (ds ++ rest) ha
    (hds.append_of_ne_nil h'.chars_ne_nil rest)
  obtain ⟨us', b', r, hus, hread'⟩ := h'.reads b q rest (fun _ => rfl) hrest
  refine ⟨ts' ++ us', b', r, List.rel_append hts hus, ?_⟩
  rw [List.append_assoc, hread, hread', map_append_map]

/-- A spelling behind it ends the text for every rest. -/
theorem Bounded.append_spelled (h : Bounded afterValue cs ts) (h' : Spelled true ds us)
    (hds : Delimited ds) : Spelled afterValue (cs ++ ds) (ts ++ us) := by
  refine ⟨by simp [h.chars_ne_nil], by simp [h'.tokens_ne_nil], fun a p rest ha hrest => ?_⟩
  obtain ⟨ts', b, q, hts, hread⟩ := h.reads a p (ds ++ rest) ha
    (hds.append_of_ne_nil h'.chars_ne_nil rest)
  rw [lastContinues_append h'.tokens_ne_nil] at hrest
  obtain ⟨us', r, hus, hread'⟩ := h'.reads b q rest (fun _ => rfl) hrest
  refine ⟨ts' ++ us', r, List.rel_append hts hus, ?_⟩
  rw [List.append_assoc, hread, hread', map_append_map, lastEndsValue_append h'.tokens_ne_nil]

/-- A token in front. -/
theorem Bounded.cons (ht : Scanned afterValue t) (h : Bounded afterValue' ds us)
    (hstop : StopsAt t.lexeme.continuesWith ds)
    (hav : t.lexeme.endsValue = true → afterValue' = true) :
    Bounded afterValue (t.image.toList ++ ds) (t :: us) := by
  refine ⟨by simp [h.chars_ne_nil], fun a p rest ha hrest => ?_⟩
  obtain ⟨d, ds, rfl⟩ := List.exists_cons_of_ne_nil h.chars_ne_nil
  have hstop' : StopsAt t.lexeme.continuesWith (d :: ds ++ rest) :=
    stopsAt_cons.mpr (stopsAt_cons.mp hstop)
  obtain ⟨us', b, q, hus, hread⟩ := h.reads t.lexeme.endsValue (p.advance t.image.toList) rest hav
    hrest
  refine ⟨⟨t.lexeme, t.image, p⟩ :: us', b, q, .cons ⟨rfl, rfl⟩ hus, ?_⟩
  rw [List.append_assoc, ht.ofChars_image ha hstop', hread]
  exact map_append_map [_] us' _

/-- What stands behind may be missing. -/
theorem Bounded.append_optional (h : Bounded afterValue cs ts)
    (h' : (ds = [] ∧ us = []) ∨ Bounded true ds us) (hds : Delimited ds) :
    Bounded afterValue (cs ++ ds) (ts ++ us) := by
  obtain ⟨rfl, rfl⟩ | h' := h'
  · rw [List.append_nil, List.append_nil]
    exact h
  · exact h.append h' hds

/-- The text alone is read as the tokens to its end. -/
theorem Bounded.ofSource {s : String} (h : Bounded false s.toList ts) :
    ∃ ts' p, Alikes ts ts' ∧ ofSource s = .ok (ts' ++ [⟨.endOfInput, "", p⟩]) := by
  obtain ⟨ts', a, q, halike, hread⟩ := h.reads false .start [] id delimited_nil
  refine ⟨ts', q, halike, ?_⟩
  rw [Token.ofSource, ← List.append_nil s.toList, hread, ofChars_nil]
  rfl

end

end Workflow
