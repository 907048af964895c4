import Mathlib.Data.List.Forall2
import Workflow.Proofs.Token.Written

/-!
# Quoting and reading strings

The rules by which a string is quoted are stated apart from the function that quotes it: the
characters that have a letter of their own, the other characters below the space, and the rest. They
leave one quoted form for each string, and that form is read as the string.
-/

namespace Workflow

namespace Text

/-- The characters that are quoted by a letter behind a backslash, each with its letter. -/
def letterEscapes : List (Char × Char) :=
  [('"', '"'), ('\\', '\\'), ('\x08', 'b'), ('\x0c', 'f'), ('\n', 'n'), ('\r', 'r'), ('\t', 't')]

/-- The hexadecimal digits in the order of their values. -/
def lowerHexDigits : List Char := "0123456789abcdef".toList

/-- The ways in which one character is written between quotes. -/
inductive Escapes : Char → List Char → Prop where
  | letter {c e : Char} (hmem : (c, e) ∈ letterEscapes) : Escapes c ['\\', e]
  | code {c high low : Char} (hlow : c.toNat < 0x20) (hmem : c ∉ letterEscapes.map Prod.fst)
      (hhigh : lowerHexDigits[c.toNat / 16]? = some high)
      (hrest : lowerHexDigits[c.toNat % 16]? = some low) :
      Escapes c ['\\', 'u', '0', '0', high, low]
  | plain {c : Char} (hlow : 0x20 ≤ c.toNat) (hmem : c ∉ letterEscapes.map Prod.fst) :
      Escapes c [c]

/-- A text is a string between double quotes, written character by character. -/
def Quotes (s text : String) : Prop :=
  ∃ written, List.Forall₂ Escapes s.toList written ∧
    text.toList = '"' :: (written.flatten ++ ['"'])

theorem escape_letter : ∀ pair ∈ letterEscapes, escape pair.1 = ['\\', pair.2] :=
  List.all_iff_forall_prop.mp (by decide)

theorem escape_of_not_mem {c : Char} (h : c ∉ letterEscapes.map Prod.fst) :
    escape c = if c.toNat < 0x20 then '\\' :: 'u' :: hexDigits .lower 4 c.toNat else [c] := by
  simp only [letterEscapes, List.map_cons, List.map_nil, List.mem_cons, List.not_mem_nil, or_false,
    not_or] at h
  obtain ⟨hquote, hbackslash, hback, hfeed, hbreak, hreturn, htab⟩ := h
  simp only [escape, hquote, hbackslash, hback, hfeed, hbreak, hreturn, htab, if_false]

/-- The number of a character below the space has two digits that matter. -/
theorem hexDigits_of_lt {n : Nat} {high low : Char} (hn : n < 0x20)
    (hhigh : lowerHexDigits[n / 16]? = some high) (hlow : lowerHexDigits[n % 16]? = some low) :
    hexDigits .lower 4 n = ['0', '0', high, low] := by
  have htable : ∀ n < 0x20, (hexDigits .lower 4 n).map some =
      [some '0', some '0', lowerHexDigits[n / 16]?, lowerHexDigits[n % 16]?] := by decide
  refine List.map_injective_iff.mpr (fun _ _ => Option.some.inj) ?_
  rw [htable n hn, hhigh, hlow]
  rfl

theorem Escapes.eq_escape {c : Char} {text : List Char} (h : Escapes c text) : text = escape c := by
  cases h with
  | letter hmem => exact (escape_letter _ hmem).symm
  | code hlow hmem hhigh hrest =>
    rw [escape_of_not_mem hmem, if_pos hlow, hexDigits_of_lt hlow hhigh hrest]
  | plain hlow hmem => rw [escape_of_not_mem hmem, if_neg (Nat.not_lt.mpr hlow)]

/-- The rules give every character a form. -/
theorem exists_escapes (c : Char) : ∃ text, Escapes c text := by
  by_cases hmem : c ∈ letterEscapes.map Prod.fst
  · obtain ⟨⟨c, e⟩, hpair, rfl⟩ := List.mem_map.mp hmem
    exact ⟨_, .letter hpair⟩
  · by_cases hlow : c.toNat < 0x20
    · have hlength : lowerHexDigits.length = 16 := by decide
      exact ⟨_, .code hlow hmem (List.getElem?_eq_getElem (by omega))
        (List.getElem?_eq_getElem (by omega))⟩
    · exact ⟨_, .plain (Nat.not_lt.mp hlow) hmem⟩

theorem escapes_iff {c : Char} {text : List Char} : Escapes c text ↔ text = escape c := by
  refine ⟨Escapes.eq_escape, ?_⟩
  rintro rfl
  obtain ⟨text, h⟩ := exists_escapes c
  exact h.eq_escape ▸ h

theorem forall₂_escapes_iff {cs : List Char} {written : List (List Char)} :
    List.Forall₂ Escapes cs written ↔ written = cs.map escape := by
  have hrel : Escapes = fun c text => escape c = text := by
    funext c text
    exact propext (escapes_iff.trans eq_comm)
  rw [hrel, ← List.forall₂_map_left_iff, List.forall₂_eq_eq_eq, eq_comm]

/-- The rules leave one quoted form for each string. -/
theorem quotes_iff {s text : String} : Quotes s text ↔ text = quote s := by
  have hquote : (quote s).toList = '"' :: ((s.toList.map escape).flatten ++ ['"']) := by
    rw [quote, String.toList_ofList, quoteChars, List.flatMap_def]
  rw [Quotes, ← String.toList_inj, hquote]
  constructor
  · rintro ⟨written, hwritten, htext⟩
    rw [htext, forall₂_escapes_iff.mp hwritten]
  · exact fun htext => ⟨_, forall₂_escapes_iff.mpr rfl, htext⟩

end Text

/-- Quoting a string by the rules gives one text, and that text is a single token whose value is the
string. -/
theorem tokenize_quote (s : String) :
    (∀ text, Text.Quotes s text ↔ text = Text.quote s) ∧
      tokenize (Text.quote s) = .ok [⟨.string s, Text.quote s, .start⟩,
        ⟨.endOfInput, "", .behind (Text.quote s).toList⟩] := by
  refine ⟨fun _ => Text.quotes_iff, ?_⟩
  rw [tokenize, (Token.scanned_quote s .start).ofSource_image]
  rfl

end Workflow
