import Workflow.Proofs.Outcome
import Workflow.Proofs.Grammar.Phrase

/-!
# What a reading reads

`Reads x a r` says that the reading `x` succeeds with `a` and leaves `r`. Each way to build a
reading has a rule that says when it reads, and these rules take a reading apart from either side.
-/

namespace Workflow.Grammar

open Phrase

variable {α β : Type} {k : Terminal} {stop : Position} {q r s : List Token} {a : α} {b : β}

/-- A reading of `s` succeeds with `a` and leaves `r`. -/
def Reads (x : Except ParseError (Read α s)) (a : α) (r : List Token) : Prop :=
  ∃ h, x = .ok ⟨a, r, h⟩

/-- A reading of `s`, perhaps of nothing, succeeds with `a` and leaves `r`. -/
def ReadsSome (x : Except ParseError (ReadSome α s)) (a : α) (r : List Token) : Prop :=
  ∃ h, x = .ok ⟨a, r, h⟩

theorem Reads.shorter {x : Except ParseError (Read α s)} (h : Reads x a r) : Shorter r s := h.1

theorem ReadsSome.notLonger {x : Except ParseError (ReadSome α s)} (h : ReadsSome x a r) :
    NotLonger r s := h.1

theorem reads_of_eq_ok {x : Except ParseError (Read α s)} {y : Read α s} (h : x = .ok y) :
    Reads x y.value y.rest :=
  ⟨y.shorter, h⟩

@[simp] theorem reads_ok {x : Read α s} :
    Reads (.ok x) a r ↔ x.value = a ∧ x.rest = r := by
  constructor
  · rintro ⟨_, h⟩
    cases h
    exact ⟨rfl, rfl⟩
  · rintro ⟨rfl, rfl⟩
    exact ⟨x.shorter, rfl⟩

@[simp] theorem reads_pure {x : Read α s} :
    Reads (pure x) a r ↔ x.value = a ∧ x.rest = r := reads_ok

@[simp] theorem readsSome_ok {x : ReadSome α s} :
    ReadsSome (.ok x) a r ↔ x.value = a ∧ x.rest = r := by
  constructor
  · rintro ⟨_, h⟩
    cases h
    exact ⟨rfl, rfl⟩
  · rintro ⟨rfl, rfl⟩
    exact ⟨x.notLonger, rfl⟩

@[simp] theorem readsSome_pure {x : ReadSome α s} :
    ReadsSome (pure x) a r ↔ x.value = a ∧ x.rest = r := readsSome_ok

@[simp] theorem not_reads_error (e : ParseError) :
    ¬ Reads (.error e : Except ParseError (Read α s)) a r := by
  rintro ⟨_, h⟩
  cases h

/-- What a chain reads, its first part reads some of. -/
theorem reads_bind {x : Except ParseError (Read α s)}
    {f : Read α s → Except ParseError (Read β s)} :
    Reads (x >>= f) b q ↔ ∃ a r, ∃ h : Reads x a r, Reads (f ⟨a, r, h.shorter⟩) b q := by
  constructor
  · rintro ⟨hq, h⟩
    obtain ⟨⟨a, r, hr⟩, hx, hf⟩ := bind_eq_ok.mp h
    exact ⟨a, r, ⟨hr, hx⟩, hq, hf⟩
  · rintro ⟨a, r, ⟨hr, hx⟩, hq, hf⟩
    exact ⟨hq, bind_eq_ok.mpr ⟨_, hx, hf⟩⟩

theorem readsSome_bind {x : Except ParseError (Read α s)}
    {f : Read α s → Except ParseError (ReadSome β s)} :
    ReadsSome (x >>= f) b q ↔ ∃ a r, ∃ h : Reads x a r, ReadsSome (f ⟨a, r, h.shorter⟩) b q := by
  constructor
  · rintro ⟨hq, h⟩
    obtain ⟨⟨a, r, hr⟩, hx, hf⟩ := bind_eq_ok.mp h
    exact ⟨a, r, ⟨hr, hx⟩, hq, hf⟩
  · rintro ⟨a, r, ⟨hr, hx⟩, hq, hf⟩
    exact ⟨hq, bind_eq_ok.mpr ⟨_, hx, hf⟩⟩

@[simp] theorem reads_after {h : Shorter r s} {x : Except ParseError (Read α r)} :
    Reads (after h x) a q ↔ Reads x a q := by
  constructor
  · rintro ⟨_, hx⟩
    obtain ⟨y, rfl, hy⟩ := map_eq_ok.mp hx
    cases hy
    exact ⟨y.shorter, rfl⟩
  · rintro ⟨hq, rfl⟩
    exact ⟨hq.trans h, rfl⟩

@[simp] theorem reads_afterSome {h : Shorter r s} {x : Except ParseError (ReadSome α r)} :
    Reads (afterSome h x) a q ↔ ReadsSome x a q := by
  constructor
  · rintro ⟨_, hx⟩
    obtain ⟨y, rfl, hy⟩ := map_eq_ok.mp hx
    cases hy
    exact ⟨y.notLonger, rfl⟩
  · rintro ⟨hq, rfl⟩
    exact ⟨hq.trans_shorter h, rfl⟩

/-! ## Single tokens -/

@[simp] theorem accept?_tok (t : Tok k) (r : List Token) :
    accept? k (t.val :: r) = some ⟨t.val, r, shorter_cons t.val r⟩ := by
  simp [accept?, t.property]

theorem accept?_eq_none_iff : accept? k s = none ↔ ∀ t ∈ s.head?, k.accepts t.lexeme = false := by
  cases s with
  | nil => simp [accept?]
  | cons t rest => simp [accept?]

/-- Either a token of a class comes first or none is read. -/
theorem accept?_cases (k : Terminal) (s : List Token) :
    accept? k s = none ∨ ∃ (t : Tok k) (r : List Token), s = t.val :: r := by
  cases s with
  | nil => exact .inl rfl
  | cons t r =>
    by_cases h : k.accepts t.lexeme = true
    · exact .inr ⟨⟨t, h⟩, r, rfl⟩
    · exact .inl (by simp [accept?, h])

@[simp] theorem reads_expect {t : Token} :
    Reads (expect stop k s) t r ↔ k.accepts t.lexeme = true ∧ s = t :: r := by
  constructor
  · rintro ⟨_, h⟩
    rw [expect] at h
    obtain hnone | ⟨u, q, rfl⟩ := accept?_cases k s
    · rw [hnone] at h
      cases h
    · rw [accept?_tok] at h
      cases h
      exact ⟨u.property, rfl⟩
  · rintro ⟨ht, rfl⟩
    refine ⟨shorter_cons t r, ?_⟩
    rw [expect, accept?_tok ⟨t, ht⟩ r]

/-- The position of tokens that do not run out. -/
theorem here_append {ts : List Token} (h : ts ≠ []) (r : List Token) :
    here stop (ts ++ r) = place ts := by
  cases ts with
  | nil => exact absurd rfl h
  | cons t ts => rfl

@[simp] theorem here_cons (t : Token) (r : List Token) : here stop (t :: r) = t.position := rfl

end Workflow.Grammar
