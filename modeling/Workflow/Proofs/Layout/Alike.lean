import Mathlib.Data.List.Forall2
import Workflow.Proofs.Build.Lookup
import Workflow.Proofs.Outcome
import Workflow.Report

/-!
# Alike up to positions

Tokens are alike if they differ at most in their positions, and so are trees. Two computations
agree if both succeed with results that are alike or both fail with faults that are reported alike.
-/

namespace Workflow

/-- A report without the position of the fault. -/
def Report.unplaced (r : Report) : Report := { r with position := none }

/-- Faults of token lists that are reported alike. -/
def Grammar.ParseError.Alike (e e' : Grammar.ParseError) : Prop :=
  (Report.ofParseError e).unplaced = (Report.ofParseError e').unplaced

/-- Faults of trees that are reported alike. -/
def BuildError.Alike (e e' : BuildError) : Prop :=
  (Report.ofBuildError e).unplaced = (Report.ofBuildError e').unplaced

/-- Tokens that differ at most in their positions. -/
def Token.Alike (t u : Token) : Prop := t.lexeme = u.lexeme ∧ t.image = u.image

/-- Lists of tokens that are alike one by one. -/
abbrev Alikes : List Token → List Token → Prop := List.Forall₂ Token.Alike

theorem head?_alike {s s' : List Token} (hs : Alikes s s') :
    (s.head? = none ∧ s'.head? = none) ∨
      ∃ t t', s.head? = some t ∧ s'.head? = some t' ∧ Token.Alike t t' := by
  cases hs with
  | nil => exact .inl ⟨rfl, rfl⟩
  | cons ht _ => exact .inr ⟨_, _, rfl, rfl, ht⟩

mutual

/-- Trees that differ at most in positions. -/
inductive Node.Alike : Node → Node → Prop where
  | mk {rule : Rule} {p p' : Position} {children children' : List Child}
      (h : List.Forall₂ Child.Alike children children') :
      Node.Alike (.mk rule p children) (.mk rule p' children')

/-- Children in the same slot that differ at most in positions. -/
inductive Child.Alike : Child → Child → Prop where
  | node {slot : Slot} {n m : Node} (h : Node.Alike n m) :
      Child.Alike (.node slot n) (.node slot m)
  | token {slot : Slot} {t u : Token} (h : Token.Alike t u) :
      Child.Alike (.token slot t) (.token slot u)

end

/-- Two outcomes agree: both are results that are related, or both are faults that are. -/
inductive Agree {ε α β : Type} (E : ε → ε → Prop) (R : α → β → Prop) :
    Except ε α → Except ε β → Prop where
  | ok {a : α} {b : β} (h : R a b) : Agree E R (.ok a) (.ok b)
  | error {e e' : ε} (h : E e e') : Agree E R (.error e) (.error e')

section

variable {ε α β γ δ : Type} {E : ε → ε → Prop} {R : α → β → Prop} {S : γ → δ → Prop}
  {x : Except ε α} {y : Except ε β}

theorem Agree.bind {f : α → Except ε γ} {g : β → Except ε δ} (h : Agree E R x y)
    (hfg : ∀ a b, R a b → Agree E S (f a) (g b)) : Agree E S (x >>= f) (y >>= g) := by
  cases h with
  | ok h => exact hfg _ _ h
  | error h => exact .error h

theorem Agree.refl (hE : ∀ e, E e e) (x : Except ε α) : Agree E Eq x x := by
  cases x with
  | ok a => exact .ok rfl
  | error e => exact .error (hE e)

theorem Agree.mapError {η : Type} {F : η → η → Prop} {f : ε → η} (h : Agree E R x y)
    (hf : ∀ e e', E e e' → F (f e) (f e')) : Agree F R (x.mapError f) (y.mapError f) := by
  cases h with
  | ok h => exact .ok h
  | error h => exact .error (hf _ _ h)

theorem Agree.eq {x y : Except ε α} (h : Agree Eq Eq x y) : x = y := by
  cases h with
  | ok h => rw [h]
  | error h => rw [h]

theorem Agree.eq_ok {a : α} {y : Except ε α} (h : Agree E Eq (.ok a) y) : y = .ok a := by
  cases h with
  | ok h => rw [h]

theorem Agree.map {f : α → γ} {g : β → δ} (h : Agree E R x y)
    (hfg : ∀ a b, R a b → S (f a) (g b)) : Agree E S (f <$> x) (g <$> y) := by
  cases h with
  | ok h => exact .ok (hfg _ _ h)
  | error h => exact .error h

end

/-! ## Looking into trees -/

namespace Node

variable {n m : Node}

theorem Alike.rule_eq (h : n.Alike m) : n.rule = m.rule := by
  cases h with
  | mk h => rfl

theorem Alike.nodes (h : n.Alike m) (slot : Slot) :
    List.Forall₂ Node.Alike (n.nodes slot) (m.nodes slot) := by
  cases h with
  | mk h =>
    unfold Node.nodes Node.children
    induction h with
    | nil => exact .nil
    | cons hchild _ ih =>
      cases hchild with
      | @node s n m hnode =>
        by_cases hs : s = slot
        · simpa [hs] using ⟨hnode, ih⟩
        · simpa [hs] using ih
      | token htoken => exact ih

theorem Alike.tokens (h : n.Alike m) (slot : Slot) :
    Alikes (n.tokens slot) (m.tokens slot) := by
  cases h with
  | mk h =>
    unfold Node.tokens Node.children
    induction h with
    | nil => exact .nil
    | cons hchild _ ih =>
      cases hchild with
      | node hnode => exact ih
      | @token s t u htoken =>
        by_cases hs : s = slot
        · simpa [hs] using ⟨htoken, ih⟩
        · simpa [hs] using ih

theorem Alike.has (h : n.Alike m) (slot : Slot) : n.has slot = m.has slot := by
  cases h with
  | mk h =>
    unfold Node.has Node.children
    induction h with
    | nil => rfl
    | cons hchild _ ih =>
      rw [List.any_cons, List.any_cons, ih]
      cases hchild with
      | node hnode => rfl
      | token htoken => rfl

/-- A slot has a token in both trees or in neither. -/
theorem Alike.token? (h : n.Alike m) (slot : Slot) :
    (n.token? slot = none ∧ m.token? slot = none) ∨
      ∃ t t', n.token? slot = some t ∧ m.token? slot = some t' ∧ Token.Alike t t' :=
  head?_alike (h.tokens slot)

/-- A slot has a node in both trees or in neither. -/
theorem Alike.node? (h : n.Alike m) (slot : Slot) :
    (n.node? slot = none ∧ m.node? slot = none) ∨
      ∃ c c' hc hc', n.node? slot = some ⟨c, hc⟩ ∧ m.node? slot = some ⟨c', hc'⟩ ∧
        Node.Alike c c' := by
  have hnodes := h.nodes slot
  cases hn : n.nodes slot with
  | nil =>
    rw [hn, List.forall₂_nil_left_iff] at hnodes
    exact .inl ⟨node?_of_nodes_nil hn, node?_of_nodes_nil hnodes⟩
  | cons c rest =>
    rw [hn, List.forall₂_cons_left_iff] at hnodes
    obtain ⟨c', rest', hc, _, hm⟩ := hnodes
    obtain ⟨hlt, hnode⟩ := node?_of_nodes_cons hn
    obtain ⟨hlt', hnode'⟩ := node?_of_nodes_cons hm
    exact .inr ⟨c, c', hlt, hlt', hnode, hnode', hc⟩

theorem Alike.child? (h : n.Alike m) (slot : Slot) :
    (n.child? slot = none ∧ m.child? slot = none) ∨
      ∃ c c', n.child? slot = some c ∧ m.child? slot = some c' ∧ Node.Alike c c' := by
  unfold Node.child?
  obtain ⟨h, h'⟩ | ⟨c, c', _, _, h, h', hc⟩ := h.node? slot
  · exact .inl ⟨by rw [h]; rfl, by rw [h']; rfl⟩
  · exact .inr ⟨c, c', by rw [h]; rfl, by rw [h']; rfl, hc⟩

end Node

end Workflow
