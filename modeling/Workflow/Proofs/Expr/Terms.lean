import Workflow.Proofs.Build.Expression
import Workflow.Proofs.Expr.Occurrence
import Workflow.Proofs.Fields

/-!
# The terms of expressions

What is inside an expression is inside an operand of one of its terms. So a property of all terms,
at every depth, is told from the terms of an expression and the expressions directly inside them,
and each operand of an expression that is built comes from a phrase of an operand.
-/

namespace Workflow

/-- The terms of an expression, in order. -/
def Expr.terms : Expr → List Term
  | .mk head tail => head :: tail.map Prod.snd

/-- What a term is about, without its operator. -/
def Term.operand : Term → Operand
  | .mk _ operand => operand

/-- The expressions directly inside an operand. -/
def Operand.inner : Operand → List Expr
  | .list items => items
  | .map entries => entries.map Prod.snd
  | .call _ args => args
  | .paren inner => [inner]
  | .primitive _ | .reference _ => []

/-! ## Parts -/

theorem Expr.forall_mem_allParts {P : Expr → Prop} {items : List Expr} :
    (∀ part ∈ Expr.allParts items, P part) ↔ ∀ e ∈ items, ∀ part ∈ e.parts, P part := by
  induction items with
  | nil => simp [Expr.allParts]
  | cons e rest ih => rw [Expr.allParts, List.forall_mem_append, List.forall_mem_cons, ih]

theorem Expr.forall_mem_entryParts {P : Expr → Prop} {entries : List (String × Expr)} :
    (∀ part ∈ Expr.entryParts entries, P part) ↔
      ∀ entry ∈ entries, ∀ part ∈ entry.2.parts, P part := by
  induction entries with
  | nil => simp [Expr.entryParts]
  | cons entry rest ih => rw [Expr.entryParts, List.forall_mem_append, List.forall_mem_cons, ih]

theorem Operand.forall_mem_parts {P : Expr → Prop} {o : Operand} :
    (∀ part ∈ o.parts, P part) ↔ ∀ e ∈ o.inner, ∀ part ∈ e.parts, P part := by
  cases o with
  | primitive p => simp [Operand.parts, Operand.inner]
  | list items => exact Expr.forall_mem_allParts
  | map entries =>
    rw [Operand.inner, List.forall_mem_map]
    exact Expr.forall_mem_entryParts
  | reference text => simp [Operand.parts, Operand.inner]
  | call name args => exact Expr.forall_mem_allParts
  | paren e => rw [Operand.inner, List.forall_mem_singleton, Operand.parts]

theorem Expr.forall_mem_parts {P : Expr → Prop} {e : Expr} :
    (∀ part ∈ e.parts, P part) ↔
      P e ∧ ∀ t ∈ e.terms, ∀ inner ∈ t.operand.inner, ∀ part ∈ inner.parts, P part := by
  have hterm (t : Term) : (∀ part ∈ t.parts, P part) ↔
      ∀ inner ∈ t.operand.inner, ∀ part ∈ inner.parts, P part := by
    cases t
    exact Operand.forall_mem_parts
  obtain ⟨head, tail⟩ := e
  have htail : (∀ part ∈ Expr.tailParts tail, P part) ↔
      ∀ pair ∈ tail, ∀ part ∈ pair.2.parts, P part := by
    induction tail with
    | nil => simp [Expr.tailParts]
    | cons pair rest ih => rw [Expr.tailParts, List.forall_mem_append, List.forall_mem_cons, ih]
  rw [Expr.parts, List.forall_mem_cons, List.forall_mem_append, htail, Expr.terms,
    List.forall_mem_cons, List.forall_mem_map, hterm]
  simp only [hterm]

theorem Expr.mem_parts_self (e : Expr) : e ∈ e.parts := by
  cases e
  exact List.mem_cons_self

theorem Operand.sizeOf_inner {o : Operand} {e : Expr} (h : e ∈ o.inner) : sizeOf e < sizeOf o := by
  cases o with
  | primitive p => cases h
  | list items =>
    have : sizeOf e < sizeOf items := List.sizeOf_lt_of_mem h
    simp only [Operand.list.sizeOf_spec]
    omega
  | map entries =>
    obtain ⟨⟨key, value⟩, hentry, rfl⟩ := List.mem_map.mp h
    have := List.sizeOf_lt_of_mem hentry
    simp only [Operand.map.sizeOf_spec, Prod.mk.sizeOf_spec] at this ⊢
    omega
  | reference text => cases h
  | call name args =>
    have : sizeOf e < sizeOf args := List.sizeOf_lt_of_mem h
    simp only [Operand.call.sizeOf_spec]
    omega
  | paren inner =>
    cases List.mem_singleton.mp h
    simp only [Operand.paren.sizeOf_spec]
    omega

theorem Expr.sizeOf_operand {e : Expr} {t : Term} (h : t ∈ e.terms) :
    sizeOf t.operand < sizeOf e := by
  obtain ⟨head, tail⟩ := e
  obtain ⟨unary, operand⟩ := t
  rcases List.mem_cons.mp h with rfl | h
  · simp only [Term.operand, Expr.mk.sizeOf_spec, Term.mk.sizeOf_spec]
    omega
  · obtain ⟨⟨op, t⟩, hpair, rfl⟩ := List.mem_map.mp h
    have := List.sizeOf_lt_of_mem hpair
    simp only [Term.operand, Expr.mk.sizeOf_spec, Prod.mk.sizeOf_spec, Term.mk.sizeOf_spec]
      at this ⊢
    omega

/-- What holds of an expression if it holds of those directly inside its terms holds of all. -/
theorem Expr.inner_induction {P : Expr → Prop}
    (step : ∀ e : Expr, (∀ t ∈ e.terms, ∀ inner ∈ t.operand.inner, P inner) → P e) (e : Expr) :
    P e := by
  refine step e fun t ht inner hinner => ?_
  have := Nat.lt_trans (Operand.sizeOf_inner hinner) (Expr.sizeOf_operand ht)
  exact Expr.inner_induction step inner
termination_by sizeOf e

/-- What is inside a part of an expression is inside the expression. -/
theorem Expr.mem_parts_trans {e part inner : Expr} (h : part ∈ e.parts)
    (hinner : inner ∈ part.parts) : inner ∈ e.parts := by
  induction e using Expr.inner_induction generalizing part with
  | step e ih =>
    have hsub : ∀ part ∈ e.parts, part ∈ e.parts := fun _ h => h
    have hsub := (Expr.forall_mem_parts.mp hsub).2
    refine Expr.forall_mem_parts (P := fun part => inner ∈ part.parts → inner ∈ e.parts) |>.mpr
      ⟨id, fun t ht e' he' part hpart hinner => ?_⟩ part h hinner
    exact hsub t ht e' he' inner (ih t ht e' he' hpart hinner)

/-! ## A property of all terms -/

section

variable {P : Term → Prop}

/-- Every term of an expression has a property, at every depth. -/
def Expr.EachTerm (P : Term → Prop) (e : Expr) : Prop :=
  ∀ part ∈ e.parts, ∀ t ∈ part.terms, P t

theorem Expr.eachTerm_iff {e : Expr} : e.EachTerm P ↔
    ∀ t ∈ e.terms, P t ∧ ∀ inner ∈ t.operand.inner, inner.EachTerm P := by
  rw [Expr.EachTerm, Expr.forall_mem_parts]
  constructor
  · exact fun h t ht => ⟨h.1 t ht, h.2 t ht⟩
  · exact fun h => ⟨fun t ht => (h t ht).1, fun t ht => (h t ht).2⟩

theorem Expr.eachTerm_ofOperand {o : Operand} : (Expr.ofOperand o).EachTerm P ↔
    P (.mk none o) ∧ ∀ inner ∈ o.inner, inner.EachTerm P := by
  rw [Expr.eachTerm_iff]
  exact List.forall_mem_singleton

theorem Expr.EachTerm.of_mem_parts {e part : Expr} (h : e.EachTerm P) (hpart : part ∈ e.parts) :
    part.EachTerm P :=
  fun _ hinner => h _ (Expr.mem_parts_trans hpart hinner)

end

/-! ## Operands that are built -/

namespace Phrase

variable {P : Workflow.Operand → Prop}

/-- Whatever is built from an operand among tokens has a property. -/
def EachBuilt (P : Workflow.Operand → Prop) (tokens : List Token) : Prop :=
  ∀ d : Operand, d.tokens <:+: tokens → ∀ o, d.built = .ok o → P o

namespace EachBuilt

variable {t : Token} {ts us : List Token}

theorem tail (h : EachBuilt P (t :: ts)) : EachBuilt P ts :=
  fun d hd => h d (List.infix_cons hd)

theorem append_left (h : EachBuilt P (ts ++ us)) : EachBuilt P ts :=
  fun d hd => h d (hd.trans (List.prefix_append ts us).isInfix)

theorem append_right (h : EachBuilt P (ts ++ us)) : EachBuilt P us :=
  fun d hd => h d (hd.trans (List.suffix_append ts us).isInfix)

end EachBuilt

mutual

/-- Each operand of an expression is built from an operand among its tokens. -/
theorem Expression.eachTerm_built (d : Expression) (h : EachBuilt P d.tokens) {e : Expr}
    (hb : d.built = .ok e) : e.EachTerm (P ·.operand) := by
  match d with
  | .mk head tail =>
    rw [Expression.tokens] at h
    rw [Expression.built] at hb
    obtain ⟨first, hfirst, hb⟩ := bind_eq_ok.mp hb
    obtain ⟨others, hothers, hb⟩ := bind_eq_ok.mp hb
    cases hb
    rw [Expr.eachTerm_iff, Expr.terms, List.forall_mem_cons, List.forall_mem_map]
    exact ⟨head.eachTerm_built h.append_left hfirst, tail.eachTerm_built h.append_right hothers⟩

theorem Operations.eachTerm_built (d : Operations) (h : EachBuilt P d.tokens)
    {tail : List (BinaryOp × Workflow.Term)} (hb : d.built = .ok tail) :
    ∀ pair ∈ tail, P pair.2.operand ∧
      ∀ inner ∈ pair.2.operand.inner, inner.EachTerm (P ·.operand) := by
  match d with
  | .nil =>
    cases hb
    exact List.forall_mem_nil _
  | .cons operator term rest =>
    rw [Operations.tokens] at h
    rw [Operations.built] at hb
    obtain ⟨first, hfirst, hb⟩ := bind_eq_ok.mp hb
    obtain ⟨others, hothers, hb⟩ := bind_eq_ok.mp hb
    cases hb
    exact List.forall_mem_cons.mpr ⟨term.eachTerm_built h.tail.append_left hfirst,
      rest.eachTerm_built h.tail.append_right hothers⟩

theorem Term.eachTerm_built (d : Term) (h : EachBuilt P d.tokens) {t : Workflow.Term}
    (hb : d.built = .ok t) :
    P t.operand ∧ ∀ inner ∈ t.operand.inner, inner.EachTerm (P ·.operand) := by
  match d with
  | .plain operand =>
    rw [Term.tokens] at h
    rw [Term.built] at hb
    obtain ⟨o, ho, hb⟩ := bind_eq_ok.mp hb
    cases hb
    exact ⟨h operand List.infix_rfl o ho, operand.eachTerm_built h ho⟩
  | .unary operator operand =>
    rw [Term.tokens] at h
    rw [Term.built] at hb
    obtain ⟨o, ho, hb⟩ := bind_eq_ok.mp hb
    cases hb
    exact ⟨h.tail operand List.infix_rfl o ho, operand.eachTerm_built h.tail ho⟩

theorem Operand.eachTerm_built (d : Operand) (h : EachBuilt P d.tokens) {o : Workflow.Operand}
    (hb : d.built = .ok o) : ∀ inner ∈ o.inner, inner.EachTerm (P ·.operand) := by
  match d with
  | .literal value =>
    cases hb
    exact List.forall_mem_nil _
  | .array start items =>
    rw [Operand.built] at hb
    obtain ⟨found, hfound, hb⟩ := bind_eq_ok.mp hb
    cases hb
    exact items.eachTerm_built h.tail hfound
  | .object start entries =>
    rw [Operand.built] at hb
    obtain ⟨pairs, hpairs, hb⟩ := bind_eq_ok.mp hb
    cases hb
    have hall := entries.eachTerm_built h.tail hpairs
    rw [Operand.inner, List.forall_mem_map]
    exact fun entry hentry => hall entry (Fields.mem_of_mem_ofPairs hentry)
  | .paren start inner stop =>
    rw [Operand.tokens] at h
    rw [Operand.built] at hb
    obtain ⟨e, he, hb⟩ := bind_eq_ok.mp hb
    cases hb
    exact List.forall_mem_singleton.mpr (inner.eachTerm_built h.tail.append_left he)
  | .expression token =>
    cases hb
    exact List.forall_mem_nil _
  | .reference place =>
    rw [Operand.built] at hb
    obtain ⟨parts, _, hb⟩ := bind_eq_ok.mp hb
    cases hb
    exact List.forall_mem_nil _
  | .call name start args =>
    rw [Operand.tokens] at h
    rw [Operand.built] at hb
    obtain ⟨found, hfound, hb⟩ := bind_eq_ok.mp hb
    cases hb
    exact args.eachTerm_built h.append_right.tail hfound

theorem Arguments.eachTerm_built (d : Arguments) (h : EachBuilt P d.tokens) {items : List Expr}
    (hb : d.built = .ok items) : ∀ e ∈ items, e.EachTerm (P ·.operand) := by
  match d with
  | .last value =>
    rw [Arguments.tokens] at h
    rw [Arguments.built] at hb
    obtain ⟨e, he, hb⟩ := bind_eq_ok.mp hb
    cases hb
    exact List.forall_mem_singleton.mpr (value.eachTerm_built h he)
  | .cons value comma rest =>
    rw [Arguments.tokens] at h
    rw [Arguments.built] at hb
    obtain ⟨e, he, hb⟩ := bind_eq_ok.mp hb
    obtain ⟨others, hothers, hb⟩ := bind_eq_ok.mp hb
    cases hb
    exact List.forall_mem_cons.mpr ⟨value.eachTerm_built h.append_left he,
      rest.eachTerm_built h.append_right.tail hothers⟩

theorem ArgumentsUpTo.eachTerm_built {close : Symbol} (d : ArgumentsUpTo close)
    (h : EachBuilt P d.tokens) {items : List Expr} (hb : d.built = .ok items) :
    ∀ e ∈ items, e.EachTerm (P ·.operand) := by
  match d with
  | .none stop =>
    cases hb
    exact List.forall_mem_nil _
  | .some args stop =>
    rw [ArgumentsUpTo.tokens] at h
    exact args.eachTerm_built h.append_left hb

theorem Entries.eachTerm_built (d : Entries) (h : EachBuilt P d.tokens)
    {pairs : List (String × Expr)} (hb : d.built = .ok pairs) :
    ∀ pair ∈ pairs, pair.2.EachTerm (P ·.operand) := by
  match d with
  | .last key colon value =>
    rw [Entries.tokens] at h
    rw [Entries.built] at hb
    obtain ⟨e, he, hb⟩ := bind_eq_ok.mp hb
    cases hb
    exact List.forall_mem_singleton.mpr (value.eachTerm_built h.tail.tail he)
  | .cons key colon value comma rest =>
    rw [Entries.tokens] at h
    rw [Entries.built] at hb
    obtain ⟨e, he, hb⟩ := bind_eq_ok.mp hb
    obtain ⟨others, hothers, hb⟩ := bind_eq_ok.mp hb
    cases hb
    have hvalue := h.tail.tail
    exact List.forall_mem_cons.mpr ⟨value.eachTerm_built hvalue.append_left he,
      rest.eachTerm_built hvalue.append_right.tail hothers⟩

theorem EntriesUpTo.eachTerm_built (d : EntriesUpTo) (h : EachBuilt P d.tokens)
    {pairs : List (String × Expr)} (hb : d.built = .ok pairs) :
    ∀ pair ∈ pairs, pair.2.EachTerm (P ·.operand) := by
  match d with
  | .none stop =>
    cases hb
    exact List.forall_mem_nil _
  | .some entries stop =>
    rw [EntriesUpTo.tokens] at h
    exact entries.eachTerm_built h.append_left hb

end

end Phrase

end Workflow
