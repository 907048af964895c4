import Workflow.Proofs.Expr.Lowering
import Workflow.Proofs.Expr.Parsing
import Workflow.Proofs.Expr.Plain
import Workflow.Proofs.Expr.Sign
import Workflow.Proofs.Expr.Terms

/-!
# Texts inside texts

A reference and an expression literal are kept as texts, and the text of an expression has them as
they are, without parentheses. So the whole is read as the expression with the terms and operators
of these texts in their places: an operator in front of a text goes to its first term only, and the
text stays one operand exactly if it has no operators between terms.
-/

namespace Workflow

open Token

/-- The operator in front of a term. -/
def Term.operator? : Term → Option UnaryOp
  | .mk unary _ => unary

/-! ## Splicing -/

mutual

/-- What an expression becomes when the texts that it keeps are read in their places. -/
inductive Expr.SplicedTo : Expr → Expr → Prop where
  | mk {head first : Term} {tail own others : List (BinaryOp × Term)}
      (hhead : Term.SplicedTo head (.mk first own)) (htail : Expr.TailSplicedTo tail others) :
      Expr.SplicedTo (.mk head tail) (.mk first (own ++ others))

/-- Terms behind operators, each with the terms and operators of its text. -/
inductive Expr.TailSplicedTo : List (BinaryOp × Term) → List (BinaryOp × Term) → Prop where
  | nil : Expr.TailSplicedTo [] []
  | cons {op : BinaryOp} {t first : Term} {rest own others : List (BinaryOp × Term)}
      (h : Term.SplicedTo t (.mk first own)) (hrest : Expr.TailSplicedTo rest others) :
      Expr.TailSplicedTo ((op, t) :: rest) ((op, first) :: (own ++ others))

/-- An operator in front goes to the first operand. -/
inductive Term.SplicedTo : Term → Expr → Prop where
  | plain {o : Operand} {e : Expr} (h : Operand.SplicedTo o e) : Term.SplicedTo (.mk none o) e
  | unary {op : UnaryOp} {o first : Operand} {t : Term} {own : List (BinaryOp × Term)}
      (h : Operand.SplicedTo o (.mk (.mk none first) own)) (hop : op.Joined first t) :
      Term.SplicedTo (.mk (some op) o) (.mk t own)

/-- A text becomes the expression that it is, and any other operand stays an operand. A
floating-point number becomes the number that its text is. -/
inductive Operand.SplicedTo : Operand → Expr → Prop where
  | primitive {p : Primitive} (h : ∀ x, p ≠ .number (.float x)) :
      Operand.SplicedTo (.primitive p) (.ofOperand (.primitive p))
  | float {x : Binary64} {n : Number}
      (h : Expr.ofText? (Number.float x).text = some (.ofOperand (.primitive (.number n)))) :
      Operand.SplicedTo (.primitive (.number (.float x))) (.ofOperand (.primitive (.number n)))
  | list {items items' : List Expr} (h : List.Forall₂ Expr.SplicedTo items items') :
      Operand.SplicedTo (.list items) (.ofOperand (.list items'))
  | map {entries entries' : List (String × Expr)}
      (hnames : Fields.names entries' = Fields.names entries)
      (h : List.Forall₂ Expr.SplicedTo (entries.map Prod.snd) (entries'.map Prod.snd)) :
      Operand.SplicedTo (.map entries) (.ofOperand (.map entries'))
  | reference {text : String} {e : Expr} (h : Expr.ofText? text = some e) :
      Operand.SplicedTo (.reference text) e
  | call {name : String} {args args' : List Expr} (h : List.Forall₂ Expr.SplicedTo args args') :
      Operand.SplicedTo (.call name args) (.ofOperand (.call name args'))
  | paren {e e' : Expr} (h : Expr.SplicedTo e e') :
      Operand.SplicedTo (.paren e) (.ofOperand (.paren e'))

end

/-! ## Reading -/

/-- What is needed to read the text of a term: a number is finite, the keys of a map differ, a name
is a name, and a text is an expression that no operator starts where one stands in front of it. -/
def Term.Readable : Term → Prop
  | .mk _ (.primitive (.number (.float x))) => x.isFinite = true
  | .mk _ (.map entries) => (Fields.names entries).Nodup
  | .mk _ (.call name _) => IsDottedName name
  | .mk unary (.reference text) =>
    ∃ e, ReadsAs text e ∧ (unary ≠ none → e.head.operator? = none)
  | _ => True

/-- The text of an expression is read as what the expression becomes. -/
def Expr.Splices (e : Expr) : Prop := ∃ e', ReadsAs e.text e' ∧ e.SplicedTo e'

theorem Expr.exists_spliced_all {items : List Expr} (h : ∀ e ∈ items, e.Splices) :
    ∃ items', List.Forall₂ ReadsAs (Expr.texts items) items' ∧
      List.Forall₂ Expr.SplicedTo items items' := by
  induction items with
  | nil => exact ⟨[], .nil, .nil⟩
  | cons e rest ih =>
    obtain ⟨⟨e', hread, hspliced⟩, hrest⟩ := List.forall_mem_cons.mp h
    obtain ⟨rest', hreads, hall⟩ := ih hrest
    exact ⟨e' :: rest', .cons hread hreads, .cons hspliced hall⟩

theorem Expr.exists_spliced_entries {entries : List (String × Expr)}
    (h : ∀ entry ∈ entries, entry.2.Splices) :
    ∃ entries', List.Forall₂ ReadsEntry (Expr.entryTexts entries) entries' ∧
      List.Forall₂ Expr.SplicedTo (entries.map Prod.snd) (entries'.map Prod.snd) ∧
        Fields.names entries' = Fields.names entries := by
  induction entries with
  | nil => exact ⟨[], .nil, .nil, rfl⟩
  | cons entry rest ih =>
    obtain ⟨key, e⟩ := entry
    obtain ⟨⟨e', hread, hspliced⟩, hrest⟩ := List.forall_mem_cons.mp h
    obtain ⟨rest', hreads, hall, hnames⟩ := ih hrest
    exact ⟨(key, e') :: rest', .cons ⟨e.text, rfl, hread⟩ hreads, .cons hspliced hall,
      congrArg (key :: ·) hnames⟩

/-- Only a text may be read as an expression that an operator starts. -/
theorem Operand.exists_spliced {unary : Option UnaryOp} {o : Operand}
    (h : (Term.mk unary o).Readable) (hinner : ∀ e ∈ o.inner, e.Splices) :
    ∃ e', ReadsAs o.text e' ∧ o.SplicedTo e' ∧ (unary ≠ none → e'.head.operator? = none) := by
  cases o with
  | primitive p =>
    by_cases hp : ∃ x, p = .number (.float x)
    · obtain ⟨x, rfl⟩ := hp
      obtain ⟨n, hscanned⟩ := Token.exists_scanned_float h
      have hread := readsAs_literal (t := ⟨⟨.number n, (Number.float x).text, .start⟩, rfl⟩)
        (hscanned .start)
      exact ⟨_, hread, .float hread.ofText?, fun _ => rfl⟩
    · have hp : ∀ x, p ≠ .number (.float x) := fun x hx => hp ⟨x, hx⟩
      have hplain : (Operand.primitive p).Plain := by
        cases p with
        | number x =>
          cases x with
          | int n => trivial
          | float x => exact hp x rfl
        | _ => trivial
      exact ⟨_, Operand.Plain.readable hplain, .primitive hp, fun _ => rfl⟩
  | list items =>
    obtain ⟨items', hreads, hall⟩ := Expr.exists_spliced_all hinner
    exact ⟨_, readsAs_list hreads, .list hall, fun _ => rfl⟩
  | map entries =>
    rw [Operand.inner, List.forall_mem_map] at hinner
    obtain ⟨entries', hreads, hall, hnames⟩ := Expr.exists_spliced_entries hinner
    exact ⟨_, readsAs_map hreads (hnames ▸ h), .map hnames hall, fun _ => rfl⟩
  | reference text =>
    obtain ⟨e, hread, hunary⟩ := h
    exact ⟨e, hread, .reference hread.ofText?, hunary⟩
  | call name args =>
    obtain ⟨args', hreads, hall⟩ := Expr.exists_spliced_all hinner
    exact ⟨_, readsAs_call h hreads, .call hall, fun _ => rfl⟩
  | paren e =>
    obtain ⟨e', hread, hspliced⟩ := hinner e List.mem_cons_self
    exact ⟨_, readsAs_paren hread, .paren hspliced, fun _ => rfl⟩

theorem Term.exists_spliced {t : Term} (h : t.Readable)
    (hinner : ∀ e ∈ t.operand.inner, e.Splices) : ∃ e', ReadsAs t.text e' ∧ t.SplicedTo e' := by
  obtain ⟨unary, o⟩ := t
  obtain ⟨⟨⟨unary', first⟩, own⟩, hread, hspliced, hunary⟩ := Operand.exists_spliced h hinner
  cases unary with
  | none =>
    rw [Term.text_none]
    exact ⟨_, hread, .plain hspliced⟩
  | some op =>
    cases hunary (Option.some_ne_none op)
    obtain ⟨t, hjoined, hread⟩ := exists_readsAs_unary op hread
    exact ⟨_, hread, .unary hspliced hjoined⟩

theorem Expr.exists_spliced_tail {tail : List (BinaryOp × Term)}
    (h : ∀ pair ∈ tail, ∃ e', ReadsAs pair.2.text e' ∧ pair.2.SplicedTo e') :
    ∃ others, ReadsTail (Expr.tailText tail) others ∧ Expr.TailSplicedTo tail others := by
  induction tail with
  | nil => exact ⟨[], readsTail_nil, .nil⟩
  | cons pair rest ih =>
    obtain ⟨op, t⟩ := pair
    obtain ⟨⟨⟨first, own⟩, hread, hspliced⟩, hrest⟩ := List.forall_mem_cons.mp h
    obtain ⟨others, hreads, hall⟩ := ih hrest
    exact ⟨_, readsTail_cons hread hreads, .cons hspliced hall⟩

/-- The text of an expression is read as the expression with the texts that it keeps read in their
places. -/
theorem Expr.EachTerm.splices {e : Expr} (h : e.EachTerm Term.Readable) : e.Splices := by
  induction e using Expr.inner_induction with
  | step e ih =>
    have hterms : ∀ t ∈ e.terms, ∃ e', ReadsAs t.text e' ∧ t.SplicedTo e' := by
      intro t ht
      obtain ⟨hreadable, hinner⟩ := Expr.eachTerm_iff.mp h t ht
      exact Term.exists_spliced hreadable fun inner hmem => ih t ht inner hmem (hinner inner hmem)
    obtain ⟨head, tail⟩ := e
    rw [Expr.terms, List.forall_mem_cons, List.forall_mem_map] at hterms
    obtain ⟨⟨⟨first, own⟩, hread, hspliced⟩, htail⟩ := hterms
    obtain ⟨others, hreads, hall⟩ := Expr.exists_spliced_tail htail
    refine ⟨.mk first (own ++ others), ?_, .mk hspliced hall⟩
    rw [Expr.text]
    exact readsAs_append hread hreads

/-! ## Grouping -/

/-- The text of an operand is read as a single term. -/
def Operand.Grouped : Operand → Prop
  | .reference text => ∃ t, Expr.ofText? text = some (.mk t [])
  | _ => True

theorem Operand.SplicedTo.tail_eq_nil_iff {o : Operand} {first : Term}
    {own : List (BinaryOp × Term)} (h : o.SplicedTo (.mk first own)) : own = [] ↔ o.Grouped := by
  cases h with
  | reference htext =>
    constructor
    · rintro rfl
      exact ⟨first, htext⟩
    · rintro ⟨t, ht⟩
      cases htext.symm.trans ht
      rfl
  | _ => exact iff_of_true rfl trivial

theorem Term.SplicedTo.tail_eq_nil_iff {t first : Term} {own : List (BinaryOp × Term)}
    (h : t.SplicedTo (.mk first own)) : own = [] ↔ t.operand.Grouped := by
  cases h with
  | plain h => exact h.tail_eq_nil_iff
  | unary h hop => exact h.tail_eq_nil_iff

/-- Terms become no fewer, and they stay as many exactly if each is read as one. -/
theorem Expr.TailSplicedTo.length_iff {tail others : List (BinaryOp × Term)}
    (h : Expr.TailSplicedTo tail others) : tail.length ≤ others.length ∧
      (others.length = tail.length ↔ ∀ pair ∈ tail, pair.2.operand.Grouped) := by
  induction tail generalizing others with
  | nil =>
    cases h
    exact ⟨Nat.le_refl _, iff_of_true rfl (List.forall_mem_nil _)⟩
  | cons pair rest ih =>
    cases h with
    | @cons op t first rest own others h hrest =>
      obtain ⟨hle, hiff⟩ := ih hrest
      have hown : own.length = 0 ↔ t.operand.Grouped :=
        List.length_eq_zero_iff.trans h.tail_eq_nil_iff
      rw [List.forall_mem_cons, ← hiff, ← hown]
      simp only [List.length_cons, List.length_append]
      omega

/-- An expression keeps the number of its operators exactly if each of its operands is read as a
single term. -/
theorem Expr.SplicedTo.length_tail_iff {e e' : Expr} (h : e.SplicedTo e') :
    e'.tail.length = e.tail.length ↔ ∀ t ∈ e.terms, t.operand.Grouped := by
  cases h with
  | @mk head first tail own others hhead htail =>
    obtain ⟨hle, hiff⟩ := htail.length_iff
    have hown : own.length = 0 ↔ head.operand.Grouped :=
      List.length_eq_zero_iff.trans hhead.tail_eq_nil_iff
    rw [Expr.terms, List.forall_mem_cons, List.forall_mem_map, ← hiff, ← hown]
    simp only [Expr.tail, List.length_append]
    omega

theorem Expr.TailSplicedTo.of_grouped {tail others : List (BinaryOp × Term)}
    (h : Expr.TailSplicedTo tail others) (hgrouped : ∀ pair ∈ tail, pair.2.operand.Grouped) :
    others.map Prod.fst = tail.map Prod.fst ∧ List.Forall₂ (fun t t' => t.SplicedTo (.mk t' []))
      (tail.map Prod.snd) (others.map Prod.snd) := by
  induction tail generalizing others with
  | nil =>
    cases h
    exact ⟨rfl, .nil⟩
  | cons pair rest ih =>
    obtain ⟨hfirst, hrest⟩ := List.forall_mem_cons.mp hgrouped
    cases h with
    | @cons op t first rest own others h htail =>
      cases h.tail_eq_nil_iff.mpr hfirst
      obtain ⟨hoperators, hterms⟩ := ih htail hrest
      exact ⟨congrArg (op :: ·) hoperators, .cons h hterms⟩

/-- Then it keeps its operators, and its terms one by one. -/
theorem Expr.SplicedTo.of_grouped {e e' : Expr} (h : e.SplicedTo e')
    (hgrouped : ∀ t ∈ e.terms, t.operand.Grouped) :
    e'.tail.map Prod.fst = e.tail.map Prod.fst ∧
      List.Forall₂ (fun t t' => t.SplicedTo (.mk t' [])) e.terms e'.terms := by
  cases h with
  | mk hhead htail =>
    rw [Expr.terms, List.forall_mem_cons, List.forall_mem_map] at hgrouped
    cases hhead.tail_eq_nil_iff.mpr hgrouped.1
    obtain ⟨hoperators, hterms⟩ := htail.of_grouped hgrouped.2
    exact ⟨hoperators, .cons hhead hterms⟩

/-! ## Literals -/

/-- A text that a term keeps is that of a reference. -/
def Term.Refers (t : Term) : Prop :=
  ∀ text, t.operand = .reference text → ∃ text', Expr.ofText? text = some (.reference text')

/-- Only a number becomes a number, unless it is kept as a text. -/
theorem Operand.SplicedTo.exists_number {unary : Option UnaryOp} {o : Operand} {n : Number}
    {own : List (BinaryOp × Term)} (hrefers : (Term.mk unary o).Refers)
    (h : o.SplicedTo (.mk (.mk none (.primitive (.number n))) own)) :
    ∃ m, o = .primitive (.number m) := by
  cases h with
  | primitive _ => exact ⟨n, rfl⟩
  | float _ => exact ⟨_, rfl⟩
  | reference htext =>
    obtain ⟨text', href⟩ := hrefers _ rfl
    cases htext.symm.trans href

theorem Operand.isSome_signed?_iff {op : UnaryOp} {o : Operand} :
    (o.signed? op).isSome = true ↔ op ≠ .not ∧ ∃ n, o = .primitive (.number n) := by
  cases o with
  | primitive p =>
    cases p with
    | number n => cases op <;> simp [Operand.signed?]
    | _ => simp [Operand.signed?]
  | _ => simp [Operand.signed?]

theorem Term.SplicedTo.isLiteral {t first : Term} (h : t.SplicedTo (.mk first []))
    (hrefers : t.Refers) (hcollection : t.isCollection = false)
    (hliteral : first.isLiteral = true) : t.isLiteral = true := by
  cases h with
  | plain h =>
    cases h with
    | primitive _ => rfl
    | float _ => rfl
    | list _ => cases hcollection
    | map _ _ => cases hcollection
    | reference htext =>
      obtain ⟨text', href⟩ := hrefers _ rfl
      cases htext.symm.trans href
      cases hliteral
    | call _ => cases hliteral
    | paren _ => cases hliteral
  | unary h hop =>
    rw [Term.isLiteral, Operand.isSome_signed?_iff]
    cases hop with
    | kept op o =>
      rw [Term.isLiteral, Operand.isSome_signed?_iff] at hliteral
      obtain ⟨hop, n, rfl⟩ := hliteral
      exact ⟨hop, h.exists_number hrefers⟩
    | sign n => exact ⟨by decide, h.exists_number hrefers⟩

theorem Expr.SplicedTo.exists_list {items : List Expr} {e' : Expr}
    (h : Expr.SplicedTo (.mk (.mk none (.list items)) []) e') :
    ∃ items', e' = .mk (.mk none (.list items')) [] ∧
      List.Forall₂ Expr.SplicedTo items items' := by
  cases h with
  | mk hhead htail =>
    cases htail
    cases hhead with
    | plain hoperand =>
      cases hoperand with
      | list hall => exact ⟨_, rfl, hall⟩

theorem Expr.SplicedTo.exists_map {entries : List (String × Expr)} {e' : Expr}
    (h : Expr.SplicedTo (.mk (.mk none (.map entries)) []) e') :
    ∃ entries', e' = .mk (.mk none (.map entries')) [] ∧
      List.Forall₂ Expr.SplicedTo (entries.map Prod.snd) (entries'.map Prod.snd) := by
  cases h with
  | mk hhead htail =>
    cases htail
    cases hhead with
    | plain hoperand =>
      cases hoperand with
      | map _ hall => exact ⟨_, rfl, hall⟩

theorem Expr.forall_isLiteral {items items' : List Expr}
    (h : List.Forall₂ Expr.SplicedTo items items')
    (ih : ∀ e ∈ items, ∀ {e' : Expr}, e.SplicedTo e' → e.EachTerm Term.Refers →
      e'.isLiteral = true → e.isLiteral = true)
    (hrefers : ∀ e ∈ items, e.EachTerm Term.Refers)
    (hliteral : ∀ e' ∈ items', e'.isLiteral = true) : ∀ e ∈ items, e.isLiteral = true := by
  induction h with
  | nil => exact List.forall_mem_nil _
  | cons hfirst _ hrest =>
    rw [List.forall_mem_cons] at ih hrefers hliteral ⊢
    exact ⟨ih.1 hfirst hrefers.1 hliteral.1, hrest ih.2 hrefers.2 hliteral.2⟩

/-- If only references are kept as texts, what becomes literal was so. -/
theorem Expr.SplicedTo.isLiteral {e e' : Expr} (h : e.SplicedTo e')
    (hrefers : e.EachTerm Term.Refers) (hliteral : e'.isLiteral = true) : e.isLiteral = true := by
  induction e using Expr.shape_induction generalizing e' with
  | leaf e hleaf =>
    cases h with
    | @mk head first tail own others hhead htail =>
      rw [Expr.isLiteral, Bool.and_eq_true, List.isEmpty_iff, List.append_eq_nil_iff] at hliteral
      obtain ⟨⟨rfl, rfl⟩, hfirst⟩ := hliteral
      cases htail
      have hhead' := (Expr.eachTerm_iff.mp hrefers head List.mem_cons_self).1
      have hcollection : head.isCollection = false := by simpa [Expr.isLeaf] using hleaf
      simpa [Expr.isLiteral] using hhead.isLiteral hhead' hcollection hfirst
  | list items ih =>
    have hinner := (Expr.eachTerm_ofOperand.mp hrefers).2
    obtain ⟨items', rfl, hall⟩ := h.exists_list
    rw [Expr.isLiteral_list] at hliteral ⊢
    exact Expr.forall_isLiteral hall ih hinner hliteral
  | map entries ih =>
    have hinner := (Expr.eachTerm_ofOperand.mp hrefers).2
    obtain ⟨entries', rfl, hall⟩ := h.exists_map
    rw [Expr.isLiteral_map] at hliteral ⊢
    exact List.forall_mem_map.mp (Expr.forall_isLiteral hall (List.forall_mem_map.mpr ih) hinner
      (List.forall_mem_map.mpr hliteral))

end Workflow
