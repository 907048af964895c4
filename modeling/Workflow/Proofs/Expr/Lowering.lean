import Workflow.Expr.Lowering
import Workflow.Proofs.Fields
import Workflow.Proofs.Number.Value

/-!
# Lowering, path by path

Lowering goes into lists and maps that stand alone and replaces what they hold at last, the leaves,
one by one. So a path leads to a value of the document exactly if it leads to a part of the
expression, and the value is told by the part: an array or an object of the same size for a list or
a map, the value of a leaf that is literal, and the text of any other leaf, marked for evaluation.
-/

namespace Workflow

/-- A step into a list or into a map. -/
inductive Selector where
  | item (index : Nat)
  | field (key : String)

/-! ## Leaves -/

/-- Whether an operand is a list or a map. -/
def Operand.isCollection : Operand → Bool
  | .list _ | .map _ => true
  | _ => false

/-- Whether a term is a list or a map without an operator. -/
def Term.isCollection : Term → Bool
  | .mk unary operand => unary.isNone && operand.isCollection

/-- Whether a document is an array or an object. -/
def Document.isCollection : Document → Bool
  | .array _ | .object _ => true
  | _ => false

namespace Expr

/-- Whether an expression is neither a list nor a map that stands alone. -/
def isLeaf : Expr → Bool
  | .mk head tail => !(tail.isEmpty && head.isCollection)

/-- A leaf of an expression: where one ends that goes only into lists and maps that stand alone. -/
inductive Leaf : Expr → Expr → Prop where
  | self {e : Expr} (h : e.isLeaf = true) : Leaf e e
  | item {items : List Expr} {e leaf : Expr} (hmem : e ∈ items) (h : Leaf e leaf) :
      Leaf (.mk (.mk none (.list items)) []) leaf
  | entry {entries : List (String × Expr)} {entry : String × Expr} {leaf : Expr}
      (hmem : entry ∈ entries) (h : Leaf entry.2 leaf) :
      Leaf (.mk (.mk none (.map entries)) []) leaf

/-- What holds of leaves, and of lists and maps if it holds of what they hold, holds of all
expressions. -/
theorem shape_induction {P : Expr → Prop} (leaf : ∀ e : Expr, e.isLeaf = true → P e)
    (list : ∀ items, (∀ e ∈ items, P e) → P (.mk (.mk none (.list items)) []))
    (map : ∀ entries : List (String × Expr), (∀ entry ∈ entries, P entry.2) →
      P (.mk (.mk none (.map entries)) [])) (e : Expr) : P e := by
  match e with
  | .mk (.mk none (.list items)) [] =>
    exact list items fun e _ => shape_induction leaf list map e
  | .mk (.mk none (.map entries)) [] =>
    exact map entries fun entry _ => shape_induction leaf list map entry.2
  | .mk head (pair :: rest) => exact leaf _ rfl
  | .mk (.mk (some op) operand) [] => exact leaf _ rfl
  | .mk (.mk none (.primitive value)) [] => exact leaf _ rfl
  | .mk (.mk none (.reference text)) [] => exact leaf _ rfl
  | .mk (.mk none (.call name args)) [] => exact leaf _ rfl
  | .mk (.mk none (.paren inner)) [] => exact leaf _ rfl
termination_by sizeOf e
decreasing_by
  · have := List.sizeOf_lt_of_mem ‹e ∈ items›
    simp
    omega
  · have := List.sizeOf_lt_of_mem ‹entry ∈ entries›
    obtain ⟨key, value⟩ := entry
    simp at this ⊢
    omega

theorem leaf_iff_eq {e leaf : Expr} (h : e.isLeaf = true) : e.Leaf leaf ↔ leaf = e := by
  constructor
  · intro hleaf
    cases hleaf with
    | self => rfl
    | item => cases h
    | entry => cases h
  · rintro rfl
    exact .self h

theorem leaf_list_iff {items : List Expr} {leaf : Expr} :
    (Expr.mk (.mk none (.list items)) []).Leaf leaf ↔ ∃ e ∈ items, e.Leaf leaf := by
  constructor
  · intro hleaf
    cases hleaf with
    | self h => cases h
    | item hmem h => exact ⟨_, hmem, h⟩
  · rintro ⟨e, hmem, h⟩
    exact .item hmem h

theorem leaf_map_iff {entries : List (String × Expr)} {leaf : Expr} :
    (Expr.mk (.mk none (.map entries)) []).Leaf leaf ↔ ∃ entry ∈ entries, entry.2.Leaf leaf := by
  constructor
  · intro hleaf
    cases hleaf with
    | self h => cases h
    | entry hmem h => exact ⟨_, hmem, h⟩
  · rintro ⟨entry, hmem, h⟩
    exact .entry hmem h

theorem isLiteral_list {items : List Expr} :
    (Expr.mk (.mk none (.list items)) []).isLiteral = true ↔ ∀ e ∈ items, e.isLiteral = true := by
  have hall : areLiteral items = true ↔ ∀ e ∈ items, e.isLiteral = true := by
    induction items with
    | nil => simp [areLiteral]
    | cons e rest ih => rw [areLiteral, Bool.and_eq_true, ih, List.forall_mem_cons]
  simpa [isLiteral, Term.isLiteral, Operand.isLiteral] using hall

theorem isLiteral_map {entries : List (String × Expr)} :
    (Expr.mk (.mk none (.map entries)) []).isLiteral = true ↔
      ∀ entry ∈ entries, entry.2.isLiteral = true := by
  have hall : areLiteralEntries entries = true ↔ ∀ entry ∈ entries, entry.2.isLiteral = true := by
    induction entries with
    | nil => simp [areLiteralEntries]
    | cons entry rest ih =>
      rw [areLiteralEntries, Bool.and_eq_true, ih, List.forall_mem_cons]
  rw [← hall, isLiteral, Term.isLiteral, Operand.isLiteral]
  rfl

/-- An expression is literal if its leaves are. -/
theorem isLiteral_iff_leaves (e : Expr) :
    e.isLiteral = true ↔ ∀ leaf, e.Leaf leaf → leaf.isLiteral = true := by
  induction e using shape_induction with
  | leaf e h => simp only [leaf_iff_eq h, forall_eq]
  | list items ih =>
    rw [isLiteral_list]
    constructor
    · intro hitems leaf hleaf
      obtain ⟨e, hmem, he⟩ := leaf_list_iff.mp hleaf
      exact (ih e hmem).mp (hitems e hmem) leaf he
    · exact fun hleaves e hmem => (ih e hmem).mpr fun leaf he => hleaves leaf (.item hmem he)
  | map entries ih =>
    rw [isLiteral_map]
    constructor
    · intro hentries leaf hleaf
      obtain ⟨entry, hmem, he⟩ := leaf_map_iff.mp hleaf
      exact (ih entry hmem).mp (hentries entry hmem) leaf he
    · exact fun hleaves entry hmem =>
        (ih entry hmem).mpr fun leaf he => hleaves leaf (.entry hmem he)

/-! ## Values of leaves -/

/-- The value that a literal leaf stands for. -/
inductive LeafValue : Expr → Document → Prop where
  | null : LeafValue (.mk (.mk none (.primitive .null)) []) .null
  | bool (b : Bool) : LeafValue (.mk (.mk none (.primitive (.bool b))) []) (.bool b)
  | string (s : String) : LeafValue (.mk (.mk none (.primitive (.string s))) []) (.string s)
  | number {n : Number} {d : Document} (h : n.SignedAs false d) :
      LeafValue (.mk (.mk none (.primitive (.number n))) []) d
  | plus {n : Number} {d : Document} (h : n.SignedAs false d) :
      LeafValue (.mk (.mk (some .plus) (.primitive (.number n))) []) d
  | minus {n : Number} {d : Document} (h : n.SignedAs true d) :
      LeafValue (.mk (.mk (some .minus) (.primitive (.number n))) []) d

/-- What an expression becomes, the parts of a list or a map apart: an array of as many items, an
object with the keys in the order in which they come first, the value of a literal leaf, or the text
of any other leaf, marked for evaluation. -/
inductive LoweredTo : Expr → Document → Prop where
  | list {items : List Expr} {docs : List Document} (h : docs.length = items.length) :
      LoweredTo (.mk (.mk none (.list items)) []) (.array docs)
  | map {entries : List (String × Expr)} {fields : Fields Document}
      (h : Fields.names fields = (Fields.names entries).eraseDups) :
      LoweredTo (.mk (.mk none (.map entries)) []) (.object fields)
  | value {e : Expr} {d : Document} (hleaf : e.isLeaf = true) (hliteral : e.isLiteral = true)
      (h : LeafValue e d) : LoweredTo e d
  | text {e : Expr} (hleaf : e.isLeaf = true) (hliteral : e.isLiteral = false) :
      LoweredTo e (.string ("$\x7b" ++ e.text ++ "\x7d"))

theorem text_mk_nil (head : Term) : (Expr.mk head []).text = head.text := by
  rw [text, tailText, String.append_empty]

theorem text_ofOperand (operand : Operand) : (ofOperand operand).text = operand.text := by
  rw [ofOperand, text_mk_nil, Term.text, Option.map_none, Option.getD_none, String.empty_append]

/-- Only a number has a sign. -/
theorem signed?_eq_some {op : UnaryOp} {operand : Operand} {m : Number}
    (h : operand.signed? op = some m) :
    ∃ n, operand = .primitive (.number n) ∧ (op = .plus ∧ m = n ∨ op = .minus ∧ m = n.neg) := by
  cases operand with
  | primitive value =>
    cases value with
    | number n =>
      cases op with
      | plus =>
        cases h
        exact ⟨_, rfl, .inl ⟨rfl, rfl⟩⟩
      | minus =>
        cases h
        exact ⟨_, rfl, .inr ⟨rfl, rfl⟩⟩
      | not => cases h
    | _ => cases h
  | _ => cases h

/-- A term with an operator becomes a number with its sign, or its text. -/
theorem loweredTo_unary (op : UnaryOp) (operand : Operand) :
    (Expr.mk (.mk (some op) operand) []).LoweredTo
      (Expr.mk (.mk (some op) operand) []).toDocument := by
  rw [toDocument, Term.toDocument]
  cases hsigned : operand.signed? op with
  | none =>
    rw [← text_mk_nil]
    exact .text rfl (by simp [isLiteral, Term.isLiteral, hsigned])
  | some m =>
    refine .value rfl (by simp [isLiteral, Term.isLiteral, hsigned]) ?_
    obtain ⟨n, rfl, ⟨rfl, rfl⟩ | ⟨rfl, rfl⟩⟩ := signed?_eq_some hsigned
    · exact .plus m.signedAs_false
    · exact .minus n.signedAs_true

/-- A leaf becomes its value, or its text. -/
theorem loweredTo_of_isLeaf {e : Expr} (h : e.isLeaf = true) : e.LoweredTo e.toDocument := by
  obtain ⟨⟨unary, operand⟩, tail⟩ := e
  cases tail with
  | cons pair rest => exact .text rfl rfl
  | nil =>
    cases unary with
    | some op => exact loweredTo_unary op operand
    | none =>
      rw [toDocument, Term.toDocument]
      cases operand with
      | primitive value =>
        refine .value h rfl ?_
        cases value with
        | null => exact .null
        | bool b => exact .bool b
        | number n => exact .number n.signedAs_false
        | string s => exact .string s
      | list items => cases h
      | map entries => cases h
      | reference name =>
        have htext : (Expr.reference name).text = name := text_ofOperand _
        rw [Operand.toDocument]
        conv => rhs; rw [← htext]
        exact .text h rfl
      | call name args =>
        rw [Operand.toDocument, ← text_ofOperand]
        exact .text h rfl
      | paren inner =>
        rw [Operand.toDocument, ← text_ofOperand]
        exact .text h rfl

/-- A leaf becomes neither an array nor an object. -/
theorem isCollection_toDocument {e : Expr} (h : e.isLeaf = true) :
    e.toDocument.isCollection = false := by
  have hvalue {n : Number} {negated : Bool} {d : Document} (hn : n.SignedAs negated d) :
      d.isCollection = false := by
    cases hn with
    | _ => rfl
  have hlowered := loweredTo_of_isLeaf h
  generalize e.toDocument = d at hlowered
  cases hlowered with
  | list => cases h
  | map => cases h
  | text => rfl
  | value _ _ hleaf =>
    cases hleaf with
    | null | bool | string => rfl
    | number hn | plus hn | minus hn => exact hvalue hn

theorem toDocument_of_not_literal {e : Expr} (hleaf : e.isLeaf = true)
    (hliteral : e.isLiteral = false) : e.toDocument = .string ("$\x7b" ++ e.text ++ "\x7d") := by
  have hlowered := loweredTo_of_isLeaf hleaf
  generalize e.toDocument = d at hlowered
  cases hlowered with
  | list => cases hleaf
  | map => cases hleaf
  | value _ h => exact absurd (h.symm.trans hliteral) (by decide)
  | text => rfl

theorem toDocument_list (items : List Expr) :
    (Expr.mk (.mk none (.list items)) []).toDocument = .array (items.map toDocument) := by
  have hall : toDocuments items = items.map toDocument := by
    induction items with
    | nil => rfl
    | cons e rest ih => rw [toDocuments, List.map_cons, ih]
  rw [toDocument, Term.toDocument, Operand.toDocument, hall]

theorem toDocument_map (entries : List (String × Expr)) :
    (Expr.mk (.mk none (.map entries)) []).toDocument =
      .object (Fields.ofPairs (entries.map fun entry => (entry.1, entry.2.toDocument))) := by
  have hall : toFields entries = entries.map fun entry => (entry.1, entry.2.toDocument) := by
    induction entries with
    | nil => rfl
    | cons entry rest ih => rw [toFields, List.map_cons, ih]
  rw [toDocument, Term.toDocument, Operand.toDocument, hall]

theorem loweredTo_toDocument (e : Expr) : e.LoweredTo e.toDocument := by
  induction e using shape_induction with
  | leaf e h => exact loweredTo_of_isLeaf h
  | list items =>
    rw [toDocument_list]
    exact .list (List.length_map _)
  | map entries =>
    rw [toDocument_map]
    refine .map ?_
    rw [Fields.names_ofPairs, Fields.names, List.map_map]
    rfl

end Expr

/-! ## Paths -/

namespace Expr

/-- The part to which a step leads. Of several entries of one key the last counts. -/
def child? (e : Expr) (s : Selector) : Option Expr :=
  match e, s with
  | .mk (.mk none (.list items)) [], .item i => items[i]?
  | .mk (.mk none (.map entries)) [], .field key => entries.reverse.lookup key
  | _, _ => none

/-- The part to which a path leads. -/
def at? (e : Expr) (path : List Selector) : Option Expr := path.foldlM child? e

end Expr

namespace Document

/-- The value to which a step leads. -/
def child? (d : Document) (s : Selector) : Option Document :=
  match d, s with
  | .array items, .item i => items[i]?
  | .object fields, .field key => fields.lookup key
  | _, _ => none

/-- The value to which a path leads. -/
def at? (d : Document) (path : List Selector) : Option Document := path.foldlM child? d

theorem child?_of_not_collection {d : Document} (h : d.isCollection = false) (s : Selector) :
    d.child? s = none := by
  cases d with
  | array => cases h
  | object => cases h
  | _ => rfl

theorem at?_cons (d : Document) (s : Selector) (path : List Selector) :
    d.at? (s :: path) = (d.child? s).bind (·.at? path) := List.foldlM_cons

end Document

namespace Expr

theorem at?_cons (e : Expr) (s : Selector) (path : List Selector) :
    e.at? (s :: path) = (e.child? s).bind (·.at? path) := List.foldlM_cons

theorem child?_of_isLeaf {e : Expr} (h : e.isLeaf = true) (s : Selector) : e.child? s = none := by
  unfold child?
  split
  · cases h
  · cases h
  · rfl

theorem child?_toDocument (e : Expr) (s : Selector) :
    e.toDocument.child? s = (e.child? s).map toDocument := by
  induction e using shape_induction with
  | leaf e h =>
    rw [Document.child?_of_not_collection (isCollection_toDocument h), child?_of_isLeaf h,
      Option.map_none]
  | list items =>
    rw [toDocument_list]
    cases s with
    | item i => exact List.getElem?_map
    | field key => rfl
  | map entries =>
    rw [toDocument_map]
    cases s with
    | item i => rfl
    | field key =>
      rw [Document.child?, Fields.lookup_ofPairs, ← List.map_reverse, child?]
      induction entries.reverse with
      | nil => rfl
      | cons entry rest ih =>
        rw [List.map_cons, List.lookup_cons, List.lookup_cons]
        cases key == entry.1 with
        | true => rfl
        | false => exact ih

/-- A path leads to the value of what it leads to. -/
theorem at?_toDocument (e : Expr) (path : List Selector) :
    e.toDocument.at? path = (e.at? path).map toDocument := by
  induction path generalizing e with
  | nil => rfl
  | cons s path ih =>
    rw [at?_cons, Document.at?_cons, child?_toDocument]
    cases e.child? s with
    | none => rfl
    | some part => exact ih part

/-! ## Distinct keys -/

/-- No map to which a path leads has a key twice. -/
def DistinctKeys (e : Expr) : Prop :=
  ∀ path entries, e.at? path = some (.mk (.mk none (.map entries)) []) →
    (Fields.names entries).Nodup

theorem DistinctKeys.child {e part : Expr} (h : e.DistinctKeys) {s : Selector}
    (hpart : e.child? s = some part) : part.DistinctKeys := by
  intro path entries hentries
  refine h (s :: path) entries ?_
  rw [at?_cons, hpart]
  exact hentries

/-- Where no key comes twice, every leaf is at the end of a path. -/
theorem Leaf.exists_path {e leaf : Expr} (h : e.Leaf leaf) (hkeys : e.DistinctKeys) :
    ∃ path, e.at? path = some leaf := by
  induction h with
  | self => exact ⟨[], rfl⟩
  | @item items e leaf hmem _ ih =>
    obtain ⟨i, hi⟩ := List.mem_iff_getElem?.mp hmem
    have hchild : (Expr.mk (.mk none (.list items)) []).child? (.item i) = some e := hi
    obtain ⟨path, hpath⟩ := ih (hkeys.child hchild)
    exact ⟨.item i :: path, by rw [at?_cons, hchild]; exact hpath⟩
  | @entry entries entry leaf hmem _ ih =>
    have hnodup : (Fields.names entries.reverse).Nodup := by
      rw [Fields.names, List.map_reverse]
      exact List.nodup_reverse.mpr (hkeys [] entries rfl)
    have hchild : (Expr.mk (.mk none (.map entries)) []).child? (.field entry.1) = some entry.2 :=
      (Fields.lookup_eq_some_iff_mem hnodup).mpr (List.mem_reverse.mpr hmem)
    obtain ⟨path, hpath⟩ := ih (hkeys.child hchild)
    exact ⟨.field entry.1 :: path, by rw [at?_cons, hchild]; exact hpath⟩

theorem Leaf.isLeaf {e leaf : Expr} (h : e.Leaf leaf) : leaf.isLeaf = true := by
  induction h with
  | self h => exact h
  | item _ _ ih => exact ih
  | entry _ _ ih => exact ih

/-- What is not literal shows its text somewhere, unless a key comes twice. -/
theorem exists_text_of_not_literal {e : Expr} (h : e.isLiteral = false) (hkeys : e.DistinctKeys) :
    ∃ path leaf, e.at? path = some leaf ∧ leaf.isLiteral = false ∧
      e.toDocument.at? path = some (.string ("$\x7b" ++ leaf.text ++ "\x7d")) := by
  have hnot : ¬ ∀ leaf, e.Leaf leaf → leaf.isLiteral = true :=
    fun hleaves => absurd ((isLiteral_iff_leaves e).mpr hleaves) (by simp [h])
  push Not at hnot
  obtain ⟨leaf, hleaf, hliteral⟩ := hnot
  obtain ⟨path, hpath⟩ := hleaf.exists_path hkeys
  refine ⟨path, leaf, hpath, Bool.eq_false_of_not_eq_true hliteral, ?_⟩
  rw [at?_toDocument, hpath, Option.map_some,
    toDocument_of_not_literal hleaf.isLeaf (Bool.eq_false_of_not_eq_true hliteral)]

end Expr

end Workflow
