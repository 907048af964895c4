import Workflow.Document.Basic

/-!
# Schemas of documents

A schema says which documents are accepted: by their type, by the length and the characters of a
string, by the items of an array, by the names and values of the fields of an object. What is said
about one type says nothing about documents of another. Schemas refer to each other by name, so that
a document may have parts like itself; where a definition refers to another one without going to a
part of the document first, the other one has a lower rank.
-/

namespace Workflow

/-! ## Types -/

/-- The types of documents. -/
inductive DocumentType where
  | null
  | boolean
  | number
  | integer
  | string
  | array
  | object
  deriving DecidableEq

/-- Whether a document has a type. An integer is a number that is written as one. -/
def Document.hasType : Document → DocumentType → Bool
  | .null, .null => true
  | .bool _, .boolean => true
  | .int _, .number => true
  | .int _, .integer => true
  | .float _, .number => true
  | .string _, .string => true
  | .array _, .array => true
  | .object _, .object => true
  | _, _ => false

/-! ## Patterns -/

/-- A piece of a pattern: one character of a class, or any number of them. -/
inductive PatternPiece where
  | one (p : Char → Bool)
  | many (p : Char → Bool)

/-- A row of pieces that stands for a whole text. -/
abbrev Pattern := List PatternPiece

namespace Pattern

/-- Whether a text is made of the pieces of a pattern, in order. -/
def isMatch : Pattern → List Char → Bool
  | [], cs => cs.isEmpty
  | .one _ :: _, [] => false
  | .one p :: rest, c :: cs => p c && isMatch rest cs
  | .many _ :: rest, [] => isMatch rest []
  | .many p :: rest, c :: cs => isMatch rest (c :: cs) || p c && isMatch (.many p :: rest) cs
termination_by pattern cs => pattern.length + cs.length

/-- One or more characters of a class. -/
def some (p : Char → Bool) : Pattern := [.one p, .many p]

variable {pattern rest : Pattern} {p : Char → Bool} {cs ds : List Char} {c : Char}

theorem isMatch_nil : isMatch [] [] = true := by
  rw [isMatch]
  rfl

theorem isMatch_one (hc : p c = true) (h : isMatch rest cs = true) :
    isMatch (.one p :: rest) (c :: cs) = true := by
  rw [isMatch, hc, h]
  rfl

/-- Characters of a class in front of the rest of a text. -/
theorem isMatch_many (hcs : ∀ c ∈ cs, p c = true) (h : isMatch rest ds = true) :
    isMatch (.many p :: rest) (cs ++ ds) = true := by
  induction cs with
  | nil =>
    cases ds with
    | nil => rwa [List.nil_append, isMatch]
    | cons d ds => rw [List.nil_append, isMatch, h, Bool.true_or]
  | cons c cs ih =>
    obtain ⟨hc, hrest⟩ := List.forall_mem_cons.mp hcs
    rw [List.cons_append, isMatch, hc, ih hrest, Bool.and_self, Bool.or_true]

theorem isMatch_some (hne : cs ≠ []) (hcs : ∀ c ∈ cs, p c = true) (h : isMatch rest ds = true) :
    isMatch (some p ++ rest) (cs ++ ds) = true := by
  cases cs with
  | nil => exact absurd rfl hne
  | cons c cs =>
    obtain ⟨hc, hrest⟩ := List.forall_mem_cons.mp hcs
    exact isMatch_one hc (isMatch_many hrest h)

end Pattern

/-! ## Schemas -/

/-- A condition on documents, with references to the definitions named in `ρ`. -/
inductive Schema (ρ : Type) where
  | any
  | never
  | ref (name : ρ)
  | both (s t : Schema ρ)
  | either (s t : Schema ρ)
  /-- One of two holds and the other one does not. -/
  | oneOf (s t : Schema ρ)
  | type (types : List DocumentType)
  | const (text : String)
  | minLength (n : Nat)
  | pattern (pattern : Pattern)
  | minItems (n : Nat)
  | maxItems (n : Nat)
  | items (s : Schema ρ)
  | minProperties (n : Nat)
  | maxProperties (n : Nat)
  | required (names : List String)
  | propertyNames (s : Schema ρ)
  /-- A condition on the field of a name, if there is one. -/
  | property (name : String) (s : Schema ρ)
  /-- A condition on all fields but those of some names. -/
  | otherProperties (names : List String) (s : Schema ρ)

namespace Schema

variable {ρ : Type}

/-- All of several conditions. -/
def all (schemas : List (Schema ρ)) : Schema ρ := schemas.foldr .both .any

/-- Any of several conditions. -/
def anyOf (schemas : List (Schema ρ)) : Schema ρ := schemas.foldr .either .never

/-- An object with no other fields than those of the properties. -/
def closed (names : List String) (properties : List (String × Schema ρ)) : Schema ρ :=
  .both (.type [.object]) (.both (.required names)
    (.both (all (properties.map fun p => .property p.1 p.2))
      (.otherProperties (properties.map Prod.fst) .never)))

/-- One more than the highest rank of a definition that is referred to for the document itself, not
only for parts of it. -/
def rank (ranks : ρ → Nat) : Schema ρ → Nat
  | .ref name => ranks name + 1
  | .both s t => max (s.rank ranks) (t.rank ranks)
  | .either s t => max (s.rank ranks) (t.rank ranks)
  | .oneOf s t => max (s.rank ranks) (t.rank ranks)
  | _ => 0

end Schema

/-- Named schemas. For the same document, a definition refers only to definitions of lower rank. -/
structure Definitions (ρ : Type) where
  schema : ρ → Schema ρ
  ranks : ρ → Nat
  rank_le : ∀ name, (schema name).rank ranks ≤ ranks name

/-! ## Acceptance -/

theorem all_attach {α : Type} (l : List α) (p : α → Bool) :
    (l.attach.all fun x => p x.val) = l.all p := by
  have hmap : (l.attach.map Subtype.val).all p = l.attach.all fun x => p x.val := List.all_map
  rw [← hmap, List.attach_map_subtype_val]

theorem Document.sizeOf_item_lt {d : Document} {items : List Document} (h : d ∈ items) :
    sizeOf d < sizeOf (Document.array items) := by
  have := List.sizeOf_lt_of_mem h
  rw [Document.array.sizeOf_spec]
  omega

/-- Both the name and the value of a field are smaller than the object. -/
theorem Document.sizeOf_field_lt {k : String} {v : Document} {fields : List (String × Document)}
    (h : (k, v) ∈ fields) : sizeOf (Document.string k) < sizeOf (Document.object fields) ∧
      sizeOf v < sizeOf (Document.object fields) := by
  have := List.sizeOf_lt_of_mem h
  rw [Prod.mk.sizeOf_spec] at this
  rw [Document.object.sizeOf_spec, Document.string.sizeOf_spec]
  omega

/-- A part of a schema for the same document. -/
theorem Schema.lex_part {n r r' m m' : Nat} (hr : r ≤ r') (hm : m < m') :
    Prod.Lex (· < ·) (Prod.Lex (· < ·) (· < ·)) (n, r, m) (n, r', m') :=
  .right n (Prod.Lex.right' _ hr hm)

namespace Definitions

variable {ρ : Type}

/-- Whether a schema accepts a document. -/
def accepts (defs : Definitions ρ) : Schema ρ → Document → Bool
  | .any, _ => true
  | .never, _ => false
  | .ref name, d => accepts defs (defs.schema name) d
  | .both s t, d => accepts defs s d && accepts defs t d
  | .either s t, d => accepts defs s d || accepts defs t d
  | .oneOf s t, d => accepts defs s d != accepts defs t d
  | .type types, d => types.any d.hasType
  | .const text, .string s => s == text
  | .const _, _ => false
  | .minLength n, .string s => n ≤ s.length
  | .pattern pattern, .string s => pattern.isMatch s.toList
  | .minItems n, .array items => n ≤ items.length
  | .maxItems n, .array items => items.length ≤ n
  | .items s, .array items => items.attach.all fun ⟨d, _⟩ => accepts defs s d
  | .minProperties n, .object fields => n ≤ fields.length
  | .maxProperties n, .object fields => fields.length ≤ n
  | .required names, .object fields => names.all (Fields.names fields).contains
  | .propertyNames s, .object fields =>
    fields.attach.all fun ⟨(k, _), _⟩ => accepts defs s (.string k)
  | .property name s, .object fields =>
    fields.attach.all fun ⟨(k, v), _⟩ => k ≠ name || accepts defs s v
  | .otherProperties names s, .object fields =>
    fields.attach.all fun ⟨(k, v), _⟩ => names.contains k || accepts defs s v
  | _, _ => true
termination_by s d => (sizeOf d, s.rank defs.ranks, sizeOf s)
decreasing_by
  · exact .right _ (.left _ _ (Nat.lt_succ_of_le (defs.rank_le name)))
  · exact Schema.lex_part (Nat.le_max_left _ _) (by rw [Schema.both.sizeOf_spec]; omega)
  · exact Schema.lex_part (Nat.le_max_right _ _) (by rw [Schema.both.sizeOf_spec]; omega)
  · exact Schema.lex_part (Nat.le_max_left _ _) (by rw [Schema.either.sizeOf_spec]; omega)
  · exact Schema.lex_part (Nat.le_max_right _ _) (by rw [Schema.either.sizeOf_spec]; omega)
  · exact Schema.lex_part (Nat.le_max_left _ _) (by rw [Schema.oneOf.sizeOf_spec]; omega)
  · exact Schema.lex_part (Nat.le_max_right _ _) (by rw [Schema.oneOf.sizeOf_spec]; omega)
  · exact .left _ _ (Document.sizeOf_item_lt ‹_›)
  · exact .left _ _ (Document.sizeOf_field_lt ‹_›).1
  · exact .left _ _ (Document.sizeOf_field_lt ‹_›).2
  · exact .left _ _ (Document.sizeOf_field_lt ‹_›).2

section

variable {defs : Definitions ρ} {s t : Schema ρ} {d : Document} {items : List Document}
  {fields : List (String × Document)} {name text : String} {names : List String} {n : Nat}

@[simp] theorem accepts_any : defs.accepts .any d = true := by
  rw [accepts]

@[simp] theorem accepts_never : defs.accepts .never d = false := by
  rw [accepts]

theorem accepts_ref {r : ρ} : defs.accepts (.ref r) d = defs.accepts (defs.schema r) d := by
  rw [accepts]

@[simp] theorem accepts_both :
    defs.accepts (.both s t) d = (defs.accepts s d && defs.accepts t d) := by
  rw [accepts]

@[simp] theorem accepts_either :
    defs.accepts (.either s t) d = (defs.accepts s d || defs.accepts t d) := by
  rw [accepts]

@[simp] theorem accepts_oneOf :
    defs.accepts (.oneOf s t) d = (defs.accepts s d != defs.accepts t d) := by
  rw [accepts]

@[simp] theorem accepts_type {types : List DocumentType} :
    defs.accepts (.type types) d = types.any d.hasType := by
  rw [accepts]

@[simp] theorem accepts_const : defs.accepts (.const text) (.string name) = (name == text) := by
  rw [accepts]

@[simp] theorem accepts_minLength :
    defs.accepts (.minLength n) (.string text) = decide (n ≤ text.length) := by
  rw [accepts]

@[simp] theorem accepts_pattern {pattern : Pattern} :
    defs.accepts (.pattern pattern) (.string text) = pattern.isMatch text.toList := by
  rw [accepts]

@[simp] theorem accepts_minItems :
    defs.accepts (.minItems n) (.array items) = decide (n ≤ items.length) := by
  rw [accepts]

@[simp] theorem accepts_maxItems :
    defs.accepts (.maxItems n) (.array items) = decide (items.length ≤ n) := by
  rw [accepts]

@[simp] theorem accepts_items :
    defs.accepts (.items s) (.array items) = items.all (defs.accepts s) := by
  rw [accepts]
  exact all_attach items (defs.accepts s)

@[simp] theorem accepts_minProperties :
    defs.accepts (.minProperties n) (.object fields) = decide (n ≤ fields.length) := by
  rw [accepts]

@[simp] theorem accepts_maxProperties :
    defs.accepts (.maxProperties n) (.object fields) = decide (fields.length ≤ n) := by
  rw [accepts]

@[simp] theorem accepts_required :
    defs.accepts (.required names) (.object fields) =
      names.all (Fields.names fields).contains := by
  rw [accepts]

@[simp] theorem accepts_propertyNames :
    defs.accepts (.propertyNames s) (.object fields) =
      fields.all fun field => defs.accepts s (.string field.1) := by
  rw [accepts]
  exact all_attach fields fun field => defs.accepts s (.string field.1)

@[simp] theorem accepts_property :
    defs.accepts (.property name s) (.object fields) =
      fields.all fun field => field.1 ≠ name || defs.accepts s field.2 := by
  rw [accepts]
  exact all_attach fields fun field => field.1 ≠ name || defs.accepts s field.2

@[simp] theorem accepts_otherProperties :
    defs.accepts (.otherProperties names s) (.object fields) =
      fields.all fun field => names.contains field.1 || defs.accepts s field.2 := by
  rw [accepts]
  exact all_attach fields fun field => names.contains field.1 || defs.accepts s field.2

theorem accepts_all {schemas : List (Schema ρ)} :
    defs.accepts (.all schemas) d = schemas.all fun s => defs.accepts s d := by
  induction schemas with
  | nil => rw [Schema.all, List.foldr_nil, accepts_any, List.all_nil]
  | cons s rest ih =>
    rw [Schema.all] at ih
    rw [Schema.all, List.foldr_cons, accepts_both, ih, List.all_cons]

theorem accepts_anyOf {schemas : List (Schema ρ)} :
    defs.accepts (.anyOf schemas) d = schemas.any fun s => defs.accepts s d := by
  induction schemas with
  | nil => rw [Schema.anyOf, List.foldr_nil, accepts_never, List.any_nil]
  | cons s rest ih =>
    rw [Schema.anyOf] at ih
    rw [Schema.anyOf, List.foldr_cons, accepts_either, ih, List.any_cons]

/-- Fields are among the properties, with values for them. -/
def Fit (defs : Definitions ρ) (properties : List (String × Schema ρ))
    (fields : Fields Document) : Prop :=
  ∀ field ∈ fields, field.1 ∈ properties.map Prod.fst ∧
    ∀ p ∈ properties, field.1 = p.1 → defs.accepts p.2 field.2 = true

variable {properties : List (String × Schema ρ)}

@[simp] theorem fit_nil : defs.Fit properties [] := List.forall_mem_nil _

@[simp] theorem fit_cons {others : Fields Document} :
    defs.Fit properties ((name, d) :: others) ↔
      (name ∈ properties.map Prod.fst ∧
        ∀ p ∈ properties, name = p.1 → defs.accepts p.2 d = true) ∧
      defs.Fit properties others :=
  List.forall_mem_cons

@[simp] theorem fit_append {others : Fields Document} :
    defs.Fit properties (fields ++ others) ↔
      defs.Fit properties fields ∧ defs.Fit properties others :=
  List.forall_mem_append

/-- A field that is left out without a value. -/
theorem fit_optional {α : Type} {value : Option α} {f : α → Document}
    (h : ∀ a ∈ value, defs.Fit properties [(name, f a)]) :
    defs.Fit properties (Fields.optional name (value.map f)) := by
  cases value with
  | none => exact fit_nil
  | some a => exact h a rfl

/-- An object with the fields that are required and none but those of the properties. -/
theorem accepts_closed :
    defs.accepts (.closed names properties) (.object fields) = true ↔
      (∀ name ∈ names, name ∈ Fields.names fields) ∧ defs.Fit properties fields := by
  simp only [Schema.closed, accepts_both, accepts_type, accepts_required, accepts_all,
    accepts_otherProperties, Bool.and_eq_true, List.all_eq_true, List.forall_mem_map,
    accepts_property, accepts_never, Bool.or_eq_true, decide_eq_true_eq, List.contains_iff_mem]
  constructor
  · rintro ⟨_, hnames, hproperties, hothers⟩
    refine ⟨hnames, fun field hfield => ⟨?_, fun p hp hname => ?_⟩⟩
    · exact (hothers field hfield).resolve_right Bool.false_ne_true
    · exact (hproperties p hp field hfield).resolve_left fun hne => hne hname
  · rintro ⟨hnames, hfit⟩
    refine ⟨rfl, hnames, fun p hp field hfield => ?_, fun field hfield => .inl (hfit field hfield).1⟩
    by_cases hname : field.1 = p.1
    · exact .inr ((hfit field hfield).2 p hp hname)
    · exact .inl hname

/-- An object whose only field is the only property. -/
theorem accepts_closed_single (h : defs.accepts s d = true) :
    defs.accepts (.closed [name] [(name, s)]) (.object [(name, d)]) = true := by
  rw [accepts_closed]
  simp [Fields.names, h]

end

end Definitions

end Workflow
