import Workflow.Proofs.Expr.Plain

/-!
# Texts of references are read back

A reference is kept as a text: parts with dots between them, and in each part the subscripts as
they are evaluated later. Such a text is read as a reference again, with the texts that its
subscripts are then read with.
-/

namespace Workflow

open Token

/-! ## Subscripts -/

/-- A text is read as an expression, which stands for a text between brackets. -/
def ReadsIndex (text text' : String) : Prop :=
  ∃ (d : Phrase.Expression) (e : Expr), Bounded false text.toList d.tokens ∧ d.built = .ok e ∧
    ∀ p, subscriptText e p = .ok text'

/-- A text is read as subscripts. -/
def ReadsSubscripts (text text' : String) : Prop :=
  (∀ ts, StopsAt (lastContinues ts) text.toList) ∧
    ∃ d : Phrase.Subscripts, ((text.toList = [] ∧ d.tokens = []) ∨
      Spelled true text.toList d.tokens) ∧ d.text = .ok text'

theorem Number.eq_int_of_toDocument {x : Number} {n : Int} (h : x.toDocument = .int n) :
    ∃ m : Int64, m.toInt = n := by
  cases x with
  | int m => exact ⟨m, Document.int.inj h⟩
  | float x =>
    rw [Number.toDocument] at h
    split at h
    · cases h
    · cases h

theorem Operand.exists_int64_of_toDocument {o : Operand} {n : Int} (h : o.toDocument = .int n) :
    ∃ m : Int64, m.toInt = n := by
  cases o with
  | primitive p =>
    cases p with
    | number x => exact Number.eq_int_of_toDocument h
    | _ => cases h
  | _ => cases h

/-- A literal integer is in range. -/
theorem Expr.exists_int64_of_toDocument {e : Expr} {n : Int} (h : e.toDocument = .int n) :
    ∃ m : Int64, m.toInt = n := by
  match e with
  | .mk (.mk none operand) [] => exact Operand.exists_int64_of_toDocument h
  | .mk (.mk (some op) operand) [] =>
    rw [Expr.toDocument, Term.toDocument] at h
    split at h
    · exact Number.eq_int_of_toDocument h
    · cases h
  | .mk head (first :: rest) =>
    rw [Expr.toDocument] at h
    cases h

theorem readsIndex_primitive {p : Primitive} (hp : (Operand.primitive p).Plain)
    (h : ∀ q, subscriptText (Expr.ofOperand (.primitive p)) q = .ok p.text) :
    ReadsIndex p.text p.text := by
  obtain ⟨d, hbounded, hbuilt⟩ := (Expr.plain_ofOperand hp).readable
  have htext : (Expr.ofOperand (.primitive p)).text = p.text := by
    simp [Expr.ofOperand, Expr.text, Term.text, Operand.text, Expr.tailText]
  rw [htext] at hbounded
  exact ⟨d, _, hbounded, hbuilt, h⟩

/-- An index that is not literal stands for its text. -/
theorem ReadsAs.readsIndex {text : String} {e : Expr} (h : ReadsAs text e)
    (hnone : e.literal? = none) : ReadsIndex text e.text := by
  obtain ⟨d, hbounded, hbuilt⟩ := h
  refine ⟨d, e, hbounded, hbuilt, fun p => ?_⟩
  rw [subscriptText, hnone]

/-- The text of a subscript is that of its index, or a numeral or a quotation in its place. -/
theorem subscriptText_cases {e : Expr} {p : Position} {text : String}
    (h : subscriptText e p = .ok text) :
    (e.literal? = none ∧ text = e.text) ∨ ReadsIndex text text := by
  rw [subscriptText] at h
  split at h
  · rename_i hnone
    cases h
    exact .inl ⟨hnone, rfl⟩
  · -- the index is an integer, perhaps behind a sign
    rename_i n hint
    cases h
    have hdocument : e.toDocument = .int n :=
      Option.some.inj (Option.ite_none_right_eq_some.mp hint).2
    obtain ⟨m, rfl⟩ := Expr.exists_int64_of_toDocument hdocument
    exact .inr (readsIndex_primitive (p := .number (.int m)) trivial fun _ => rfl)
  · cases h
  · rename_i s _
    cases h
    exact .inr (readsIndex_primitive (p := .string s) trivial fun _ => rfl)
  · cases h

/-- The text of a plain index is read as the folded index, which has the same text. -/
theorem readsIndex_of_plain {e : Expr} (he : e.Plain) {p : Position} {text : String}
    (h : subscriptText e p = .ok text) : ReadsIndex text text := by
  obtain ⟨hnone, rfl⟩ | hindex := subscriptText_cases h
  · have hfolded : e.folded.literal? = none := by
      rw [Expr.literal?, e.isLiteral_folded]
      simpa [Expr.literal?] using hnone
    have hindex := he.readable.readsIndex hfolded
    rw [e.text_folded] at hindex
    exact hindex
  · exact hindex

theorem readsSubscripts_nil : ReadsSubscripts "" "" :=
  ⟨fun _ => stopsAt_nil _, .nil, .inl ⟨rfl, rfl⟩, rfl⟩

theorem readsSubscripts_cons {text text' others others' : String} (h : ReadsIndex text text')
    (hrest : ReadsSubscripts others others') :
    ReadsSubscripts ("[" ++ text ++ "]" ++ others) ("[" ++ text' ++ "]" ++ others') := by
  obtain ⟨d, e, hbounded, hbuilt, htext⟩ := h
  obtain ⟨hstop, rest, hrest, hresttext⟩ := hrest
  have hchars : ("[" ++ text ++ "]" ++ others).toList =
      "[".toList ++ (text.toList ++ ("]".toList ++ others.toList)) := by
    simp
  have hclose := (spelled_token (scanned_symbol .rbracket .start)).append_optional hrest (hstop _)
  have hindex := hbounded.append_spelled hclose (delimited_cons.mpr (by decide))
  refine ⟨fun ts => ?_, .cons (Phrase.signToken .lbracket) d (Phrase.signToken .rbracket) rest,
    .inr ?_, ?_⟩
  · rw [hchars]
    exact stopsAt_of_mem_delimiters (by decide) ts _
  · rw [hchars, Phrase.Subscripts.tokens]
    exact .cons (scanned_symbol .lbracket .start) hindex (fun _ _ => rfl) (by decide)
  · rw [Phrase.Subscripts.text, hbuilt, ok_bind, htext, ok_bind, hresttext]
    rfl

/-! ## Names and dots -/

theorem StartsWord.append {s : String} (h : StartsWord s) (t : String) : StartsWord (s ++ t) := by
  obtain ⟨c, cs, hcs, hc⟩ := h
  exact ⟨c, cs ++ t.toList, by rw [String.toList_append, hcs]; rfl, hc⟩

theorem IsName.startsWord {name : String} (h : IsName name) : StartsWord name := by
  obtain ⟨c, body, rfl, hc, -⟩ := h
  exact ⟨c, body, String.toList_ofList, hc⟩

theorem StartsWord.intercalate {s : String} (h : StartsWord s) (rest : List String) :
    StartsWord (".".intercalate (s :: rest)) := by
  cases rest with
  | nil => exact String.intercalate_singleton ▸ h
  | cons t others =>
    rw [String.intercalate_cons_cons, String.append_assoc]
    exact h.append _

/-- A dot behind a spelling, and more behind it. -/
theorem Spelled.dot {cs ds : List Char} {ts us : List Token} (h : Spelled true cs ts)
    (hts : lastContinues ts '.' = false) (h' : Spelled true ds us) :
    Spelled true (cs ++ (".".toList ++ ds)) (ts ++ (Phrase.signToken .dot).val :: us) := by
  have hdot := Spelled.cons (scanned_symbol .dot .start) h' (fun _ _ => rfl) fun _ => rfl
  exact h.append hdot (stopsAt_cons.mpr hts) fun _ => rfl

theorem isDottedName_intercalate {name : String} (hname : IsName name) {rest : List String}
    (hrest : ∀ s ∈ rest, IsName s) : IsDottedName (".".intercalate (name :: rest)) := by
  refine ⟨hname.startsWord.intercalate rest, ?_⟩
  suffices h : ∃ q : Phrase.QualifiedName,
      Spelled true (".".intercalate (name :: rest)).toList q.tokens ∧
        q.names.map (·.image) = name :: rest by
    obtain ⟨q, hspelled, hnames⟩ := h
    exact ⟨q, hspelled, congrArg (".".intercalate ·) hnames⟩
  induction rest generalizing name with
  | nil =>
    refine ⟨.last (Phrase.nameToken name), ?_, rfl⟩
    rw [String.intercalate_singleton]
    exact spelled_token (scanned_name hname .start)
  | cons second rest ih =>
    obtain ⟨q, hspelled, hnames⟩ := ih (hrest second List.mem_cons_self)
      fun s hs => hrest s (List.mem_cons_of_mem second hs)
    refine ⟨.dotted (Phrase.nameToken name) (Phrase.signToken .dot) q, ?_,
      congrArg (name :: ·) hnames⟩
    rw [String.intercalate_cons_cons, toList_enclosed]
    exact (spelled_token (scanned_name hname .start)).dot rfl hspelled

/-- Names with single dots between them. -/
def JoinsNames (text : String) : Prop :=
  ∃ name rest, IsName name ∧ (∀ s ∈ rest, IsName s) ∧ text = ".".intercalate (name :: rest)

theorem JoinsNames.isDottedName {text : String} (h : JoinsNames text) : IsDottedName text := by
  obtain ⟨name, rest, hname, hrest, rfl⟩ := h
  exact isDottedName_intercalate hname hrest

/-- Identifiers among tokens are names. -/
def NamedTokens (tokens : List Token) : Prop :=
  ∀ t ∈ tokens, t.lexeme.isIdentifier = true → IsName t.image

theorem namedTokens_cons {t : Token} {rest : List Token} :
    NamedTokens (t :: rest) ↔ (t.lexeme.isIdentifier = true → IsName t.image) ∧ NamedTokens rest :=
  List.forall_mem_cons

theorem namedTokens_append {ts us : List Token} :
    NamedTokens (ts ++ us) ↔ NamedTokens ts ∧ NamedTokens us :=
  List.forall_mem_append

theorem Phrase.QualifiedName.joinsNames (q : Phrase.QualifiedName) (h : NamedTokens q.tokens) :
    JoinsNames q.text := by
  suffices hnames : ∃ name rest, q.names.map (·.image) = name :: rest ∧ IsName name ∧
      ∀ s ∈ rest, IsName s by
    obtain ⟨name, rest, hq, hname, hrest⟩ := hnames
    exact ⟨name, rest, hname, hrest, congrArg (".".intercalate ·) hq⟩
  induction q with
  | last name =>
    exact ⟨_, [], rfl, (namedTokens_cons.mp h).1 name.property, List.forall_mem_nil _⟩
  | dotted name dot rest ih =>
    rw [Phrase.QualifiedName.tokens, namedTokens_cons, namedTokens_cons] at h
    obtain ⟨second, others, hothers, hsecond, hrest⟩ := ih h.2.2
    exact ⟨_, second :: others, congrArg (name.val.image :: ·) hothers, h.1 name.property,
      List.forall_mem_cons.mpr ⟨hsecond, hrest⟩⟩

/-! ## References -/

/-- A text is read as one part of a reference. -/
def ReadsPart (text text' : String) : Prop :=
  StartsWord text ∧ ∃ d : Phrase.Part, Spelled true text.toList d.tokens ∧ d.text = .ok text'

theorem readsPart_append {name text text' : String} (hname : IsName name)
    (h : ReadsSubscripts text text') : ReadsPart (name ++ text) (name ++ text') := by
  obtain ⟨hstop, d, hspelled, htext⟩ := h
  refine ⟨hname.startsWord.append text, .mk (Phrase.nameToken name) d, ?_, ?_⟩
  · rw [String.toList_append, Phrase.Part.tokens]
    exact (spelled_token (scanned_name hname .start)).append_optional hspelled (hstop _)
  · rw [Phrase.Part.text, htext]
    rfl

/-- Neither a name nor a closing bracket goes on with a dot. -/
theorem lastContinues_subscripts {t : Token} (ht : t.lexeme.continuesWith '.' = false)
    (d : Phrase.Subscripts) : lastContinues (t :: d.tokens) '.' = false := by
  cases d with
  | nil => exact ht
  | cons start index stop rest =>
    have hstop : stop.val.lexeme.continuesWith '.' = false := by
      rw [Phrase.lexeme_sign]
      rfl
    have hsplit : t :: (Phrase.Subscripts.cons start index stop rest).tokens =
        (t :: start.val :: index.tokens) ++ stop.val :: rest.tokens := by
      rw [Phrase.Subscripts.tokens]
      rfl
    rw [hsplit, lastContinues_append (List.cons_ne_nil _ _)]
    exact lastContinues_subscripts hstop rest

theorem lastContinues_part (d : Phrase.Part) : lastContinues d.tokens '.' = false := by
  obtain ⟨⟨⟨l, image, p⟩, hname⟩, subscripts⟩ := d
  cases l with
  | identifier name => exact lastContinues_subscripts rfl subscripts
  | _ => cases hname

theorem readsReference_intercalate {part part' : String} (hpart : ReadsPart part part')
    {rest rest' : List String} (hrest : List.Forall₂ ReadsPart rest rest') :
    ReadsReference (".".intercalate (part :: rest)) (".".intercalate (part' :: rest')) := by
  refine ⟨hpart.1.intercalate rest, ?_⟩
  suffices h : ∃ d : Phrase.Reference,
      Spelled true (".".intercalate (part :: rest)).toList d.tokens ∧
        d.partTexts = .ok (part' :: rest') by
    obtain ⟨d, hspelled, hparts⟩ := h
    exact ⟨d, hspelled, by rw [Phrase.Reference.text, hparts]; rfl⟩
  obtain ⟨-, d, hspelled, htext⟩ := hpart
  induction hrest generalizing part part' d with
  | nil =>
    refine ⟨.last d, ?_, ?_⟩
    · rw [String.intercalate_singleton, Phrase.Reference.tokens]
      exact hspelled
    · rw [Phrase.Reference.partTexts, htext]
      rfl
  | cons hsecond _ ih =>
    obtain ⟨-, d', hspelled', htext'⟩ := hsecond
    obtain ⟨others, hothers, hparts⟩ := ih d' hspelled' htext'
    refine ⟨.dotted d (Phrase.signToken .dot) others, ?_, ?_⟩
    · rw [String.intercalate_cons_cons, toList_enclosed, Phrase.Reference.tokens]
      exact hspelled.dot (lastContinues_part d) hothers
    · rw [Phrase.Reference.partTexts, htext, ok_bind, hparts]
      rfl

/-- A name is read as a reference. -/
theorem readsReference_name {name : String} (h : IsName name) : ReadsReference name name := by
  have hreference := readsReference_intercalate (readsPart_append h readsSubscripts_nil) .nil
  rw [String.intercalate_singleton, String.append_empty] at hreference
  exact hreference

end Workflow
