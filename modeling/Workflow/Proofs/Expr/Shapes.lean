import Workflow.Proofs.Number.Rounding
import Workflow.Step.Options

/-!
# Shapes of literal values

What an option may be given as, told by the form of the expression: a string, a list of strings, a
number with or without a sign, or words with dots between them. Each shape has a value, and the
functions that read options give exactly this value.
-/

namespace Workflow

/-! ## Opposite numbers -/

/-- A number is another one with its sign changed. Integers stay integers, but for the one whose
opposite has no place in 64 bits: its opposite is a floating-point number of the same value. -/
inductive Number.Opposite : Number → Number → Prop where
  | int {n k : Int64} (h : k.toInt = -n.toInt) : Opposite (.int n) (.int k)
  | overflow {n : Int64} {x : Binary64} (hrange : Int64.maxValue.toInt < -n.toInt)
      (hvalue : x.value = -n.toInt) : Opposite (.int n) (.float x)
  | float {x y : Binary64} (hsign : y.isNegative = !x.isNegative)
      (hmagnitude : y.magnitude = x.magnitude) : Opposite (.float x) (.float y)

/-- Positive numbers are told apart by their values. -/
theorem Binary64.eq_of_value_eq {x y : Binary64} (h : x.value = y.value) (hpos : 0 < x.value) :
    x = y := by
  have hsign {z : Binary64} (hz : 0 < z.value) : z.isNegative = false := by
    by_contra hnegative
    rw [value, if_pos (by simpa using hnegative)] at hz
    linarith [z.size_nonneg]
  have hx := hsign hpos
  have hy := hsign (h ▸ hpos)
  rw [value, value, hx, hy, if_neg Bool.false_ne_true, if_neg Bool.false_ne_true, size_eq_sizeAt,
    size_eq_sizeAt] at h
  rw [← x.ofParts_magnitude, ← y.ofParts_magnitude, hx, hy, strictMono_sizeAt.injective h]

theorem Number.opposite_iff {n m : Number} : n.Opposite m ↔ m = n.neg := by
  have hmin : Int64.minValue.toInt = -9223372036854775808 := by decide
  have hmax : Int64.maxValue.toInt = 9223372036854775807 := by decide
  constructor
  · intro h
    cases h with
    | @int n k h =>
      have hne : n ≠ Int64.minValue := by
        rintro rfl
        have := k.toInt_le
        omega
      rw [neg, if_neg hne]
      exact congrArg Number.int (Int64.toInt_inj.mp (h.trans (toInt_neg hne).symm))
    | @overflow n x hrange hvalue =>
      obtain rfl : n = Int64.minValue := by
        have := n.minValue_le_toInt
        exact Int64.toInt_inj.mp (by omega)
      rw [neg, if_pos rfl]
      refine congrArg Number.float (Binary64.eq_of_value_eq ?_ ?_)
      · rw [hvalue, Binary64.value_opposite_minValue]
      · rw [hvalue, hmin]
        norm_num
    | @float x y hsign hmagnitude =>
      rw [neg, Binary64.neg, ← hsign, ← hmagnitude, y.ofParts_magnitude]
  · rintro rfl
    cases n with
    | int n =>
      rw [neg]
      split
      · rename_i h
        subst h
        exact .overflow (by decide) Binary64.value_opposite_minValue
      · rename_i h
        exact .int (toInt_neg h)
    | float x => exact .float x.isNegative_neg x.magnitude_neg

theorem Number.isFinite_neg {n : Number} : n.neg.IsFinite ↔ n.IsFinite := by
  cases n with
  | int n =>
    refine iff_of_true ?_ trivial
    rw [neg]
    split
    · rename_i h
      subst h
      show Binary64.isFinite _ = true
      decide +kernel
    · trivial
  | float x =>
    show x.neg.isFinite = true ↔ x.isFinite = true
    rw [x.isFinite_neg]

/-! ## Dotted names -/

namespace Text

/-- A letter or an underscore, and letters, digits and underscores behind it. -/
def IsWord : List Char → Prop
  | [] => False
  | c :: body => isWordStart c = true ∧ ∀ d ∈ body, isWordChar d = true

/-- Cut at its dots, a text is made of words. -/
def JoinsWords (s : String) : Prop := ∀ part ∈ s.toList.splitOn '.', IsWord part

/-- Words with dots between them follow at the start of a word and inside one. -/
theorem exists_splitOn_isDotted (cs : List Char) : ∃ first rest, cs.splitOn '.' = first :: rest ∧
    (isDotted true cs = true ↔ IsWord first ∧ ∀ part ∈ rest, IsWord part) ∧
    (isDotted false cs = true ↔
      (∀ d ∈ first, isWordChar d = true) ∧ ∀ part ∈ rest, IsWord part) := by
  induction cs with
  | nil => exact ⟨[], [], rfl, by simp [isDotted, IsWord], by simp [isDotted]⟩
  | cons c cs ih =>
    obtain ⟨first, rest, hsplit, hstart, hinside⟩ := ih
    rw [List.splitOn] at hsplit
    rw [List.splitOn, List.splitOnP_cons_eq_if_modifyHead, hsplit]
    by_cases hc : c = '.'
    · subst hc
      refine ⟨[], first :: rest, rfl, by simp [isDotted, IsWord], ?_⟩
      rw [isDotted, if_pos rfl, List.forall_mem_cons]
      simpa using hstart
    · refine ⟨c :: first, rest, by rw [if_neg (by simpa using hc)]; rfl, ?_, ?_⟩
      · simp only [isDotted, if_neg hc, if_true, Bool.and_eq_true, hinside, IsWord, and_assoc]
      · rw [isDotted, if_neg hc, List.forall_mem_cons]
        simp only [Bool.false_eq_true, if_false, Bool.and_eq_true, hinside, and_assoc]

theorem isDottedName_iff {s : String} : isDottedName s = true ↔ JoinsWords s := by
  obtain ⟨first, rest, hsplit, hstart, -⟩ := exists_splitOn_isDotted s.toList
  rw [isDottedName, JoinsWords, hsplit, hstart, List.forall_mem_cons]

end Text

/-! ## Literal values -/

/-- A number behind a sign. -/
theorem Operand.signed?_eq_some_iff {op : UnaryOp} {operand : Operand} {n : Number} :
    operand.signed? op = some n ↔ ∃ m, operand = .primitive (.number m) ∧
      (op = .plus ∧ n = m ∨ op = .minus ∧ n = m.neg) := by
  cases operand with
  | primitive p =>
    cases p with
    | number m => cases op <;> simp [Operand.signed?, eq_comm]
    | _ => simp [Operand.signed?]
  | _ => simp [Operand.signed?]

/-- The value of an expression is known if it is a single literal operand or a number behind a
sign. -/
theorem Expr.literal?_eq_some_iff {e : Expr} {d : Document} :
    e.literal? = some d ↔
      (∃ operand, e = .ofOperand operand ∧ operand.isLiteral = true ∧ operand.toDocument = d) ∨
      ∃ op operand n, e = .mk (.mk (some op) operand) [] ∧ operand.signed? op = some n ∧
        n.toDocument = d := by
  obtain ⟨⟨unary, operand⟩, tail⟩ := e
  rw [Expr.literal?, Option.ite_none_right_eq_some, Option.some.injEq]
  cases tail with
  | cons first rest => simp [Expr.isLiteral, Expr.ofOperand]
  | nil =>
    cases unary with
    | none =>
      simp [Expr.isLiteral, Term.isLiteral, Expr.toDocument, Term.toDocument, Expr.ofOperand]
    | some op =>
      cases hsigned : operand.signed? op with
      | none => simp [Expr.isLiteral, Term.isLiteral, Expr.ofOperand, hsigned]
      | some n =>
        simp [Expr.isLiteral, Term.isLiteral, Expr.toDocument, Term.toDocument, Expr.ofOperand,
          hsigned]

/-- An expression is a literal string. -/
def Expr.IsString (e : Expr) (s : String) : Prop := e = .ofOperand (.primitive (.string s))

/-- An expression is a list of literal strings. -/
def Expr.IsStringList (e : Expr) (strings : List String) : Prop :=
  ∃ items, e = .ofOperand (.list items) ∧ List.Forall₂ Expr.IsString items strings

/-- An expression is a number that a document can hold, with or without a sign in front of it. -/
inductive Expr.IsNumber : Expr → Number → Prop where
  | plain {n : Number} (hfinite : n.IsFinite) : IsNumber (.ofOperand (.primitive (.number n))) n
  | plus {n : Number} (hfinite : n.IsFinite) :
      IsNumber (.mk (.mk (some .plus) (.primitive (.number n))) []) n
  | minus {n m : Number} (hfinite : n.IsFinite) (hopposite : n.Opposite m) :
      IsNumber (.mk (.mk (some .minus) (.primitive (.number n))) []) m

/-- An expression is a dotted name and nothing else. -/
def Expr.IsDotted (e : Expr) (name : String) : Prop := e = .reference name ∧ Text.JoinsWords name

/-- The document of a number is a number or stands for none. -/
theorem Number.toDocument_cases (n : Number) :
    (∃ k, n.toDocument = .int k) ∨ (∃ x, n.toDocument = .float x) ∨ n.toDocument = .null := by
  cases n with
  | int n => exact .inl ⟨n.toInt, rfl⟩
  | float x =>
    rw [Number.toDocument]
    split
    · exact .inr (.inl ⟨x, rfl⟩)
    · exact .inr (.inr rfl)

theorem Number.number?_toDocument_iff {n m : Number} :
    n.toDocument.number? = some m ↔ n.IsFinite ∧ n = m := by
  cases n with
  | int n =>
    rw [Number.toDocument, Document.number?, Number.ofInt?_toInt]
    simp [Number.IsFinite]
  | float x =>
    rw [Number.toDocument, Number.IsFinite]
    by_cases h : x.isFinite = true
    · simp [h, Document.number?]
    · simp [h, Document.number?]

theorem Expr.literal?_eq_string_iff {e : Expr} {s : String} :
    e.literal? = some (.string s) ↔ e.IsString s := by
  have hne (n : Number) : n.toDocument ≠ .string s := by
    rcases n.toDocument_cases with ⟨k, h⟩ | ⟨x, h⟩ | h <;> simp [h]
  rw [literal?_eq_some_iff, IsString]
  constructor
  · rintro (⟨operand, rfl, hliteral, hdocument⟩ | ⟨op, operand, n, -, -, hdocument⟩)
    · cases operand with
      | primitive p =>
        cases p with
        | string s' =>
          cases hdocument
          rfl
        | number n => exact absurd hdocument (hne n)
        | _ => cases hdocument
      | list items => cases hdocument
      | map entries => cases hdocument
      | _ => cases hliteral
    · exact absurd hdocument (hne n)
  · rintro rfl
    exact .inl ⟨_, rfl, rfl, rfl⟩

theorem Expr.literal?_eq_array_iff {e : Expr} {documents : List Document} :
    e.literal? = some (.array documents) ↔ ∃ items, e = .ofOperand (.list items) ∧
      Expr.areLiteral items = true ∧ Expr.toDocuments items = documents := by
  have hne (n : Number) : n.toDocument ≠ .array documents := by
    rcases n.toDocument_cases with ⟨k, h⟩ | ⟨x, h⟩ | h <;> simp [h]
  rw [literal?_eq_some_iff]
  constructor
  · rintro (⟨operand, rfl, hliteral, hdocument⟩ | ⟨op, operand, n, -, -, hdocument⟩)
    · cases operand with
      | primitive p =>
        cases p with
        | number n => exact absurd hdocument (hne n)
        | _ => cases hdocument
      | list items =>
        cases hdocument
        exact ⟨items, rfl, hliteral, rfl⟩
      | map entries => cases hdocument
      | _ => cases hliteral
    · exact absurd hdocument (hne n)
  · rintro ⟨items, rfl, hliteral, rfl⟩
    exact .inl ⟨.list items, rfl, hliteral, rfl⟩

theorem Expr.literal?_number_iff {e : Expr} {m : Number} :
    e.literal?.bind Document.number? = some m ↔ e.IsNumber m := by
  rw [Option.bind_eq_some_iff]
  constructor
  · rintro ⟨d, hliteral, hnumber⟩
    rcases literal?_eq_some_iff.mp hliteral with
      ⟨operand, rfl, hliteral, rfl⟩ | ⟨op, operand, n, rfl, hsigned, rfl⟩
    · cases operand with
      | primitive p =>
        cases p with
        | number n =>
          obtain ⟨hfinite, rfl⟩ := Number.number?_toDocument_iff.mp hnumber
          exact .plain hfinite
        | _ => cases hnumber
      | list items => cases hnumber
      | map entries => cases hnumber
      | _ => cases hliteral
    · obtain ⟨hfinite, rfl⟩ := Number.number?_toDocument_iff.mp hnumber
      obtain ⟨k, rfl, ⟨rfl, rfl⟩ | ⟨rfl, rfl⟩⟩ := Operand.signed?_eq_some_iff.mp hsigned
      · exact .plus hfinite
      · exact .minus (Number.isFinite_neg.mp hfinite) (Number.opposite_iff.mpr rfl)
  · intro h
    cases h with
    | plain hfinite =>
      exact ⟨_, literal?_eq_some_iff.mpr (.inl ⟨_, rfl, rfl, rfl⟩),
        Number.number?_toDocument_iff.mpr ⟨hfinite, rfl⟩⟩
    | plus hfinite =>
      exact ⟨_, literal?_eq_some_iff.mpr (.inr ⟨_, _, _, rfl, rfl, rfl⟩),
        Number.number?_toDocument_iff.mpr ⟨hfinite, rfl⟩⟩
    | minus hfinite hopposite =>
      rw [Number.opposite_iff] at hopposite
      subst hopposite
      exact ⟨_, literal?_eq_some_iff.mpr (.inr ⟨_, _, _, rfl, rfl, rfl⟩),
        Number.number?_toDocument_iff.mpr ⟨Number.isFinite_neg.mpr hfinite, rfl⟩⟩

/-- The documents of literal items are strings exactly if the items are. -/
theorem Expr.strings?_toDocuments_iff {items : List Expr} {strings : List String} :
    Expr.areLiteral items = true ∧ Document.strings? (Expr.toDocuments items) = some strings ↔
      List.Forall₂ Expr.IsString items strings := by
  induction items generalizing strings with
  | nil =>
    simp [Expr.areLiteral, Expr.toDocuments, Document.strings?, eq_comm]
  | cons e items ih =>
    rw [Expr.areLiteral, Bool.and_eq_true, Expr.toDocuments]
    constructor
    · rintro ⟨⟨hliteral, hitems⟩, hstrings⟩
      cases hdocument : e.toDocument with
      | string s =>
        rw [hdocument, Document.strings?, Option.map_eq_some_iff] at hstrings
        obtain ⟨others, hothers, rfl⟩ := hstrings
        refine .cons (literal?_eq_string_iff.mp ?_) (ih.mp ⟨hitems, hothers⟩)
        rw [Expr.literal?, if_pos hliteral, hdocument]
      | _ =>
        rw [hdocument] at hstrings
        cases hstrings
    · intro h
      cases h with
      | cons hs hothers =>
        obtain ⟨hitems, hstrings⟩ := ih.mpr hothers
        subst hs
        refine ⟨⟨rfl, hitems⟩, ?_⟩
        show Option.map _ _ = _
        rw [hstrings]
        rfl

/-! ## Values of options -/

theorem ParallelOptions.sharedNames?_eq_some_iff {e : Expr} {names : List String} :
    sharedNames? e = some names ↔ e.IsStringList names := by
  rw [sharedNames?, Expr.IsStringList]
  split
  · rename_i documents hliteral
    obtain ⟨items, rfl, hitems, rfl⟩ := Expr.literal?_eq_array_iff.mp hliteral
    constructor
    · exact fun h => ⟨items, rfl, Expr.strings?_toDocuments_iff.mp ⟨hitems, h⟩⟩
    · rintro ⟨_, heq, h⟩
      cases heq
      exact (Expr.strings?_toDocuments_iff.mpr h).2
  · rename_i hnot
    refine iff_of_false (by simp) ?_
    rintro ⟨items, rfl, h⟩
    exact hnot _ (Expr.literal?_eq_array_iff.mpr
      ⟨items, rfl, (Expr.strings?_toDocuments_iff.mpr h).1, rfl⟩)

theorem ParallelOptions.limit?_eq_some_iff {e : Expr} {limit : Int64} :
    limit? e = some limit ↔ e.IsNumber (.int limit) := by
  rw [limit?, ← Expr.literal?_number_iff]
  split
  · rename_i n hn
    simp [hn]
  · rename_i hnot
    exact iff_of_false (by simp) (hnot limit)

theorem ParallelOptions.policy?_eq_some_iff {e : Expr} {policy : String} :
    policy? e = some policy ↔ policy = "continueAll" ∧ e.IsString policy := by
  rw [policy?, ← Expr.literal?_eq_string_iff]
  split
  · rename_i s hs
    rw [hs, Option.ite_none_right_eq_some, Option.some.injEq, Option.some.injEq,
      Document.string.injEq]
    constructor
    · rintro ⟨hname, rfl⟩
      exact ⟨hname, rfl⟩
    · rintro ⟨hname, rfl⟩
      exact ⟨hname, rfl⟩
  · rename_i hnot
    exact iff_of_false (by simp) fun h => hnot policy h.2

theorem Expr.dottedName?_eq_some_iff {e : Expr} {name : String} :
    e.dottedName? = some name ↔ e.IsDotted name := by
  rw [Expr.IsDotted, ← Text.isDottedName_iff]
  obtain ⟨⟨unary, operand⟩, tail⟩ := e
  cases tail with
  | cons first rest => exact iff_of_false (by simp [dottedName?, single?]) fun h => by cases h.1
  | nil =>
    cases unary with
    | some op => exact iff_of_false (by simp [dottedName?, single?]) fun h => by cases h.1
    | none =>
      cases operand with
      | reference text =>
        rw [dottedName?]
        dsimp only [single?]
        rw [Option.ite_none_right_eq_some, Option.some.injEq]
        constructor
        · rintro ⟨hdotted, rfl⟩
          exact ⟨rfl, hdotted⟩
        · rintro ⟨heq, hdotted⟩
          cases heq
          exact ⟨hdotted, rfl⟩
      | _ => exact iff_of_false (by simp [dottedName?, single?]) fun h => by cases h.1

end Workflow
