import Workflow.Expr.Lowering

/-!
# Folding signs

A minus in front of a positive integer and the negative integer are written alike, so that reading
a text back finds the integer. Folding puts the sign into the integer, wherever it stands, and
changes neither the text of an expression nor whether its value is known.
-/

namespace Workflow

/-- A term whose sign goes into the integer behind it if that is positive. -/
def Term.fold : Option UnaryOp → Operand → Term
  | some .minus, .primitive (.number (.int n)) =>
    if 0 < n then .mk none (.primitive (.number (.int (-n))))
    else .mk (some .minus) (.primitive (.number (.int n)))
  | unary, operand => .mk unary operand

mutual

/-- An expression with all signs of positive integers folded into them. -/
def Expr.folded : Expr → Expr
  | .mk head tail => .mk head.folded (Expr.foldedTail tail)

def Term.folded : Term → Term
  | .mk unary operand => Term.fold unary operand.folded

def Operand.folded : Operand → Operand
  | .primitive p => .primitive p
  | .list items => .list (Expr.foldedAll items)
  | .map entries => .map (Expr.foldedEntries entries)
  | .reference text => .reference text
  | .call name args => .call name (Expr.foldedAll args)
  | .paren inner => .paren inner.folded

def Expr.foldedTail : List (BinaryOp × Term) → List (BinaryOp × Term)
  | [] => []
  | (op, term) :: rest => (op, term.folded) :: Expr.foldedTail rest

def Expr.foldedAll : List Expr → List Expr
  | [] => []
  | e :: rest => e.folded :: Expr.foldedAll rest

def Expr.foldedEntries : List (String × Expr) → List (String × Expr)
  | [] => []
  | (key, e) :: rest => (key, e.folded) :: Expr.foldedEntries rest

end

theorem toInt_neg_of_pos {n : Int64} (h : 0 < n) : (-n).toInt = -n.toInt := by
  have hpos : 0 < n.toInt := by simpa [Int64.lt_iff_toInt_lt] using h
  have hlt := n.toInt_lt
  rw [Int64.toInt_neg]
  exact Int.bmod_eq_of_le (by omega) (by omega)

/-- A minus in front of a positive integer is the text of the negative one. -/
theorem intText_neg_of_pos {n : Int} (h : 0 < n) :
    "-" ++ Decimal.intText n = Decimal.intText (-n) := by
  have hneg : -n < 0 := by omega
  have hpos : ¬ n < 0 := by omega
  rw [Decimal.intText, Decimal.intText, if_pos hneg, if_neg hpos, Int.natAbs_neg,
    ← String.toList_inj]
  simp

/-- Two cases of folding: the sign of a positive integer goes, and everything else stays. -/
theorem Term.fold_cases (unary : Option UnaryOp) (operand : Operand) :
    (∃ n, unary = some .minus ∧ operand = .primitive (.number (.int n)) ∧ 0 < n ∧
      Term.fold unary operand = .mk none (.primitive (.number (.int (-n))))) ∨
    ((unary = some .minus → ∀ n, operand = .primitive (.number (.int n)) → ¬ 0 < n) ∧
      Term.fold unary operand = .mk unary operand) := by
  unfold Term.fold
  split
  · rename_i n
    by_cases h : 0 < n
    · exact .inl ⟨n, rfl, rfl, h, if_pos h⟩
    · refine .inr ⟨fun _ m hm => ?_, if_neg h⟩
      cases hm
      exact h
  · rename_i hne
    exact .inr ⟨fun hu n ho => absurd ho (hne n hu), rfl⟩

theorem Term.text_fold (unary : Option UnaryOp) (operand : Operand) :
    (Term.fold unary operand).text = (Term.mk unary operand).text := by
  obtain ⟨n, rfl, rfl, hn, h⟩ | ⟨-, h⟩ := Term.fold_cases unary operand
  · have hpos : 0 < n.toInt := by simpa [Int64.lt_iff_toInt_lt] using hn
    rw [h, Term.text, Term.text, Operand.text, Operand.text, Primitive.text, Primitive.text,
      Number.text, Number.text, toInt_neg_of_pos hn, ← intText_neg_of_pos hpos]
    rfl
  · rw [h]

theorem Term.isLiteral_fold (unary : Option UnaryOp) (operand : Operand) :
    (Term.fold unary operand).isLiteral = (Term.mk unary operand).isLiteral := by
  obtain ⟨n, rfl, rfl, -, h⟩ | ⟨-, h⟩ := Term.fold_cases unary operand
  · rw [h]
    rfl
  · rw [h]

mutual

/-- Folding keeps the text. -/
theorem Expr.text_folded (e : Expr) : e.folded.text = e.text := by
  match e with
  | .mk head tail =>
    rw [Expr.folded, Expr.text, Expr.text, head.text_folded, Expr.tailText_folded tail]

theorem Term.text_folded (t : Term) : t.folded.text = t.text := by
  match t with
  | .mk unary operand =>
    rw [Term.folded, Term.text_fold, Term.text, Term.text, operand.text_folded]

theorem Operand.text_folded (o : Operand) : o.folded.text = o.text := by
  match o with
  | .primitive p => rfl
  | .list items => rw [Operand.folded, Operand.text, Operand.text, Expr.texts_folded items]
  | .map entries =>
    rw [Operand.folded, Operand.text, Operand.text, Expr.entryTexts_folded entries]
  | .reference text => rfl
  | .call name args => rw [Operand.folded, Operand.text, Operand.text, Expr.texts_folded args]
  | .paren inner => rw [Operand.folded, Operand.text, Operand.text, inner.text_folded]

theorem Expr.tailText_folded (tail : List (BinaryOp × Term)) :
    Expr.tailText (Expr.foldedTail tail) = Expr.tailText tail := by
  match tail with
  | [] => rfl
  | (op, term) :: rest =>
    rw [Expr.foldedTail, Expr.tailText, Expr.tailText, term.text_folded, Expr.tailText_folded rest]

theorem Expr.texts_folded (items : List Expr) :
    Expr.texts (Expr.foldedAll items) = Expr.texts items := by
  match items with
  | [] => rfl
  | e :: rest => rw [Expr.foldedAll, Expr.texts, Expr.texts, e.text_folded, Expr.texts_folded rest]

theorem Expr.entryTexts_folded (entries : List (String × Expr)) :
    Expr.entryTexts (Expr.foldedEntries entries) = Expr.entryTexts entries := by
  match entries with
  | [] => rfl
  | (key, e) :: rest =>
    rw [Expr.foldedEntries, Expr.entryTexts, Expr.entryTexts, e.text_folded,
      Expr.entryTexts_folded rest]

end

theorem Expr.isEmpty_foldedTail (tail : List (BinaryOp × Term)) :
    (Expr.foldedTail tail).isEmpty = tail.isEmpty := by
  cases tail with
  | nil => rfl
  | cons first rest => rfl

theorem Operand.signed?_folded (op : UnaryOp) (o : Operand) :
    o.folded.signed? op = o.signed? op := by
  cases o with
  | _ => rfl

mutual

/-- Folding keeps whether a value is known. -/
theorem Expr.isLiteral_folded (e : Expr) : e.folded.isLiteral = e.isLiteral := by
  match e with
  | .mk head tail =>
    rw [Expr.folded, Expr.isLiteral, Expr.isLiteral, Expr.isEmpty_foldedTail,
      head.isLiteral_folded]

theorem Term.isLiteral_folded (t : Term) : t.folded.isLiteral = t.isLiteral := by
  match t with
  | .mk none operand =>
    rw [Term.folded, Term.isLiteral_fold, Term.isLiteral, Term.isLiteral, operand.isLiteral_folded]
  | .mk (some op) operand =>
    rw [Term.folded, Term.isLiteral_fold, Term.isLiteral, Term.isLiteral, operand.signed?_folded]

theorem Operand.isLiteral_folded (o : Operand) : o.folded.isLiteral = o.isLiteral := by
  match o with
  | .primitive p => rfl
  | .list items =>
    rw [Operand.folded, Operand.isLiteral, Operand.isLiteral, Expr.areLiteral_folded items]
  | .map entries =>
    rw [Operand.folded, Operand.isLiteral, Operand.isLiteral,
      Expr.areLiteralEntries_folded entries]
  | .reference text => rfl
  | .call name args => rfl
  | .paren inner => rfl

theorem Expr.areLiteral_folded (items : List Expr) :
    Expr.areLiteral (Expr.foldedAll items) = Expr.areLiteral items := by
  match items with
  | [] => rfl
  | e :: rest =>
    rw [Expr.foldedAll, Expr.areLiteral, Expr.areLiteral, e.isLiteral_folded,
      Expr.areLiteral_folded rest]

theorem Expr.areLiteralEntries_folded (entries : List (String × Expr)) :
    Expr.areLiteralEntries (Expr.foldedEntries entries) = Expr.areLiteralEntries entries := by
  match entries with
  | [] => rfl
  | (key, e) :: rest =>
    rw [Expr.foldedEntries, Expr.areLiteralEntries, Expr.areLiteralEntries, e.isLiteral_folded,
      Expr.areLiteralEntries_folded rest]

end

end Workflow
