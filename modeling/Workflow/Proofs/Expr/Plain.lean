import Workflow.Proofs.Expr.Folding
import Workflow.Proofs.Expr.Occurrence
import Workflow.Proofs.Expr.Reading

/-!
# Texts of plain expressions

The text of a plain expression is read as that expression, with the signs of positive integers
folded into them.
-/

namespace Workflow

open Token

/-! ## Plain expressions -/

/-- Whether an operand is the integer zero. -/
def Operand.isZero : Operand → Bool
  | .primitive (.number (.int n)) => n = 0
  | _ => false

mutual

/-- An expression without floating-point numbers and negated zeros, whose names and references can
be read. -/
def Expr.Plain : Expr → Prop
  | .mk head tail => head.Plain ∧ Expr.PlainTail tail

def Term.Plain : Term → Prop
  | .mk unary operand => operand.Plain ∧ (unary = some .minus → operand.isZero = false)

def Operand.Plain : Operand → Prop
  | .primitive (.number (.float _)) => False
  | .primitive _ => True
  | .list items => Expr.AllPlain items
  | .map entries => Expr.PlainEntries entries ∧ (Fields.names entries).Nodup
  | .reference text => ReadsReference text text
  | .call name args => IsDottedName name ∧ Expr.AllPlain args
  | .paren inner => inner.Plain

def Expr.PlainTail : List (BinaryOp × Term) → Prop
  | [] => True
  | (_, term) :: rest => term.Plain ∧ Expr.PlainTail rest

def Expr.AllPlain : List Expr → Prop
  | [] => True
  | e :: rest => e.Plain ∧ Expr.AllPlain rest

def Expr.PlainEntries : List (String × Expr) → Prop
  | [] => True
  | (_, e) :: rest => e.Plain ∧ Expr.PlainEntries rest

end

theorem Term.plain_none {o : Operand} (h : o.Plain) : (Term.mk none o).Plain :=
  ⟨h, fun hminus => absurd hminus (Option.some_ne_none _).symm⟩

theorem Expr.plain_ofOperand {o : Operand} (h : o.Plain) : (Expr.ofOperand o).Plain :=
  ⟨Term.plain_none h, trivial⟩

mutual

/-- What is inside a plain expression is plain. -/
theorem Expr.Plain.of_mem_parts {e part : Expr} (h : e.Plain) (hpart : part ∈ e.parts) :
    part.Plain := by
  match e with
  | .mk head tail =>
    rw [Expr.parts] at hpart
    rcases List.mem_cons.mp hpart with rfl | hpart
    · exact h
    · rcases List.mem_append.mp hpart with hpart | hpart
      · exact Term.Plain.of_mem_parts h.1 hpart
      · exact Expr.PlainTail.of_mem_parts h.2 hpart

theorem Term.Plain.of_mem_parts {t : Term} {part : Expr} (h : t.Plain) (hpart : part ∈ t.parts) :
    part.Plain := by
  match t with
  | .mk unary operand => exact Operand.Plain.of_mem_parts h.1 hpart

theorem Operand.Plain.of_mem_parts {o : Operand} {part : Expr} (h : o.Plain)
    (hpart : part ∈ o.parts) : part.Plain := by
  match o with
  | .primitive p => cases hpart
  | .list items => exact Expr.AllPlain.of_mem_parts h hpart
  | .map entries => exact Expr.PlainEntries.of_mem_parts h.1 hpart
  | .reference text => cases hpart
  | .call name args => exact Expr.AllPlain.of_mem_parts h.2 hpart
  | .paren inner => exact Expr.Plain.of_mem_parts h hpart

theorem Expr.PlainTail.of_mem_parts {tail : List (BinaryOp × Term)} {part : Expr}
    (h : Expr.PlainTail tail) (hpart : part ∈ Expr.tailParts tail) : part.Plain := by
  match tail with
  | [] => cases hpart
  | (op, term) :: rest =>
    rcases List.mem_append.mp hpart with hpart | hpart
    · exact Term.Plain.of_mem_parts h.1 hpart
    · exact Expr.PlainTail.of_mem_parts h.2 hpart

theorem Expr.AllPlain.of_mem_parts {items : List Expr} {part : Expr} (h : Expr.AllPlain items)
    (hpart : part ∈ Expr.allParts items) : part.Plain := by
  match items with
  | [] => cases hpart
  | e :: rest =>
    rcases List.mem_append.mp hpart with hpart | hpart
    · exact Expr.Plain.of_mem_parts h.1 hpart
    · exact Expr.AllPlain.of_mem_parts h.2 hpart

theorem Expr.PlainEntries.of_mem_parts {entries : List (String × Expr)} {part : Expr}
    (h : Expr.PlainEntries entries) (hpart : part ∈ Expr.entryParts entries) : part.Plain := by
  match entries with
  | [] => cases hpart
  | (key, e) :: rest =>
    rcases List.mem_append.mp hpart with hpart | hpart
    · exact Expr.Plain.of_mem_parts h.1 hpart
    · exact Expr.PlainEntries.of_mem_parts h.2 hpart

end

/-! ## Operands -/

theorem Primitive.exists_token {p : Primitive} (h : (Operand.primitive p).Plain) :
    ∃ t : Phrase.Tok .literal,
      Token.Scanned false t.val ∧ t.val.image = p.text ∧ Phrase.primitiveOf t = p := by
  cases p with
  | null => exact ⟨⟨(Phrase.wordToken .null).val, rfl⟩, (scanned_keyword .null _).mono _, rfl, rfl⟩
  | bool b =>
    cases b with
    | true =>
      exact ⟨⟨(Phrase.wordToken .true).val, rfl⟩, (scanned_keyword .true _).mono _, rfl, rfl⟩
    | false =>
      exact ⟨⟨(Phrase.wordToken .false).val, rfl⟩, (scanned_keyword .false _).mono _, rfl, rfl⟩
  | number x =>
    cases x with
    | int n =>
      exact ⟨⟨⟨.number (.int n), Decimal.intText n.toInt, .start⟩, rfl⟩, scanned_int n _, rfl, rfl⟩
    | float x => exact h.elim
  | string s =>
    exact ⟨⟨⟨.string s, Text.quote s, .start⟩, rfl⟩, (scanned_quote s _).mono _, rfl, rfl⟩

theorem exists_first_of_startsWord {s : String} (h : StartsWord s) (rest : List Char) :
    ∃ c cs, s.toList ++ rest = c :: cs ∧ Decimal.isDigit c = false := by
  obtain ⟨c, cs, hs, hc⟩ := h
  exact ⟨c, cs ++ rest, by rw [hs]; rfl, Lexeme.isDigit_eq_false_of_isWordStart hc⟩

theorem exists_first_intText (n : Int) : ∃ c cs, (Decimal.intText n).toList = c :: cs ∧
    (Decimal.isDigit c = false ∨ 0 ≤ n) := by
  rw [Decimal.intText]
  split
  · exact ⟨'-', _, String.toList_ofList, .inl rfl⟩
  · rename_i hn
    obtain ⟨c, cs, hcs⟩ := List.exists_cons_of_ne_nil (@Nat.toDigits_ne_nil n.natAbs 10)
    exact ⟨c, cs, String.toList_ofList.trans hcs, .inr (by omega)⟩

/-- Only the text of an integer that is not negative starts with a digit. -/
theorem Operand.exists_first {o : Operand} (h : o.Plain) : ∃ c cs, o.text.toList = c :: cs ∧
    (Decimal.isDigit c = false ∨
      ∃ n : Int64, o = .primitive (.number (.int n)) ∧ 0 ≤ n.toInt) := by
  cases o with
  | primitive p =>
    cases p with
    | null => exact ⟨'n', _, rfl, .inl rfl⟩
    | bool b =>
      cases b with
      | true => exact ⟨'t', _, rfl, .inl rfl⟩
      | false => exact ⟨'f', _, rfl, .inl rfl⟩
    | number x =>
      cases x with
      | int n =>
        obtain ⟨c, cs, hcs, hc⟩ := exists_first_intText n.toInt
        exact ⟨c, cs, hcs, hc.imp id fun hn => ⟨n, rfl, hn⟩⟩
      | float x => exact h.elim
    | string s => exact ⟨'"', _, String.toList_ofList, .inl rfl⟩
  | list items => exact ⟨'[', _, toList_enclosed "[" _ "]", .inl rfl⟩
  | map entries => exact ⟨'\x7b', _, toList_enclosed "\x7b" _ "\x7d", .inl rfl⟩
  | reference text =>
    obtain ⟨c, cs, hcs, hc⟩ := exists_first_of_startsWord h.1 []
    rw [List.append_nil] at hcs
    exact ⟨c, cs, hcs, .inl hc⟩
  | call name args =>
    obtain ⟨c, cs, hcs, hc⟩ := exists_first_of_startsWord h.1.1
      ("(".toList ++ (", ".intercalate (Expr.texts args)).toList ++ ")".toList)
    refine ⟨c, cs, ?_, .inl hc⟩
    rw [← hcs, Operand.text]
    simp only [String.toList_append, List.append_assoc]
  | paren inner => exact ⟨'(', _, toList_enclosed "(" _ ")", .inl rfl⟩

theorem Operand.eq_primitive_of_folded {o : Operand} {p : Primitive}
    (h : o.folded = .primitive p) : o = .primitive p := by
  cases o with
  | primitive q => exact h
  | _ => cases h

/-! ## Reading back -/

/-- A minus in front of a positive integer is read as part of the integer. -/
theorem Term.readsAs_negative {n : Int64} (h : 0 < n) :
    ReadsAs (Term.mk (some .minus) (.primitive (.number (.int n)))).text
      (.ofOperand (.primitive (.number (.int (-n))))) := by
  have hpos : 0 < n.toInt := by simpa [Int64.lt_iff_toInt_lt] using h
  have htext : (Term.mk (some .minus) (.primitive (.number (.int n)))).text =
      Decimal.intText (-n).toInt := by
    rw [toInt_neg_of_pos h, ← intText_neg_of_pos hpos]
    rfl
  rw [htext]
  exact readsAs_literal (t := ⟨⟨.number (.int (-n)), Decimal.intText (-n).toInt, .start⟩, rfl⟩)
    (scanned_int (-n) .start)

/-- No digit stands behind a minus that is kept. -/
theorem Operand.stopsAt_minus {o : Operand} (h : o.Plain) (hzero : o.isZero = false)
    (hpos : ∀ n, o = .primitive (.number (.int n)) → ¬ 0 < n) :
    StopsAt (Lexeme.symbol .minus).continuesWith o.text.toList := by
  obtain ⟨c, cs, hcs, hdigit | ⟨n, rfl, hn⟩⟩ := Operand.exists_first h
  · rw [hcs]
    exact stopsAt_cons.mpr hdigit
  · have hne : n.toInt ≠ 0 := by
      intro h0
      have hn0 : n ≠ 0 := of_decide_eq_false hzero
      exact hn0 (Int64.toInt_inj.mp h0)
    have hlt : 0 < n := by
      rw [Int64.lt_iff_toInt_lt]
      exact Int.lt_iff_le_and_ne.mpr ⟨hn, hne.symm⟩
    exact absurd hlt (hpos n rfl)

theorem Term.text_none (o : Operand) : (Term.mk none o).text = o.text := String.empty_append

theorem Term.readsAs_some {op : UnaryOp} {o : Operand} (ho : ReadsAs o.text (.ofOperand o.folded))
    (h : (Term.mk (some op) o).Plain) :
    ReadsAs (Term.mk (some op) o).text (.mk (Term.mk (some op) o).folded []) := by
  -- either the sign goes into the integer, or it stays and no digit may follow it
  obtain ⟨n, hop, hn, hpos, -⟩ | ⟨hstays, hfold⟩ := Term.fold_cases (some op) o.folded
  · cases hop
    cases Operand.eq_primitive_of_folded hn
    have hfolded : (Term.mk (some .minus) (.primitive (.number (.int n)))).folded =
        .mk none (.primitive (.number (.int (-n)))) :=
      if_pos hpos
    rw [hfolded]
    exact Term.readsAs_negative hpos
  · rw [Term.folded, hfold]
    refine readsAs_unary ho fun hop => ?_
    refine Operand.stopsAt_minus h.1 (h.2 (congrArg some hop)) fun n hn => ?_
    rw [hop, hn] at hstays
    exact hstays rfl n rfl

theorem Expr.names_foldedEntries (entries : List (String × Expr)) :
    Fields.names (Expr.foldedEntries entries) = Fields.names entries := by
  induction entries with
  | nil => rfl
  | cons entry rest ih => exact congrArg (entry.1 :: ·) ih

mutual

/-- Plain expressions are read back. -/
theorem Expr.Plain.readable {e : Expr} (h : e.Plain) : ReadsAs e.text e.folded := by
  match e with
  | .mk head tail =>
    rw [Expr.text, Expr.folded]
    exact readsAs_append (Term.Plain.readable h.1) (Expr.PlainTail.readable h.2)

theorem Term.Plain.readable {t : Term} (h : t.Plain) : ReadsAs t.text (.mk t.folded []) := by
  match t with
  | .mk none operand =>
    rw [Term.text_none]
    exact Operand.Plain.readable h.1
  | .mk (some op) operand => exact Term.readsAs_some (Operand.Plain.readable h.1) h

theorem Operand.Plain.readable {o : Operand} (h : o.Plain) :
    ReadsAs o.text (.ofOperand o.folded) := by
  match o with
  | .primitive p =>
    obtain ⟨t, hscanned, himage, hvalue⟩ := Primitive.exists_token h
    rw [Operand.text, ← himage, ← hvalue]
    exact readsAs_literal hscanned
  | .list items =>
    rw [Operand.text, Operand.folded]
    exact readsAs_list (Expr.AllPlain.readable h)
  | .map entries =>
    rw [Operand.text, Operand.folded]
    exact readsAs_map (Expr.PlainEntries.readable h.1) (Expr.names_foldedEntries entries ▸ h.2)
  | .reference text => exact readsAs_reference h
  | .call name args =>
    rw [Operand.text, Operand.folded]
    exact readsAs_call h.1 (Expr.AllPlain.readable h.2)
  | .paren inner =>
    rw [Operand.text, Operand.folded]
    exact readsAs_paren (Expr.Plain.readable h)

theorem Expr.PlainTail.readable {tail : List (BinaryOp × Term)} (h : Expr.PlainTail tail) :
    ReadsTail (Expr.tailText tail) (Expr.foldedTail tail) := by
  match tail with
  | [] => exact readsTail_nil
  | (op, term) :: rest =>
    rw [Expr.tailText, Expr.foldedTail]
    exact readsTail_cons (Term.Plain.readable h.1) (Expr.PlainTail.readable h.2)

theorem Expr.AllPlain.readable {items : List Expr} (h : Expr.AllPlain items) :
    List.Forall₂ ReadsAs (Expr.texts items) (Expr.foldedAll items) := by
  match items with
  | [] => exact .nil
  | e :: rest => exact .cons (Expr.Plain.readable h.1) (Expr.AllPlain.readable h.2)

theorem Expr.PlainEntries.readable {entries : List (String × Expr)}
    (h : Expr.PlainEntries entries) :
    List.Forall₂ ReadsEntry (Expr.entryTexts entries) (Expr.foldedEntries entries) := by
  match entries with
  | [] => exact .nil
  | (key, e) :: rest =>
    exact .cons ⟨e.text, rfl, Expr.Plain.readable h.1⟩ (Expr.PlainEntries.readable h.2)

end

end Workflow
