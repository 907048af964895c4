import Workflow.Proofs.Grammar.Completeness
import Workflow.Proofs.Grammar.Soundness

/-!
# Looking ahead instead of going back

Behind `=` a call with named arguments or none is tried first and an expression second, and behind
the parenthesis of a call statement named arguments are tried first and positional ones second. The
grammar decides between the two by looking at a few tokens, without reading anything twice. Here the
grammar that goes back is written out, and both read the same trees from the same tokens.
-/

namespace Workflow.Grammar

open Phrase

variable {α : Type} {stop : Position} {q r s : List Token} {a : α}

/-! ## Going back -/

namespace Backtracking

/-- Reads with the first reading, and with the second one from the same tokens if the first one
fails. -/
def orElse (first second : Except ParseError (Read α s)) : Except ParseError (Read α s) :=
  match first with
  | .ok read => .ok read
  | .error _ => second

/-- Reads what stands behind `=`: a call with named arguments or none, else an expression. -/
def rightSide (stop : Position) (s : List Token) : Except ParseError (Read Child s) :=
  orElse
    (do
      let ⟨call, r, h⟩ ← namedCall stop s
      return ⟨.node .namedCall call, r, h⟩)
    (do
      let ⟨value, r, h⟩ ← expression stop s
      return ⟨.node .expression value, r, h⟩)

/-- Reads the arguments of a call statement behind the opening parenthesis, and the closing one:
named arguments, else positional ones, perhaps none. -/
def callArguments (stop : Position) (s : List Token) :
    Except ParseError (Read (List Child) s) :=
  orElse
    (do
      let ⟨child, r, h⟩ ← namedArgumentsUpTo stop s
      return ⟨[child], r, h⟩)
    (do
      let ⟨args, r, h⟩ ← argumentsUpTo stop .rparen s
      return ⟨argumentChild (here stop s) args, r, h⟩)

/-- Reads an assignment or a call statement. -/
def callOrAssignment (stop : Position) (s : List Token) : Except ParseError (Read Node s) := do
  let position := here stop s
  let ⟨parts, behind, h⟩ ← reference stop s
  match after h (accept? (.symbol .assign) behind) with
  | some ⟨assign, r, h⟩ => do
    let ⟨value, r, h⟩ ← after h (rightSide stop r)
    return ⟨.mk .callOrAssignment position
      [.node .variableReference (referenceNode position parts), .token .assign assign, value], r, h⟩
  | none =>
    match after h (accept? (.symbol .lparen) behind) with
    | none => .error (unexpected stop .assignOrCall behind)
    | some ⟨_, r, h⟩ =>
      if isSubscripted parts then .error (unexpected stop .plainName behind)
      else do
        let ⟨args, r, h⟩ ← after h (callArguments stop r)
        return ⟨.mk .callOrAssignment position
          (.node .qualifiedName (nameNode position parts) :: args), r, h⟩

theorem reads_orElse {first second : Except ParseError (Read α s)} :
    Reads (orElse first second) a r ↔
      Reads first a r ∨ (∀ b q, ¬ Reads first b q) ∧ Reads second a r := by
  cases first with
  | ok read =>
    have hread : Reads (.ok read : Except ParseError (Read α s)) read.value read.rest :=
      reads_ok.mpr ⟨rfl, rfl⟩
    exact ⟨.inl, fun h => h.elim id fun h => absurd hread (h.1 _ _)⟩
  | error e =>
    exact ⟨fun h => .inr ⟨fun b q => not_reads_error e, h⟩,
      fun h => h.elim (fun h => absurd h (not_reads_error e)) And.right⟩

end Backtracking

/-! ## What is seen ahead -/

/-- A call with named arguments or none is seen before it is read. -/
theorem namedCallAhead_of_reads {n : Node} (h : Reads (namedCall stop s) n q) :
    namedCallAhead s = true := by
  obtain ⟨name, start, args, rfl, -, hq⟩ := exists_namedCall h
  rw [namedCallAhead_name, args.ahead hq]

theorem namedArgumentAhead_of_reads {c : Child} (h : Reads (namedArgumentsUpTo stop s) c q) :
    namedArgumentAhead s = true := by
  obtain ⟨args, rfl, -⟩ := exists_namedArgumentsUpTo h
  exact args.namedArgumentAhead

/-- Positional arguments do not start with a named one. -/
theorem namedArgumentAhead_of_reads_positional {args : List Node}
    (h : Reads (argumentsUpTo stop .rparen s) args q) : namedArgumentAhead s = false := by
  obtain ⟨args, rfl, -⟩ := exists_argumentsUpTo h
  exact args.namedArgumentAhead

/-- What is seen ahead starts with the name of a call. -/
theorem exists_name_of_namedCallAhead (h : namedCallAhead s = true) :
    ∃ (name : QualifiedName) (start : Sign .lparen) (r : List Token),
      s = name.tokens ++ start.val :: r ∧ namedOrNoArgumentsAhead r = true := by
  fun_induction namedCallAhead s with
  | case1 t u rest ih =>
    obtain ⟨ht, h⟩ := Bool.and_eq_true_iff.mp h
    split at h
    · rename_i hdot
      obtain ⟨name, start, r, rfl, hr⟩ := ih h
      exact ⟨.dotted ⟨t, ht⟩ ⟨u, decide_eq_true hdot⟩ name, start, r, rfl, hr⟩
    · obtain ⟨hparen, hr⟩ := Bool.and_eq_true_iff.mp h
      exact ⟨.last ⟨t, ht⟩, ⟨u, hparen⟩, rest, rfl, hr⟩
  | case2 => cases h

/-- No arguments, or a first named one. -/
theorem namedOrNoArgumentsAhead_cases (h : namedOrNoArgumentsAhead s = true) :
    (∃ (close : Sign .rparen) (r : List Token), s = close.val :: r ∧
      accept? .binaryOperator r = none) ∨ namedArgumentAhead s = true := by
  cases s with
  | nil => cases h
  | cons t rest =>
    rw [namedOrNoArgumentsAhead] at h
    split at h
    · rename_i hclose
      refine .inl ⟨⟨t, decide_eq_true hclose⟩, rest, rfl, accept?_eq_none_iff.mpr fun u hu => ?_⟩
      rw [Option.mem_def.mp hu] at h
      simpa [Terminal.accepts] using h
    · exact .inr h

/-- Where a name and a parenthesis come first, a term has positional arguments next. -/
theorem exists_arguments_of_reads_operand (name : QualifiedName) (start : Sign .lparen)
    {c : List Child} (h : Reads (operand stop (name.tokens ++ start.val :: r)) c q) :
    ∃ args, Reads (argumentsUpTo stop .rparen r) args q := by
  have hname : Reads (reference stop (name.tokens ++ start.val :: r)) name.reference.nodes
      (start.val :: r) := name.reads start r
  obtain ⟨t, rest, htokens, ht⟩ := name.startsWith.append (start.val :: r)
  rw [htokens] at h hname
  obtain ⟨hshorter, hreference⟩ := hname
  rw [operand] at h
  cases hl : t.lexeme with
  | identifier text =>
    simp only [hl, Lexeme.isLiteral, Bool.false_eq_true, if_false, hreference, ok_bind, accept?_tok,
      after_some, Read.after, name.isSubscripted_reference, reads_bind, reads_after] at h
    obtain ⟨args, q, hargs, hq⟩ := h
    obtain ⟨-, rfl⟩ := reads_pure.mp hq
    exact ⟨args, hargs⟩
  | _ => simp [hl, Lexeme.isIdentifier] at ht

theorem exists_arguments_of_reads_expression (name : QualifiedName) (start : Sign .lparen)
    {n : Node} (h : Reads (expression stop (name.tokens ++ start.val :: r)) n q) :
    ∃ args q, Reads (argumentsUpTo stop .rparen r) args q := by
  -- a name is no operator in front of a term
  have hunary : accept? .unaryOperator (name.tokens ++ start.val :: r) = none :=
    (name.startsWith.append _).accept?_eq_none fun l hl =>
      isUnaryOp_of_startsOperand l (startsOperand_of_isIdentifier l hl)
  rw [expression, reads_bind] at h
  obtain ⟨_, _, hterm, -⟩ := h
  rw [term, hunary] at hterm
  simp only [reads_bind] at hterm
  obtain ⟨_, q, hoperand, -⟩ := hterm
  obtain ⟨args, hargs⟩ := exists_arguments_of_reads_operand name start hoperand
  exact ⟨args, q, hargs⟩

/-- Where a call with named arguments or none is seen ahead, it is read if an expression is. -/
theorem exists_reads_namedCall {n : Node} (hahead : namedCallAhead s = true)
    (h : Reads (expression stop s) n q) : ∃ n q, Reads (namedCall stop s) n q := by
  obtain ⟨name, start, r, rfl, hr⟩ := exists_name_of_namedCallAhead hahead
  rcases namedOrNoArgumentsAhead_cases hr with ⟨close, rest, rfl, hrest⟩ | hnamed
  · exact ⟨_, rest, reads_namedCall name start (.none close) hrest⟩
  · obtain ⟨args, q', hargs⟩ := exists_arguments_of_reads_expression name start h
    rw [namedArgumentAhead_of_reads_positional hargs] at hnamed
    cases hnamed

/-! ## Both grammars read the same -/

/-- What is seen ahead decides between the two right-hand sides. -/
theorem Backtracking.reads_rightSide {c : Child} : Reads (rightSide stop s) c r ↔
    if namedCallAhead s then ∃ call, Reads (namedCall stop s) call r ∧ .node .namedCall call = c
    else ∃ value, Reads (expression stop s) value r ∧ .node .expression value = c := by
  rw [rightSide, reads_orElse]
  simp only [reads_bind, reads_pure, exists_prop]
  split
  · rename_i hahead
    constructor
    · rintro (⟨call, _, hcall, rfl, rfl⟩ | ⟨hfails, value, _, hvalue, -, -⟩)
      · exact ⟨call, hcall, rfl⟩
      · obtain ⟨call, q, hcall⟩ := exists_reads_namedCall hahead hvalue
        exact absurd ⟨call, q, hcall, rfl, rfl⟩ (hfails _ _)
    · rintro ⟨call, hcall, rfl⟩
      exact .inl ⟨call, r, hcall, rfl, rfl⟩
  · rename_i hahead
    have hfails (call : Node) (q : List Token) : ¬ Reads (namedCall stop s) call q :=
      fun hcall => hahead (namedCallAhead_of_reads hcall)
    constructor
    · rintro (⟨call, q, hcall, -, -⟩ | ⟨-, value, _, hvalue, rfl, rfl⟩)
      · exact absurd hcall (hfails call q)
      · exact ⟨value, hvalue, rfl⟩
    · rintro ⟨value, hvalue, rfl⟩
      refine .inr ⟨?_, value, r, hvalue, rfl, rfl⟩
      rintro _ _ ⟨call, q, hcall, -⟩
      exact hfails call q hcall

/-- What is seen ahead decides between named and positional arguments. -/
theorem Backtracking.reads_callArguments {c : List Child} :
    Reads (Backtracking.callArguments stop s) c r ↔ Reads (Grammar.callArguments stop s) c r := by
  rw [Backtracking.callArguments, Grammar.callArguments, reads_orElse]
  split
  · rename_i hahead
    have hfails (args : List Node) (q : List Token) :
        ¬ Reads (argumentsUpTo stop .rparen s) args q := by
      intro hargs
      rw [namedArgumentAhead_of_reads_positional hargs] at hahead
      cases hahead
    refine ⟨fun h => h.elim id fun h => ?_, .inl⟩
    obtain ⟨args, q, hargs, -⟩ := reads_bind.mp h.2
    exact absurd hargs (hfails args q)
  · rename_i hahead
    have hfails (child : Child) (q : List Token) : ¬ Reads (namedArgumentsUpTo stop s) child q :=
      fun hargs => hahead (namedArgumentAhead_of_reads hargs)
    refine ⟨fun h => h.elim (fun h => ?_) And.right, fun h => .inr ⟨fun c q hnamed => ?_, h⟩⟩
    · obtain ⟨child, q, hargs, -⟩ := reads_bind.mp h
      exact absurd hargs (hfails child q)
    · obtain ⟨child, q, hargs, -⟩ := reads_bind.mp hnamed
      exact hfails child q hargs

theorem Backtracking.reads_callOrAssignment {n : Node} :
    Reads (Backtracking.callOrAssignment stop s) n r ↔
      Reads (Grammar.callOrAssignment stop s) n r := by
  rw [Backtracking.callOrAssignment, Grammar.callOrAssignment, reads_bind, reads_bind]
  refine exists_congr fun parts => exists_congr fun behind => exists_congr fun hparts => ?_
  dsimp only
  obtain hnone | ⟨assign, r, rfl⟩ := accept?_cases (.symbol .assign) behind
  · simp only [hnone, after_none]
    obtain hnone | ⟨start, r, rfl⟩ := accept?_cases (.symbol .lparen) behind
    · simp only [hnone, after_none]
    · simp only [accept?_tok, after_some, Read.after]
      split
      · rfl
      · simp only [reads_bind, reads_after, Backtracking.reads_callArguments]
  · simp only [accept?_tok, after_some, Read.after]
    simp only [reads_bind, reads_after, Backtracking.reads_rightSide, reads_pure]
    split
    · simp only [reads_bind, reads_after, reads_pure]
      constructor
      · rintro ⟨_, q, ⟨call, hcall, rfl⟩, rfl, rfl⟩
        exact ⟨call, q, hcall, rfl, rfl⟩
      · rintro ⟨call, q, hcall, rfl, rfl⟩
        exact ⟨_, q, ⟨call, hcall, rfl⟩, rfl, rfl⟩
    · simp only [reads_bind, reads_after, reads_pure]
      constructor
      · rintro ⟨_, q, ⟨value, hvalue, rfl⟩, rfl, rfl⟩
        exact ⟨value, q, hvalue, rfl, rfl⟩
      · rintro ⟨value, q, hvalue, rfl, rfl⟩
        exact ⟨_, q, ⟨value, hvalue, rfl⟩, rfl, rfl⟩

/-- Looking ahead and going back read the same. Behind `=` a call is read where one is seen ahead
and an expression elsewhere, and that is what going back reads; behind the parenthesis of a call
statement, and of whole statements, both read the same trees and leave the same tokens, so that one
of them fails where the other does. -/
theorem callOrAssignment_backtracks (stop : Position) (s r : List Token) :
    (∀ c, (if namedCallAhead s then
        ∃ call, Reads (namedCall stop s) call r ∧ Child.node .namedCall call = c
      else ∃ value, Reads (expression stop s) value r ∧ Child.node .expression value = c) ↔
        Reads (Backtracking.rightSide stop s) c r) ∧
    (∀ c, Reads (callArguments stop s) c r ↔ Reads (Backtracking.callArguments stop s) c r) ∧
    ∀ n, Reads (callOrAssignment stop s) n r ↔ Reads (Backtracking.callOrAssignment stop s) n r :=
  ⟨fun _ => Backtracking.reads_rightSide.symm, fun _ => Backtracking.reads_callArguments.symm,
    fun _ => Backtracking.reads_callOrAssignment.symm⟩

end Workflow.Grammar
