import Workflow.Proofs.Program.Built

/-!
# Places of results

Where a statement puts the result of its call, and which variables a syntax tree uses. A place is
written as a simple name exactly if it is a bare name, so that only the others need a temporary.
-/

namespace Workflow

/-! ## Names of temporaries -/

/-- The temporary with a number. -/
def temporary (n : Nat) : String := "__temp" ++ Decimal.natText n

theorem temporary_injective : Function.Injective temporary := by
  intro m n h
  have hchars := congrArg String.toList h
  simp only [temporary, Decimal.natText, String.toList_append, String.toList_ofList] at hchars
  exact toDigits_injective (List.append_cancel_left hchars)

/-! ## Variables and places -/

/-- The variable at the root of a reference. -/
def Node.root? (reference : Node) : Option String :=
  (reference.nodes .subscriptReference).head?.bind fun part =>
    (part.tokens .identifier).head?.map (·.image)

/-- The variable that a node of a syntax tree uses itself: the root of a reference, what a loop or a
`catch` binds, or a parameter. -/
def Node.variable? (n : Node) : Option String :=
  match n.rule with
  | .variableReference => n.root?
  | .forStatement | .tryStatement | .formalParameter => (n.tokens .identifier).head?.map (·.image)
  | _ => none

/-- The name of a reference that has no other part and no subscript. -/
def Node.bareName? (reference : Node) : Option String :=
  match reference.nodes .subscriptReference with
  | [part] => if (part.nodes .subscript).isEmpty then reference.root? else none
  | _ => none

/-- Where a statement puts the result of a call, if it does. -/
def Node.callPlace? (n : Node) : Option Node :=
  match n.rule, n.nodes .namedCall with
  | .callOrAssignment, _ :: _ => (n.nodes .variableReference).head?
  | _, _ => none

theorem Node.callPlace?_eq_some {statement place : Node} (h : statement.callPlace? = some place) :
    statement.rule = .callOrAssignment ∧
      (statement.nodes .variableReference).head? = some place := by
  rw [Node.callPlace?] at h
  split at h
  · rename_i hrule _
    exact ⟨hrule, h⟩
  · cases h

namespace Phrase

open Grammar

theorem isSimpleName_of_isName {text : String} (h : IsName text) :
    Text.isSimpleName text = true := by
  obtain ⟨c, body, rfl, hc, hbody, _⟩ := h
  have hchars : ∀ d ∈ c :: body, Text.isWordChar d = true :=
    List.forall_mem_cons.mpr ⟨by rw [Text.isWordChar, hc, Bool.true_or], hbody⟩
  have hempty : (String.ofList (c :: body)).isEmpty = false := by
    simp
  rw [Text.isSimpleName, hempty, String.toList_ofList, List.all_eq_true.mpr hchars]
  rfl

/-- A place is written as a simple name exactly if it is a bare name. -/
theorem Reference.bareName?_node (d : Reference) (h : NamedTokens d.tokens) {text : String}
    (hb : d.text = .ok text) :
    d.node.bareName? = if Text.isSimpleName text then some text else none := by
  by_cases hsimple : Text.isSimpleName text = true
  · obtain ⟨name, rfl, rfl⟩ := d.exists_eq_last_of_isSimpleName hb hsimple
    rw [if_pos hsimple]
    rfl
  · rw [if_neg hsimple]
    match d with
    | .last (.mk name .nil) =>
      have htext : text = name.val.image := by
        cases hb
        rw [String.intercalate_singleton, String.append_empty]
      rw [Reference.tokens, Part.tokens, namedTokens_cons] at h
      rw [htext] at hsimple
      exact absurd (isSimpleName_of_isName (h.1 name.property)) hsimple
    | .last (.mk name (.cons start index stop rest)) => rfl
    | .dotted part dot (.last second) => rfl
    | .dotted part dot (.dotted second _ rest) => rfl

/-- A call statement has no place for its result. -/
theorem callPlace?_callStatement (name : QualifiedName) (args : CallArguments) :
    Node.callPlace? (callStatement name args) = none := by
  rw [Node.callPlace?]
  split
  · simp [args.variableReference_children]
  · rfl

end Phrase

end Workflow
