import Workflow.Proofs.Layout.Alike

/-!
# Expressions do not depend on positions

Trees that are alike are built into the same expression, or fail with faults that are reported alike.
-/

namespace Workflow

/-- Computations on trees agree. -/
abbrev Agrees {α : Type} (R : α → α → Prop) (x y : Except BuildError α) : Prop :=
  Agree BuildError.Alike R x y

theorem agrees_refl {α : Type} (x : Except BuildError α) : Agrees Eq x x :=
  Agree.refl (E := BuildError.Alike) (fun _ => rfl) x

section

variable {n m : Node}

theorem expectRule_agrees (h : n.Alike m) (rule : Rule) :
    Agrees Eq (liftM (n.expectRule rule) : Except BuildError Unit) (liftM (m.expectRule rule)) := by
  rw [Node.expectRule, Node.expectRule, h.rule_eq]
  exact agrees_refl _

theorem requireToken_agrees (h : n.Alike m) (slot : Slot) :
    Agrees Token.Alike (liftM (n.requireToken slot) : Except BuildError Token)
      (liftM (m.requireToken slot)) := by
  rw [Node.requireToken, Node.requireToken, h.rule_eq]
  obtain ⟨h, h'⟩ | ⟨t, t', h, h', ht⟩ := h.token? slot
  · rw [h, h']
    exact .error rfl
  · rw [h, h']
    exact .ok ht

theorem requireNode_agrees (h : n.Alike m) (slot : Slot) :
    Agree BuildError.Alike (fun (c : n.Below) (c' : m.Below) => c.val.Alike c'.val)
      (liftM (n.requireNode slot) : Except BuildError n.Below) (liftM (m.requireNode slot)) := by
  rw [Node.requireNode, Node.requireNode, h.rule_eq]
  obtain ⟨h, h'⟩ | ⟨c, c', _, _, h, h', hc⟩ := h.node? slot
  · rw [h, h']
    exact .error rfl
  · rw [h, h']
    exact .ok hc

/-! ## Expressions -/

theorem Primitive.ofNode_agrees (h : n.Alike m) :
    Agrees Eq (Primitive.ofNode n) (Primitive.ofNode m) := by
  rw [Primitive.ofNode, Primitive.ofNode]
  refine (expectRule_agrees h _).bind fun _ _ _ => ?_
  refine (requireToken_agrees h _).bind fun t t' ht => ?_
  rw [ht.1]
  exact agrees_refl _

theorem BinaryOp.ofToken_agrees {t t' : Token} (ht : t.Alike t') :
    Agrees Eq (BinaryOp.ofToken t) (BinaryOp.ofToken t') := by
  rw [BinaryOp.ofToken, BinaryOp.ofToken, ht.1]
  exact agrees_refl _

theorem UnaryOp.ofTerm_agrees (h : n.Alike m) :
    Agrees Eq (UnaryOp.ofTerm n) (UnaryOp.ofTerm m) := by
  rw [UnaryOp.ofTerm, UnaryOp.ofTerm]
  obtain ⟨h, h'⟩ | ⟨t, t', h, h', ht⟩ := h.token? .unaryOperator
  · rw [h, h']
    exact agrees_refl _
  · rw [h, h']
    dsimp only
    rw [UnaryOp.ofToken, UnaryOp.ofToken, ht.1]
    exact agrees_refl _

theorem objectKey_eq {t t' : Token} (ht : t.Alike t') : objectKey t = objectKey t' := by
  rw [objectKey, objectKey, ht.1, ht.2]

theorem expressionLiteral_agrees {t t' : Token} (ht : t.Alike t') :
    Agrees Eq (expressionLiteral t) (expressionLiteral t') := by
  rw [expressionLiteral, expressionLiteral, ht.1]
  exact agrees_refl _

theorem map_image_eq {ts ts' : List Token} (h : Alikes ts ts') :
    ts.map (·.image) = ts'.map (·.image) := by
  induction h with
  | nil => rfl
  | cons ht _ ih => rw [List.map_cons, List.map_cons, ht.2, ih]

theorem dottedName_agrees (h : n.Alike m) : Agrees Eq (dottedName n) (dottedName m) := by
  rw [dottedName, dottedName, map_image_eq (h.tokens _)]
  exact (expectRule_agrees h _).bind fun _ _ _ => agrees_refl _

theorem subscriptText_agrees (e : Expr) (p p' : Position) :
    Agrees Eq (subscriptText e p) (subscriptText e p') := by
  rw [subscriptText, subscriptText]
  split
  all_goals first | exact .ok rfl | exact .error rfl

mutual

theorem Expr.ofNode_agrees {n m : Node} (h : n.Alike m) :
    Agrees Eq (Expr.ofNode n) (Expr.ofNode m) := by
  rw [Expr.ofNode_eq, Expr.ofNode_eq]
  refine (expectRule_agrees h _).bind fun _ _ _ => ?_
  have hnodes := h.nodes .term
  have htokens := h.tokens .binaryOperator
  cases hn : n.nodes .term with
  | nil =>
    rw [hn, List.forall₂_nil_left_iff] at hnodes
    rw [hnodes]
    exact .error rfl
  | cons first others =>
    rw [hn, List.forall₂_cons_left_iff] at hnodes
    obtain ⟨first', others', hfirst, hothers, hm⟩ := hnodes
    have hsize : 1 + sizeOf first + sizeOf others < sizeOf n := by
      have := n.sizeOf_nodes_lt .term
      rwa [hn, List.cons.sizeOf_spec] at this
    rw [hm]
    refine (Term.ofNode_agrees hfirst).bind fun head _ hhead => ?_
    subst hhead
    dsimp only
    rw [htokens.length_eq, hothers.length_eq]
    split
    · exact .error rfl
    · exact (Expr.tailOfNodes_agrees htokens hothers).bind fun tail _ htail => .ok (htail ▸ rfl)
termination_by 2 * sizeOf n
decreasing_by all_goals omega

theorem Expr.tailOfNodes_agrees {ts ts' : List Token} {ns ms : List Node} (ht : Alikes ts ts')
    (h : List.Forall₂ Node.Alike ns ms) :
    Agrees Eq (Expr.tailOfNodes ts ns) (Expr.tailOfNodes ts' ms) := by
  match ht, h with
  | .nil, _ =>
    rw [Expr.tailOfNodes_nil_left, Expr.tailOfNodes_nil_left]
    exact .ok rfl
  | .cons _ _, .nil =>
    rw [Expr.tailOfNodes_nil_right, Expr.tailOfNodes_nil_right]
    exact .ok rfl
  | .cons ht hts, .cons h hs =>
    rw [Expr.tailOfNodes, Expr.tailOfNodes]
    refine (BinaryOp.ofToken_agrees ht).bind fun op _ hop => ?_
    refine (Term.ofNode_agrees h).bind fun term _ hterm => ?_
    refine (Expr.tailOfNodes_agrees hts hs).bind fun others _ hothers => ?_
    subst hop hterm hothers
    exact .ok rfl
termination_by 2 * sizeOf ns
decreasing_by all_goals
  simp only [List.cons.sizeOf_spec]
  omega

theorem Term.ofNode_agrees {n m : Node} (h : n.Alike m) :
    Agrees Eq (Term.ofNode n) (Term.ofNode m) := by
  rw [Term.ofNode, Term.ofNode]
  refine (expectRule_agrees h _).bind fun _ _ _ => ?_
  refine (UnaryOp.ofTerm_agrees h).bind fun unary _ hunary => ?_
  refine (Operand.ofNode_agrees h).bind fun operand _ hoperand => ?_
  subst hunary hoperand
  exact .ok rfl
termination_by 2 * sizeOf n + 1
decreasing_by all_goals omega

theorem Operand.ofNode_agrees {n m : Node} (h : n.Alike m) :
    Agrees Eq (Operand.ofNode n) (Operand.ofNode m) := by
  rw [Operand.ofNode, Operand.ofNode]
  obtain ⟨hn, hm⟩ | ⟨c, c', _, _, hn, hm, hc⟩ := h.node? .literal
  case inr =>
    rw [hn, hm]
    exact (Primitive.ofNode_agrees hc).bind fun _ _ he => .ok (he ▸ rfl)
  rw [hn, hm]
  obtain ⟨hn, hm⟩ | ⟨c, c', _, _, hn, hm, hc⟩ := h.node? .array
  case inr =>
    rw [hn, hm]
    have := c.sizeOf_nodes_lt .expression
    refine (expectRule_agrees hc _).bind fun _ _ _ => ?_
    exact (Expr.ofNodes_agrees (hc.nodes _)).bind fun _ _ he => .ok (he ▸ rfl)
  rw [hn, hm]
  obtain ⟨hn, hm⟩ | ⟨c, c', _, _, hn, hm, hc⟩ := h.node? .object
  case inr =>
    rw [hn, hm]
    have := c.sizeOf_nodes_lt .expression
    refine (expectRule_agrees hc _).bind fun _ _ _ => ?_
    dsimp only
    rw [(hc.tokens .key).length_eq, (hc.nodes .expression).length_eq]
    split
    · exact .error rfl
    · exact (Expr.entriesOfNodes_agrees (hc.tokens _) (hc.nodes _)).bind
        fun _ _ he => .ok (he ▸ rfl)
  rw [hn, hm]
  dsimp only
  rw [h.has .lparen]
  split
  · refine (requireNode_agrees h _).bind fun c c' hc => ?_
    have := c.property
    exact (Expr.ofNode_agrees hc).bind fun _ _ he => .ok (he ▸ rfl)
  obtain ⟨hn, hm⟩ | ⟨t, t', hn, hm, ht⟩ := h.token? .expressionLiteral
  case inr =>
    rw [hn, hm]
    exact (expressionLiteral_agrees ht).bind fun _ _ he => .ok (he ▸ rfl)
  rw [hn, hm]
  obtain ⟨hn, hm⟩ | ⟨c, c', _, _, hn, hm, hc⟩ := h.node? .callExpression
  case inr =>
    rw [hn, hm]
    refine (expectRule_agrees hc _).bind fun _ _ _ => ?_
    refine (requireNode_agrees hc _).bind fun q q' hq => ?_
    refine (dottedName_agrees hq).bind fun name _ hname => ?_
    subst hname
    obtain ⟨hn, hm⟩ | ⟨list, list', _, _, hn, hm, hlist⟩ := hc.node? .actualParameterList
    · rw [hn, hm]
      exact .ok rfl
    · rw [hn, hm]
      have := list.sizeOf_nodes_lt .expression
      refine (expectRule_agrees hlist _).bind fun _ _ _ => ?_
      exact (Expr.ofNodes_agrees (hlist.nodes _)).bind fun _ _ he => .ok (he ▸ rfl)
  rw [hn, hm]
  obtain ⟨hn, hm⟩ | ⟨c, c', _, _, hn, hm, hc⟩ := h.node? .variableReference
  case inr =>
    rw [hn, hm]
    exact (referenceText_agrees hc).bind fun _ _ he => .ok (he ▸ rfl)
  rw [hn, hm]
  exact .error rfl
termination_by 2 * sizeOf n
decreasing_by all_goals omega

theorem Expr.ofNodes_agrees {ns ms : List Node} (h : List.Forall₂ Node.Alike ns ms) :
    Agrees Eq (Expr.ofNodes ns) (Expr.ofNodes ms) := by
  match h with
  | .nil =>
    rw [Expr.ofNodes]
    exact .ok rfl
  | .cons h hs =>
    rw [Expr.ofNodes, Expr.ofNodes]
    refine (Expr.ofNode_agrees h).bind fun e _ he => ?_
    refine (Expr.ofNodes_agrees hs).bind fun others _ hothers => ?_
    subst he hothers
    exact .ok rfl
termination_by 2 * sizeOf ns
decreasing_by all_goals
  simp only [List.cons.sizeOf_spec]
  omega

theorem Expr.entriesOfNodes_agrees {ts ts' : List Token} {ns ms : List Node}
    (ht : Alikes ts ts') (h : List.Forall₂ Node.Alike ns ms) :
    Agrees Eq (Expr.entriesOfNodes ts ns) (Expr.entriesOfNodes ts' ms) := by
  match ht, h with
  | .nil, _ =>
    rw [Expr.entriesOfNodes_nil_left, Expr.entriesOfNodes_nil_left]
    exact .ok rfl
  | .cons _ _, .nil =>
    rw [Expr.entriesOfNodes_nil_right, Expr.entriesOfNodes_nil_right]
    exact .ok rfl
  | .cons ht hts, .cons h hs =>
    rw [Expr.entriesOfNodes, Expr.entriesOfNodes, objectKey_eq ht]
    refine (Expr.ofNode_agrees h).bind fun e _ he => ?_
    refine (Expr.entriesOfNodes_agrees hts hs).bind fun others _ hothers => ?_
    subst he hothers
    exact .ok rfl
termination_by 2 * sizeOf ns
decreasing_by all_goals
  simp only [List.cons.sizeOf_spec]
  omega

theorem referenceText_agrees {n m : Node} (h : n.Alike m) :
    Agrees Eq (referenceText n) (referenceText m) := by
  rw [referenceText, referenceText]
  have := n.sizeOf_nodes_lt .subscriptReference
  refine (expectRule_agrees h _).bind fun _ _ _ => ?_
  refine (referencePartTexts_agrees (h.nodes _)).bind fun parts _ hparts => ?_
  subst hparts
  exact agrees_refl _
termination_by 2 * sizeOf n
decreasing_by all_goals omega

theorem referencePartTexts_agrees {ns ms : List Node} (h : List.Forall₂ Node.Alike ns ms) :
    Agrees Eq (referencePartTexts ns) (referencePartTexts ms) := by
  match h with
  | .nil =>
    rw [referencePartTexts]
    exact .ok rfl
  | .cons (a := n) h hs =>
    rw [referencePartTexts, referencePartTexts]
    have := n.sizeOf_nodes_lt .subscript
    refine (expectRule_agrees h _).bind fun _ _ _ => ?_
    refine (requireToken_agrees h _).bind fun t t' ht => ?_
    refine (subscriptTexts_agrees (h.nodes _)).bind fun subscripts _ hsubscripts => ?_
    refine (referencePartTexts_agrees hs).bind fun others _ hothers => ?_
    subst hsubscripts hothers
    rw [ht.2]
    exact .ok rfl
termination_by 2 * sizeOf ns
decreasing_by all_goals
  simp only [List.cons.sizeOf_spec]
  omega

theorem subscriptTexts_agrees {ns ms : List Node} (h : List.Forall₂ Node.Alike ns ms) :
    Agrees Eq (subscriptTexts ns) (subscriptTexts ms) := by
  match h with
  | .nil =>
    rw [subscriptTexts]
    exact .ok rfl
  | .cons h hs =>
    rw [subscriptTexts, subscriptTexts]
    refine (Expr.ofNode_agrees h).bind fun e _ he => ?_
    subst he
    refine (subscriptText_agrees e _ _).bind fun text _ htext => ?_
    refine (subscriptTexts_agrees hs).bind fun others _ hothers => ?_
    subst htext hothers
    exact .ok rfl
termination_by 2 * sizeOf ns
decreasing_by all_goals
  simp only [List.cons.sizeOf_spec]
  omega

end

end

end Workflow
