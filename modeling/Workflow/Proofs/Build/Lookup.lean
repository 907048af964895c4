import Workflow.Expr.OfTree

/-!
# Looking up children

What the lookups of a tree find, by the children in the slot, and the equations of building that
take lists apart.
-/

namespace Workflow

/-- The nodes among children that stand in a slot. -/
def nodesIn (slot : Slot) (children : List Child) : List Node :=
  children.filterMap (·.nodeIn? slot)

/-- The tokens among children that stand in a slot. -/
def tokensIn (slot : Slot) (children : List Child) : List Token :=
  children.filterMap (·.tokenIn? slot)

section

variable (slot s : Slot) (children others : List Child)

@[simp] theorem nodesIn_nil : nodesIn slot [] = [] := rfl

@[simp] theorem tokensIn_nil : tokensIn slot [] = [] := rfl

@[simp] theorem nodesIn_node (n : Node) : nodesIn slot (.node s n :: children) =
    if s = slot then n :: nodesIn slot children else nodesIn slot children := by
  by_cases h : s = slot
  · simp [nodesIn, h]
  · simp [nodesIn, h]

@[simp] theorem nodesIn_token (t : Token) :
    nodesIn slot (.token s t :: children) = nodesIn slot children := rfl

@[simp] theorem tokensIn_token (t : Token) : tokensIn slot (.token s t :: children) =
    if s = slot then t :: tokensIn slot children else tokensIn slot children := by
  by_cases h : s = slot
  · simp [tokensIn, h]
  · simp [tokensIn, h]

@[simp] theorem tokensIn_node (n : Node) :
    tokensIn slot (.node s n :: children) = tokensIn slot children := rfl

@[simp] theorem nodesIn_append :
    nodesIn slot (children ++ others) = nodesIn slot children ++ nodesIn slot others :=
  List.filterMap_append

@[simp] theorem tokensIn_append :
    tokensIn slot (children ++ others) = tokensIn slot children ++ tokensIn slot others :=
  List.filterMap_append

@[simp] theorem nodesIn_map_node (nodes : List Node) :
    nodesIn slot (nodes.map (.node s)) = if s = slot then nodes else [] := by
  induction nodes with
  | nil => simp
  | cons n nodes ih =>
    rw [List.map_cons, nodesIn_node, ih]
    by_cases h : s = slot
    · simp [h]
    · simp [h]

@[simp] theorem tokensIn_map_token (tokens : List Token) :
    tokensIn slot (tokens.map (.token s)) = if s = slot then tokens else [] := by
  induction tokens with
  | nil => simp
  | cons t tokens ih =>
    rw [List.map_cons, tokensIn_token, ih]
    by_cases h : s = slot
    · simp [h]
    · simp [h]

end

namespace Node

variable {n : Node}

@[simp] theorem nodes_mk (rule : Rule) (p : Position) (children : List Child) (slot : Slot) :
    (Node.mk rule p children).nodes slot = nodesIn slot children := rfl

@[simp] theorem tokens_mk (rule : Rule) (p : Position) (children : List Child) (slot : Slot) :
    (Node.mk rule p children).tokens slot = tokensIn slot children := rfl

theorem node?_of_nodes_nil {slot : Slot} (h : n.nodes slot = []) : n.node? slot = none := by
  unfold node?
  split
  · rfl
  · rename_i h'
    rw [h] at h'
    cases h'

theorem node?_of_nodes_cons {slot : Slot} {c : Node} {rest : List Node}
    (h : n.nodes slot = c :: rest) : ∃ hc, n.node? slot = some ⟨c, hc⟩ := by
  have hc : sizeOf c < sizeOf n := by
    have := n.sizeOf_nodes_lt slot
    rw [h, List.cons.sizeOf_spec] at this
    omega
  refine ⟨hc, ?_⟩
  unfold node?
  split
  · rename_i h'
    rw [h] at h'
    cases h'
  · rename_i h'
    rw [h] at h'
    cases h'
    rfl

theorem requireNode_of_nodes_cons {slot : Slot} {c : Node} {rest : List Node}
    (h : n.nodes slot = c :: rest) : ∃ hc, n.requireNode slot = .ok ⟨c, hc⟩ := by
  obtain ⟨hc, hnode⟩ := node?_of_nodes_cons h
  exact ⟨hc, by rw [requireNode, hnode]⟩

theorem child?_eq (n : Node) (slot : Slot) : n.child? slot = (n.nodes slot).head? := by
  rw [child?]
  cases h : n.nodes slot with
  | nil => rw [node?_of_nodes_nil h]; rfl
  | cons c rest =>
    obtain ⟨hc, hnode⟩ := node?_of_nodes_cons h
    rw [hnode]
    rfl

end Node

/-- The expression of a node, by its terms. -/
theorem Expr.ofNode_eq (n : Node) :
    Expr.ofNode n = (do
      n.expectRule .expression
      match n.nodes .term with
      | [] => throw (.malformed .noTerms)
      | first :: others =>
        let head ← Term.ofNode first
        let operators := n.tokens .binaryOperator
        if operators.length ≠ others.length then
          throw (.malformed (.operatorCount operators.length others.length))
        let tail ← Expr.tailOfNodes operators others
        return .mk head tail) := by
  rw [Expr.ofNode]
  congr 1
  funext _
  split
  · rename_i h
    simp only [h]
  · rename_i h
    simp only [h]

theorem Expr.tailOfNodes_nil_left (ns : List Node) : Expr.tailOfNodes [] ns = .ok [] := by
  rw [Expr.tailOfNodes]
  · rfl
  · intro _ _ _ _ h
    cases h

theorem Expr.tailOfNodes_nil_right (ts : List Token) : Expr.tailOfNodes ts [] = .ok [] := by
  rw [Expr.tailOfNodes]
  · rfl
  · intro _ _ _ _ _ h
    cases h

theorem Expr.entriesOfNodes_nil_left (ns : List Node) : Expr.entriesOfNodes [] ns = .ok [] := by
  rw [Expr.entriesOfNodes]
  · rfl
  · intro _ _ _ _ h
    cases h

theorem Expr.entriesOfNodes_nil_right (ts : List Token) :
    Expr.entriesOfNodes ts [] = .ok [] := by
  rw [Expr.entriesOfNodes]
  · rfl
  · intro _ _ _ _ _ h
    cases h

end Workflow
