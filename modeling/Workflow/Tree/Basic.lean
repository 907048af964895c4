import Workflow.Tree.Malformation

/-!
# Syntax trees

A node records the rule that made it, where it starts, and its children in source order, each with
the slot it stands in. Children are looked up by slot; the lookups also serve trees that no rule
made.
-/

namespace Workflow

mutual

inductive Node where
  | mk (rule : Rule) (position : Position) (children : List Child)

/-- A child of a node: a node or a token, with its slot. -/
inductive Child where
  | node (slot : Slot) (node : Node)
  | token (slot : Slot) (token : Token)

end

def Child.slot : Child → Slot
  | .node slot _ => slot
  | .token slot _ => slot

def Child.nodeIn? (slot : Slot) : Child → Option Node
  | .node s n => if s = slot then some n else none
  | .token _ _ => none

@[simp] theorem Child.nodeIn?_node (slot s : Slot) (n : Node) :
    (Child.node s n).nodeIn? slot = if s = slot then some n else none := rfl

@[simp] theorem Child.nodeIn?_token (slot s : Slot) (t : Token) :
    (Child.token s t).nodeIn? slot = none := rfl

def Child.tokenIn? (slot : Slot) : Child → Option Token
  | .token s t => if s = slot then some t else none
  | .node _ _ => none

@[simp] theorem Child.tokenIn?_token (slot s : Slot) (t : Token) :
    (Child.token s t).tokenIn? slot = if s = slot then some t else none := rfl

@[simp] theorem Child.tokenIn?_node (slot s : Slot) (n : Node) :
    (Child.node s n).tokenIn? slot = none := rfl

namespace Node

def rule : Node → Rule
  | .mk rule _ _ => rule

def position : Node → Position
  | .mk _ position _ => position

def children : Node → List Child
  | .mk _ _ children => children

def push : Node → Child → Node
  | .mk rule position children, child => .mk rule position (children ++ [child])

def has (n : Node) (slot : Slot) : Bool :=
  n.children.any (·.slot = slot)

def nodes (n : Node) (slot : Slot) : List Node :=
  n.children.filterMap (·.nodeIn? slot)

def tokens (n : Node) (slot : Slot) : List Token :=
  n.children.filterMap (·.tokenIn? slot)

theorem sizeOf_filterMap_nodeIn? (slot : Slot) (children : List Child) :
    sizeOf (children.filterMap (·.nodeIn? slot)) ≤ sizeOf children := by
  induction children with
  | nil => simp
  | cons child rest ih =>
    cases child with
    | token s t => simp [List.filterMap_cons]; omega
    | node s n =>
      by_cases h : s = slot
      · simp [h]; omega
      · simp [h]; omega

/-- The nodes in a slot are smaller than their parent, all together. -/
theorem sizeOf_nodes_lt (n : Node) (slot : Slot) : sizeOf (n.nodes slot) < sizeOf n := by
  cases n with
  | mk rule position children =>
    have := sizeOf_filterMap_nodeIn? slot children
    simp only [nodes, Node.children, Node.mk.sizeOf_spec]
    omega

/-- A node that is smaller than another, as each node below it is. -/
abbrev Below (n : Node) := { m : Node // sizeOf m < sizeOf n }

/-- The first child node in a slot. -/
def node? (n : Node) (slot : Slot) : Option n.Below :=
  match h : n.nodes slot with
  | [] => none
  | m :: rest => some ⟨m, by
      have := n.sizeOf_nodes_lt slot
      rw [h] at this
      simp only [List.cons.sizeOf_spec] at this
      omega⟩

/-- The first child node in a slot, without the bound on its size. -/
def child? (n : Node) (slot : Slot) : Option Node := (n.node? slot).map Subtype.val

def token? (n : Node) (slot : Slot) : Option Token :=
  (n.tokens slot).head?

/-- The first child node in a slot that must have one. -/
def requireNode (n : Node) (slot : Slot) : Except Malformation n.Below :=
  match n.node? slot with
  | some m => .ok m
  | none => .error (.missingNode n.rule slot)

def requireToken (n : Node) (slot : Slot) : Except Malformation Token :=
  match n.token? slot with
  | some t => .ok t
  | none => .error (.missingToken n.rule slot)

def expectRule (n : Node) (rule : Rule) : Except Malformation Unit :=
  if n.rule = rule then .ok () else .error (.wrongRule rule n.rule)

end Node

end Workflow
