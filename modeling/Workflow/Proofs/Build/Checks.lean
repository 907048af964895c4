import Mathlib.Data.List.Nodup
import Workflow.Program.OfTree
import Workflow.Proofs.Build.Lookup
import Workflow.Proofs.Expr.Reference

/-!
# Local checks of syntax trees

What building checks of a node by itself, said without the order in which nodes are built: its
subscripts, the items of its loop, the names of its arguments, or its options. A computation decides
a condition if it succeeds exactly where the condition holds and reports a defect with a position
everywhere else; conditions of the parts of a computation add up.
-/

namespace Workflow

/-! ## The nodes of a tree -/

mutual

/-- A node and all nodes below it. -/
def Node.all : Node → List Node
  | .mk rule position children => .mk rule position children :: Child.allNodes children

/-- The nodes among children, with all nodes below them. -/
def Child.allNodes : List Child → List Node
  | [] => []
  | .node _ n :: rest => n.all ++ Child.allNodes rest
  | .token _ _ :: rest => Child.allNodes rest

end

/-! ## Checks -/

/-- An expression is not literal, or it is a literal integer of 64 bits or a literal string. -/
def Expr.IsSubscript (e : Expr) : Prop :=
  e.isLiteral = true → (∃ n : Int64, e.toDocument = .int n.toInt) ∨ ∃ s, e.toDocument = .string s

/-- An expression is not literal, or it is a list. -/
def Expr.IsIterable (e : Expr) : Prop := e.isLiteral = true → e.toDocument.isArray = true

/-- What is checked of a node by itself. What its parts are built into counts where they are built:
parts that are not fail a check of their own. -/
def Node.Checked (n : Node) : Prop :=
  match n.rule with
  | .subscriptReference => ∀ m ∈ n.nodes .subscript, ∀ e, Expr.ofNode m = .ok e → e.IsSubscript
  | .forStatement => ∀ m ∈ n.nodes .expression, ∀ e, Expr.ofNode m = .ok e → e.IsIterable
  | .callOrAssignment | .namedCall =>
    ∀ m ∈ n.nodes .actualNamedParameterList, ((m.tokens .identifier).map (·.image)).Nodup
  | .parallelStatement =>
    ∀ m ∈ n.nodes .actualNamedParameterList, ∀ args, NamedArgument.listOfNode m = .ok args →
      ∃ options, ParallelOptions.ofArguments args = .ok options
  | .tryStatement =>
    ∀ m ∈ n.nodes .actualNamedParameterList, ∀ args, NamedArgument.listOfNode m = .ok args →
      ∀ retry ∈ n.tokens .retry, ∃ policy, RetryPolicy.ofArguments args retry.position = .ok policy
  | _ => True

/-- A node and all nodes below it are checked. -/
def Node.Passes (n : Node) : Prop := ∀ m ∈ n.all, m.Checked

/-- All nodes among children and below them are checked. -/
def Child.Pass (children : List Child) : Prop := ∀ m ∈ Child.allNodes children, m.Checked

section

variable {slot : Slot} {children others : List Child}

theorem Node.passes_mk {rule : Rule} {p : Position} :
    (Node.mk rule p children).Passes ↔ (Node.mk rule p children).Checked ∧ Child.Pass children := by
  rw [Node.Passes, Node.all, List.forall_mem_cons, Child.Pass]

theorem Node.passes_iff_of_checked {rule : Rule} {p : Position}
    (h : (Node.mk rule p children).Checked) :
    (Node.mk rule p children).Passes ↔ Child.Pass children := by
  rw [Node.passes_mk, and_iff_right h]

@[simp] theorem Child.pass_nil : Child.Pass [] := by
  rw [Child.Pass, Child.allNodes]
  exact List.forall_mem_nil _

@[simp] theorem Child.pass_node {n : Node} :
    Child.Pass (.node slot n :: children) ↔ n.Passes ∧ Child.Pass children := by
  rw [Child.Pass, Child.allNodes, List.forall_mem_append, Node.Passes, Child.Pass]

@[simp] theorem Child.pass_token {t : Token} :
    Child.Pass (.token slot t :: children) ↔ Child.Pass children := by
  rw [Child.Pass, Child.allNodes, Child.Pass]

@[simp] theorem Child.pass_append :
    Child.Pass (children ++ others) ↔ Child.Pass children ∧ Child.Pass others := by
  induction children with
  | nil => simp
  | cons child rest ih =>
    cases child with
    | node slot n => rw [List.cons_append, Child.pass_node, Child.pass_node, ih, and_assoc]
    | token slot t => rw [List.cons_append, Child.pass_token, Child.pass_token, ih]

@[simp] theorem Child.pass_map_node {nodes : List Node} :
    Child.Pass (nodes.map (.node slot)) ↔ ∀ n ∈ nodes, n.Passes := by
  induction nodes with
  | nil => simp
  | cons n rest ih => rw [List.map_cons, Child.pass_node, ih, List.forall_mem_cons]

@[simp] theorem Child.pass_map_token {tokens : List Token} :
    Child.Pass (tokens.map (.token slot)) := by
  induction tokens with
  | nil => simp
  | cons t rest ih => rwa [List.map_cons, Child.pass_token]

end

/-! ## Deciding a condition -/

section

variable {α β : Type} {P Q : Prop}

/-- A computation succeeds exactly if a condition holds, and reports a defect if it does not. -/
def Decides (x : Except BuildError α) (P : Prop) : Prop :=
  match x with
  | .ok _ => P
  | .error e => ¬ P ∧ ∃ defect position, e = .defect defect position

theorem Decides.ok (a : α) : Decides (.ok a) True := trivial

theorem Decides.defect (d : Defect) (p : Position) (h : ¬ P) :
    Decides (.error (.defect d p) : Except BuildError α) P :=
  ⟨h, d, p, rfl⟩

theorem Decides.congr {x : Except BuildError α} (h : Decides x P) (hiff : P ↔ Q) : Decides x Q :=
  propext hiff ▸ h

/-- The condition of a chain is that of its first part together with that of the rest. -/
theorem Decides.bind {x : Except BuildError α} {f : α → Except BuildError β} (hx : Decides x P)
    (hf : ∀ a, x = .ok a → Decides (f a) Q) : Decides (x >>= f) (P ∧ Q) := by
  cases x with
  | error e => exact ⟨fun h => hx.1 h.1, hx.2⟩
  | ok a => exact (hf a rfl).congr (and_iff_right hx).symm

/-- A condition on the result of the first part of a chain. -/
theorem Decides.check {C : α → Prop} {x : Except BuildError α} {f : α → Except BuildError β}
    (hx : Decides x P) (hf : ∀ a, Decides (f a) (C a)) :
    Decides (x >>= f) (P ∧ ∀ a, x = .ok a → C a) := by
  refine hx.bind fun a ha => (hf a).congr ?_
  subst ha
  constructor
  · intro h b hb
    cases hb
    exact h
  · exact fun h => h a rfl

theorem Decides.map {x : Except BuildError α} {f : α → β} (h : Decides x P) :
    Decides (x >>= fun a => pure (f a)) P :=
  (h.bind fun a _ => Decides.ok (f a)).congr (and_iff_left trivial)

theorem Decides.exists_ok_iff {x : Except BuildError α} (h : Decides x P) :
    (∃ a, x = .ok a) ↔ P := by
  cases x with
  | error e =>
    constructor
    · rintro ⟨a, ha⟩
      cases ha
    · exact fun hp => absurd hp h.1
  | ok a => exact ⟨fun _ => h, fun _ => ⟨a, rfl⟩⟩

/-- A computation decides a condition, however many temporaries were used before it. -/
def DecidesFrom (x : Build α) (P : Prop) : Prop := ∀ n, Decides (x n) P

theorem DecidesFrom.pure (a : α) : DecidesFrom (pure a) True := fun _ => trivial

theorem DecidesFrom.congr {x : Build α} (h : DecidesFrom x P) (hiff : P ↔ Q) : DecidesFrom x Q :=
  fun n => (h n).congr hiff

theorem DecidesFrom.bind {x : Build α} {f : α → Build β} (hx : DecidesFrom x P)
    (hf : ∀ a, DecidesFrom (f a) Q) : DecidesFrom (x >>= f) (P ∧ Q) :=
  fun n => (hx n).bind fun a _ => hf a.1 a.2

theorem DecidesFrom.map {x : Build α} {f : α → β} (h : DecidesFrom x P) :
    DecidesFrom (x >>= fun a => Pure.pure (f a)) P :=
  (h.bind fun a => DecidesFrom.pure (f a)).congr (and_iff_left trivial)

/-- A step that needs no temporaries. -/
theorem Decides.lift {x : Except BuildError α} (h : Decides x P) :
    DecidesFrom (liftM x : Build α) P :=
  fun _ => h.map

/-- Every failure is a defect. -/
def OnlyDefects (x : Except BuildError α) : Prop :=
  ∀ e, x = .error e → ∃ defect position, e = .defect defect position

theorem OnlyDefects.ok (a : α) : OnlyDefects (.ok a) := by
  intro e he
  cases he

theorem OnlyDefects.defect (d : Defect) (p : Position) :
    OnlyDefects (.error (.defect d p) : Except BuildError α) := by
  intro e he
  cases he
  exact ⟨d, p, rfl⟩

theorem OnlyDefects.bind {x : Except BuildError α} {f : α → Except BuildError β}
    (hx : OnlyDefects x) (hf : ∀ a, OnlyDefects (f a)) : OnlyDefects (x >>= f) := by
  cases x with
  | error e => exact fun e' he' => hx e' (by cases he'; rfl)
  | ok a => exact hf a

/-- Where every failure is a defect, a computation decides whether it succeeds. -/
theorem OnlyDefects.decides {x : Except BuildError α} (h : OnlyDefects x) :
    Decides x (∃ a, x = .ok a) := by
  cases x with
  | error e =>
    refine ⟨?_, h e rfl⟩
    rintro ⟨a, ha⟩
    cases ha
  | ok a => exact ⟨a, rfl⟩

theorem Decides.onlyDefects {x : Except BuildError α} (h : Decides x P) : OnlyDefects x := by
  cases x with
  | error e =>
    intro e' he'
    cases he'
    exact h.2
  | ok a => exact .ok a

end

/-! ## What decides the checks -/

theorem decides_subscriptText (e : Expr) (p : Position) :
    Decides (subscriptText e p) e.IsSubscript := by
  rw [subscriptText, Expr.literal?]
  by_cases h : e.isLiteral = true
  · rw [if_pos h]
    cases hd : e.toDocument with
    | int n =>
      obtain ⟨m, rfl⟩ := Expr.exists_int64_of_toDocument hd
      exact fun _ => .inl ⟨m, hd⟩
    | string s => exact fun _ => .inr ⟨s, hd⟩
    | float x => exact Decides.defect _ _ fun hs => by simpa [hd] using hs h
    | null => exact Decides.defect _ _ fun hs => by simpa [hd] using hs h
    | bool b => exact Decides.defect _ _ fun hs => by simpa [hd] using hs h
    | array items => exact Decides.defect _ _ fun hs => by simpa [hd] using hs h
    | object fields => exact Decides.defect _ _ fun hs => by simpa [hd] using hs h
  · rw [if_neg h]
    exact fun hl => absurd hl h

/-- No argument repeats a name that was seen or that an earlier argument has. -/
theorem NamedArgument.repeated?_eq_none_iff {seen : List String} {args : List NamedArgument} :
    NamedArgument.repeated? seen args = none ↔
      (∀ arg ∈ args, arg.name ∉ seen) ∧ (args.map (·.name)).Nodup := by
  induction args generalizing seen with
  | nil => simp [NamedArgument.repeated?]
  | cons arg rest ih =>
    rw [NamedArgument.repeated?]
    by_cases h : arg.name ∈ seen
    · simp [h]
    · rw [if_neg (by simpa using h), ih, List.map_cons, List.nodup_cons, List.forall_mem_cons]
      simp only [List.mem_cons, not_or, List.mem_map]
      constructor
      · rintro ⟨hrest, hnodup⟩
        refine ⟨⟨h, fun other hother => (hrest other hother).2⟩, ?_, hnodup⟩
        rintro ⟨other, hother, hname⟩
        exact (hrest other hother).1 hname
      · rintro ⟨⟨_, hrest⟩, hnew, hnodup⟩
        exact ⟨fun other hother => ⟨fun hname => hnew ⟨other, hother, hname⟩, hrest other hother⟩,
          hnodup⟩

theorem decides_callArguments (args : List NamedArgument) :
    Decides (NamedArgument.callArguments args) (args.map (·.name)).Nodup := by
  have hiff : NamedArgument.repeated? [] args = none ↔ _ := NamedArgument.repeated?_eq_none_iff
  rw [NamedArgument.callArguments]
  split
  · rename_i arg hrepeated
    refine Decides.defect _ _ fun hnodup => ?_
    rw [hiff.mpr ⟨fun _ _ => List.not_mem_nil, hnodup⟩] at hrepeated
    cases hrepeated
  · rename_i hnone
    exact (hiff.mp hnone).2

/-! ## Options -/

theorem onlyDefects_distinct (owner : OptionOwner) (args : List NamedArgument) :
    OnlyDefects (NamedArgument.distinct owner args) := by
  rw [NamedArgument.distinct]
  split
  · exact .defect _ _
  · exact .ok _

theorem ParallelOptions.onlyDefects_set (options : ParallelOptions) (arg : NamedArgument) :
    OnlyDefects (options.set arg) := by
  unfold ParallelOptions.set
  split
  · split
    · exact .ok _
    · exact .defect _ _
  · split
    · split
      · exact .ok _
      · exact .defect _ _
    · split
      · split
        · exact .ok _
        · exact .defect _ _
      · exact .defect _ _

theorem ParallelOptions.onlyDefects_ofArguments (args : List NamedArgument) :
    OnlyDefects (ParallelOptions.ofArguments args) := by
  refine (onlyDefects_distinct _ args).bind fun _ => ?_
  generalize ParallelOptions.empty = options
  induction args generalizing options with
  | nil => exact .ok options
  | cons arg rest ih =>
    rw [List.foldlM_cons]
    exact (onlyDefects_set options arg).bind ih

theorem RetryPolicy.onlyDefects_nameOption (arg : NamedArgument) (otherwise : Defect) :
    OnlyDefects (RetryPolicy.nameOption arg otherwise) := by
  rw [RetryPolicy.nameOption]
  split
  · exact .ok _
  · exact .defect _ _

theorem RetryPolicy.onlyDefects_numberOption (arg : NamedArgument) :
    OnlyDefects (RetryPolicy.numberOption arg) := by
  rw [RetryPolicy.numberOption]
  split
  · exact .ok _
  · exact .defect _ _

theorem RetryPolicy.onlyDefects_ofArguments (args : List NamedArgument) (p : Position) :
    OnlyDefects (RetryPolicy.ofArguments args p) := by
  refine (onlyDefects_distinct _ args).bind fun _ => ?_
  split
  · split
    · exact (onlyDefects_nameOption _ _).bind fun _ => .ok _
    · exact .defect _ _
  · split
    · split
      · exact .defect _ _
      · refine (onlyDefects_nameOption _ _).bind fun _ => ?_
        refine (onlyDefects_numberOption _).bind fun _ => ?_
        refine (onlyDefects_numberOption _).bind fun _ => ?_
        refine (onlyDefects_numberOption _).bind fun _ => ?_
        exact (onlyDefects_numberOption _).bind fun _ => .ok _
    · split
      · exact .defect _ _
      · exact .defect _ _

end Workflow
