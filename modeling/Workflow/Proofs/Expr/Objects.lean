import Workflow.Proofs.Build.Lookup
import Workflow.Proofs.Expr.Lowering
import Workflow.Proofs.Fields
import Workflow.Proofs.Outcome

/-!
# Objects with repeated keys

An object may be written with one key several times. The entries that are built have each key once,
where it is written first and with the value that is written last. Lowering the entries gives the
same fields as putting the lowered pairs one after the other into a map that keeps its order: a new
key goes to the end, and a known one keeps its place and takes the value.
-/

namespace Workflow

namespace Fields

variable {α : Type} {name : String} {value : α} {pairs : List (String × α)}
  {fields result : Fields α}

/-! ## Insertion one by one -/

/-- A value is put into an ordered map: behind all fields if its name is new, and otherwise in the
place of the value that the name has. -/
inductive Inserts (name : String) (value : α) : Fields α → Fields α → Prop where
  | new {fields : Fields α} (h : name ∉ names fields) :
      Inserts name value fields (fields ++ [(name, value)])
  | known {front back : Fields α} {old : α} (h : name ∉ names front) :
      Inserts name value (front ++ (name, old) :: back) (front ++ (name, value) :: back)

/-- Pairs are put into an ordered map one after the other. -/
inductive InsertsAll : List (String × α) → Fields α → Fields α → Prop where
  | nil {fields : Fields α} : InsertsAll [] fields fields
  | cons {name : String} {value : α} {rest : List (String × α)} {fields next result : Fields α}
      (hfirst : Inserts name value fields next) (hrest : InsertsAll rest next result) :
      InsertsAll ((name, value) :: rest) fields result

theorem insert_of_split {front back : Fields α} {old : α} (h : name ∉ names front) :
    insert name value (front ++ (name, old) :: back) = front ++ (name, value) :: back := by
  induction front with
  | nil => rw [List.nil_append, insert, if_pos rfl, List.nil_append]
  | cons field front ih =>
    obtain ⟨k, v⟩ := field
    simp only [names, List.map_cons, List.mem_cons, not_or] at h
    rw [List.cons_append, insert, if_neg (Ne.symm h.1), ih h.2, List.cons_append]

/-- Fields of other names in front are left as they are. -/
theorem Inserts.cons {k : String} {v : α} (hk : k ≠ name) (h : Inserts name value fields result) :
    Inserts name value ((k, v) :: fields) ((k, v) :: result) := by
  have hmem {others : Fields α} (hothers : name ∉ names others) :
      name ∉ names ((k, v) :: others) := by
    simpa [names, Ne.symm hk] using hothers
  cases h with
  | new hnot => exact .new (hmem hnot)
  | known hnot => exact .known (hmem hnot)

theorem inserts_iff : Inserts name value fields result ↔ result = insert name value fields := by
  constructor
  · intro h
    cases h with
    | new h => rw [insert_of_not_mem h]
    | known h => rw [insert_of_split h]
  · rintro rfl
    induction fields with
    | nil => exact .new List.not_mem_nil
    | cons field rest ih =>
      obtain ⟨k, v⟩ := field
      rw [insert]
      split
      · rename_i hk
        subst hk
        exact @Inserts.known _ _ _ [] rest v List.not_mem_nil
      · rename_i hk
        exact ih.cons hk

theorem insertsAll_iff : InsertsAll pairs fields result ↔
    result = pairs.foldl (fun fields pair => insert pair.1 pair.2 fields) fields := by
  induction pairs generalizing fields with
  | nil =>
    constructor
    · rintro ⟨⟩
      rfl
    · rintro rfl
      exact .nil
  | cons pair rest ih =>
    rw [List.foldl_cons, ← ih]
    constructor
    · intro h
      cases h with
      | cons hfirst hrest => exact inserts_iff.mp hfirst ▸ hrest
    · exact .cons (inserts_iff.mpr rfl)

/-! ## First places and last values -/

/-- Fields have the names of pairs, each once, in the order in which they come first, and each with
the value that comes last. -/
structure Collapses (pairs : List (String × α)) (fields : Fields α) : Prop where
  distinct : (names fields).Nodup
  ordered : (names fields).Pairwise fun a b => (names pairs).idxOf a < (names pairs).idxOf b
  mem_iff : ∀ name value, (name, value) ∈ fields ↔
    ∃ front back, pairs = front ++ (name, value) :: back ∧ name ∉ names back

/-- In the pairs from the end, a name has first the value that comes last. -/
theorem lookup_reverse_eq_some_iff : pairs.reverse.lookup name = some value ↔
    ∃ front back, pairs = front ++ (name, value) :: back ∧ name ∉ names back := by
  rw [List.lookup_eq_some_iff]
  constructor
  · rintro ⟨front, back, hreverse, hfront⟩
    refine ⟨back.reverse, front.reverse, ?_, fun hmem => ?_⟩
    · rw [← List.reverse_reverse pairs, hreverse]
      simp
    · obtain ⟨pair, hpair, hname⟩ := List.mem_map.mp hmem
      exact bne_iff_ne.mp (hfront pair (List.mem_reverse.mp hpair)) hname.symm
  · rintro ⟨front, back, rfl, hback⟩
    refine ⟨back.reverse, front.reverse, by simp, fun pair hpair => bne_iff_ne.mpr fun hname => ?_⟩
    exact hback (List.mem_map.mpr ⟨pair, List.mem_reverse.mp hpair, hname.symm⟩)

theorem collapses_ofPairs (pairs : List (String × α)) : Collapses pairs (ofPairs pairs) where
  distinct := nodup_names_ofPairs pairs
  ordered := by
    rw [names_ofPairs]
    exact pairwise_idxOf_eraseDups (names pairs)
  mem_iff name value := by
    rw [← lookup_eq_some_iff_mem (nodup_names_ofPairs pairs), lookup_ofPairs,
      lookup_reverse_eq_some_iff]

/-- There is one way to collapse pairs. -/
theorem Collapses.unique (h : Collapses pairs fields) (h' : Collapses pairs result) :
    fields = result := by
  have hnodup {others : Fields α} (hothers : Collapses pairs others) : others.Nodup :=
    List.Nodup.of_map Prod.fst hothers.distinct
  have hperm : fields.Perm result :=
    (List.perm_ext_iff_of_nodup (hnodup h) (hnodup h')).mpr fun field =>
      (h.mem_iff field.1 field.2).trans (h'.mem_iff field.1 field.2).symm
  have hsorted {others : Fields α} (hothers : Collapses pairs others) :
      others.Pairwise fun a b => (names pairs).idxOf a.1 < (names pairs).idxOf b.1 :=
    (List.pairwise_map (f := Prod.fst)).mp hothers.ordered
  exact hperm.eq_of_pairwise (fun a b _ _ hab hba => absurd hab hba.asymm) (hsorted h) (hsorted h')

theorem collapses_iff : Collapses pairs fields ↔ fields = ofPairs pairs := by
  constructor
  · exact fun h => h.unique (collapses_ofPairs pairs)
  · rintro rfl
    exact collapses_ofPairs pairs

end Fields

/-! ## Objects -/

/-- Of the operands that the node of a term can have, it has an object, and none that would count
before it. -/
def Node.HoldsObject (n object : Node) : Prop :=
  n.nodes .literal = [] ∧ n.nodes .array = [] ∧ (n.nodes .object).head? = some object

/-- An object is written with pairs: their keys and their values stand in it in order, with every
key as often as it is written. -/
structure Node.WritesPairs (object : Node) (pairs : List (String × Expr)) : Prop where
  rule : object.rule = .object
  keys : (object.tokens .key).map objectKey = Fields.names pairs
  values : List.Forall₂ (fun n e => Expr.ofNode n = .ok e) (object.nodes .expression)
    (pairs.map Prod.snd)

theorem Node.expectRule_eq_ok_iff {n : Node} {rule : Rule} {u : Unit} :
    (liftM (n.expectRule rule) : Except BuildError Unit) = .ok u ↔ n.rule = rule := by
  rw [Node.expectRule]
  split
  · rename_i h
    exact iff_of_true rfl h
  · rename_i h
    exact iff_of_false (fun hok => by cases hok) h

theorem Expr.entriesOfNodes_eq_ok_iff {keys : List Token} {ns : List Node}
    {pairs : List (String × Expr)} (hlength : keys.length = ns.length) :
    Expr.entriesOfNodes keys ns = .ok pairs ↔ keys.map objectKey = Fields.names pairs ∧
      List.Forall₂ (fun n e => Expr.ofNode n = .ok e) ns (pairs.map Prod.snd) := by
  induction keys generalizing ns pairs with
  | nil =>
    obtain rfl : ns = [] := List.length_eq_zero_iff.mp hlength.symm
    rw [entriesOfNodes_nil_left]
    constructor
    · intro h
      cases h
      exact ⟨rfl, .nil⟩
    · rintro ⟨hnames, -⟩
      rw [List.map_eq_nil_iff.mp hnames.symm]
  | cons key keys ih =>
    obtain ⟨n, ns, rfl⟩ : ∃ n ns', ns = n :: ns' :=
      List.exists_cons_of_length_eq_add_one hlength.symm
    have ih {pairs : List (String × Expr)} := @ih ns pairs (Nat.succ.inj hlength)
    rw [entriesOfNodes]
    constructor
    · intro h
      obtain ⟨e, he, h⟩ := bind_eq_ok.mp h
      obtain ⟨others, hothers, h⟩ := bind_eq_ok.mp h
      cases h
      obtain ⟨hkeys, hvalues⟩ := ih.mp hothers
      exact ⟨congrArg (objectKey key :: ·) hkeys, .cons he hvalues⟩
    · rintro ⟨hkeys, hvalues⟩
      cases pairs with
      | nil => cases hkeys
      | cons pair others =>
        obtain ⟨k, e⟩ := pair
        obtain ⟨rfl, hrest⟩ := List.cons.inj hkeys
        obtain ⟨he, hvalues⟩ := List.forall₂_cons.mp hvalues
        rw [he, ih.mpr ⟨hrest, hvalues⟩]
        rfl

/-- An object is built exactly from the pairs that are written, by inserting them. -/
theorem Operand.ofNode_object {n object : Node} (h : n.HoldsObject object) {operand : Operand} :
    Operand.ofNode n = .ok operand ↔
      ∃ pairs, object.WritesPairs pairs ∧ operand = .map (Fields.ofPairs pairs) := by
  obtain ⟨hliteral, harray, hobject⟩ := h
  obtain ⟨others, hobject⟩ := List.head?_eq_some_iff.mp hobject
  obtain ⟨hc, hnode⟩ := Node.node?_of_nodes_cons hobject
  rw [Operand.ofNode, Node.node?_of_nodes_nil hliteral, Node.node?_of_nodes_nil harray, hnode]
  dsimp only
  constructor
  · intro h
    obtain ⟨_, hrule, h⟩ := bind_eq_ok.mp h
    split at h
    · cases h
    · rename_i hlength
      obtain ⟨pairs, hpairs, h⟩ := bind_eq_ok.mp h
      cases h
      obtain ⟨hkeys, hvalues⟩ := (Expr.entriesOfNodes_eq_ok_iff (not_not.mp hlength)).mp hpairs
      exact ⟨pairs, ⟨Node.expectRule_eq_ok_iff.mp hrule, hkeys, hvalues⟩, rfl⟩
  · rintro ⟨pairs, ⟨hrule, hkeys, hvalues⟩, rfl⟩
    have hlength : (object.tokens .key).length = (object.nodes .expression).length := by
      rw [hvalues.length_eq, ← List.length_map objectKey, hkeys, Fields.names, List.length_map,
        List.length_map]
    rw [Node.expectRule, if_pos hrule, if_neg (not_not.mpr hlength),
      (Expr.entriesOfNodes_eq_ok_iff hlength).mpr ⟨hkeys, hvalues⟩]
    rfl

/-- Entries that were inserted are lowered as if the lowered pairs had been inserted. -/
theorem Operand.toDocument_map_ofPairs (pairs : List (String × Expr)) :
    (Operand.map (Fields.ofPairs pairs)).toDocument =
      .object (Fields.ofPairs (pairs.map fun pair => (pair.1, pair.2.toDocument))) := by
  have hnames := Fields.names_map Expr.toDocument (Fields.ofPairs pairs)
  calc (Operand.map (Fields.ofPairs pairs)).toDocument
      = .object (Fields.ofPairs
          ((Fields.ofPairs pairs).map fun pair => (pair.1, pair.2.toDocument))) :=
        Expr.toDocument_map (Fields.ofPairs pairs)
    _ = .object ((Fields.ofPairs pairs).map fun pair => (pair.1, pair.2.toDocument)) := by
        rw [Fields.ofPairs_of_nodup (hnames ▸ Fields.nodup_names_ofPairs pairs)]
    _ = .object (Fields.ofPairs (pairs.map fun pair => (pair.1, pair.2.toDocument))) := by
        rw [Fields.ofPairs_map]

/-- An object is built from what is written in it: each key once, in the order in which the keys
come first, each with the value that comes last. The document of the entries has the fields that
putting the lowered pairs into an ordered map one after the other gives. -/
theorem objects_collapse_keys (n object : Node) (h : n.HoldsObject object) :
    (∀ operand, Operand.ofNode n = .ok operand ↔ ∃ pairs entries, object.WritesPairs pairs ∧
      Fields.Collapses pairs entries ∧ operand = .map entries) ∧
    ∀ pairs entries, Fields.Collapses pairs entries →
      ∃ fields, (Operand.map entries).toDocument = .object fields ∧
        ∀ result, Fields.InsertsAll (pairs.map fun pair => (pair.1, pair.2.toDocument)) [] result ↔
          result = fields := by
  constructor
  · intro operand
    rw [Operand.ofNode_object h]
    constructor
    · rintro ⟨pairs, hpairs, rfl⟩
      exact ⟨pairs, _, hpairs, Fields.collapses_ofPairs pairs, rfl⟩
    · rintro ⟨pairs, entries, hpairs, hcollapses, rfl⟩
      exact ⟨pairs, hpairs, congrArg Operand.map (Fields.collapses_iff.mp hcollapses)⟩
  · intro pairs entries hcollapses
    obtain rfl := Fields.collapses_iff.mp hcollapses
    exact ⟨_, Operand.toDocument_map_ofPairs pairs, fun result => Fields.insertsAll_iff⟩

/-- A key that is written as a name comes again as a string. -/
theorem objects_collapse_keys_sample : ∃ (n object : Node) (pairs entries : List (String × Expr))
    (fields : Fields Document), n.HoldsObject object ∧ object.WritesPairs pairs ∧
      Fields.names pairs = ["a", "b", "a"] ∧ Operand.ofNode n = .ok (.map entries) ∧
      entries = [("a", .ofOperand (.primitive .null)),
        ("b", .ofOperand (.primitive (.bool false)))] ∧
      (Operand.map entries).toDocument = .object fields ∧
      Fields.InsertsAll (pairs.map fun pair => (pair.1, pair.2.toDocument)) [] fields := by
  let start : Position := ⟨0, 1, 1⟩
  let value (word : Keyword) : Node :=
    .mk .expression start [.node .term (.mk .term start [.node .literal
      (.mk .literal start [.token .value ⟨.keyword word, "", start⟩])])]
  let object : Node := .mk .object start
    [.token .key ⟨.identifier "a", "a", start⟩, .node .expression (value .true),
      .token .key ⟨.identifier "b", "b", start⟩, .node .expression (value .false),
      .token .key ⟨.string "a", "\"a\"", start⟩, .node .expression (value .null)]
  let pairs : List (String × Expr) := [("a", .ofOperand (.primitive (.bool true))),
    ("b", .ofOperand (.primitive (.bool false))), ("a", .ofOperand (.primitive .null))]
  have hobject : (Node.mk .term start [.node .object object]).HoldsObject object :=
    ⟨rfl, rfl, rfl⟩
  have hpairs : object.WritesPairs pairs := by
    refine ⟨rfl, rfl, .cons ?_ (.cons ?_ (.cons ?_ .nil))⟩
    all_goals with_unfolding_all rfl
  obtain ⟨hbuilt, hlowered⟩ := objects_collapse_keys _ object hobject
  have hcollapses := Fields.collapses_ofPairs pairs
  obtain ⟨fields, hdocument, hinserts⟩ := hlowered pairs _ hcollapses
  exact ⟨_, object, pairs, Fields.ofPairs pairs, fields, hobject, hpairs, rfl,
    (hbuilt _).mpr ⟨pairs, _, hpairs, hcollapses, rfl⟩, rfl, hdocument, (hinserts fields).mpr rfl⟩

end Workflow
