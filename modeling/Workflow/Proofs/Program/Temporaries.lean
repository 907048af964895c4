import Workflow.Proofs.Program.Calls

/-!
# Temporaries

A call whose result goes into a dotted or subscripted place gets a temporary for its result. Here it
is said which ones are used: the results of all calls, in source order, are the places that are bare
names and, for the others, temporaries that are numbered from zero. So temporaries differ from each
other. They differ from the variables of the source exactly if none of those is called like one.
-/

namespace Workflow

/-! ## Variables and places -/

/-- The variables that a syntax tree uses. -/
def Node.variables (tree : Node) : List String := tree.all.filterMap Node.variable?

/-- Where a syntax tree puts the results of calls, in source order. -/
def Node.callPlaces (tree : Node) : List Node := tree.all.filterMap Node.callPlace?

/-- How many calls put their results in places that are not bare names. -/
def Node.otherPlaces (tree : Node) : Nat :=
  tree.callPlaces.countP fun place => place.bareName?.isNone

theorem Node.isBinder_of_callPlace? {n place : Node} (h : n.callPlace? = some place) :
    n.rule.isBinder = true := by
  rw [(Node.callPlace?_eq_some h).1]
  rfl

/-- The places are those of the statements that can bind something. -/
theorem Node.callPlaces_eq_binders (tree : Node) :
    tree.callPlaces = tree.binders.filterMap Node.callPlace? := by
  rw [Node.callPlaces, Node.binders, List.filterMap_filter]
  refine List.filterMap_congr fun n _ => ?_
  cases hplace : n.callPlace? with
  | none => rw [ite_self]
  | some place => rw [if_pos (Node.isBinder_of_callPlace? hplace)]

/-! ## Results of calls -/

section

variable {α : Type}

/-- Where a step puts the result of its call. -/
def Step.result? : Step α → Option String
  | .mk _ (.call _ _ result) => result
  | _ => none

/-- Where the calls of steps put their results, those inside steps included. -/
def Step.results (steps : List (Step α)) : List String :=
  (Step.walkAll steps).filterMap Step.result?

/-- Where the calls of a program put their results. -/
def Program.results (program : Program α) : List String :=
  program.flatMap fun w => Step.results w.steps

/-- The results of the calls among what is bound. -/
def resultsOf (bindings : List Binding) : List String :=
  (bindings.filterMap Sum.getLeft?).map PlacedCall.result

theorem resultsOf_nil : resultsOf [] = [] := rfl

theorem resultsOf_append {bindings rest : List Binding} :
    resultsOf (bindings ++ rest) = resultsOf bindings ++ resultsOf rest := by
  rw [resultsOf, List.filterMap_append, List.map_append]
  rfl

theorem resultsOf_map_inr (names : List String) : resultsOf (names.map .inr) = [] := by
  simp [resultsOf, List.filterMap_map, Function.comp_def]

theorem resultsOf_flatMap {β : Type} {f : β → List Binding} (xs : List β) :
    resultsOf (xs.flatMap f) = xs.flatMap fun x => resultsOf (f x) := by
  rw [resultsOf, List.filterMap_flatMap, List.map_flatMap]
  rfl

theorem LoopHead.resultsOf_bindings (head : LoopHead) : resultsOf head.bindings = [] :=
  resultsOf_map_inr (head.value :: head.index.toList)

mutual

/-- Among what a step binds, the results of calls are those that a walk through it finds. -/
theorem Step.results_walk (step : Step α) (after : Option (String × Expr)) :
    step.walk.filterMap Step.result? = resultsOf (step.bindings after) := by
  match step with
  | .mk label action =>
    rw [Step.walk, Step.bindings]
    exact action.results_walk label after

theorem Action.results_walk (action : Action α) (label : α) (after : Option (String × Expr)) :
    (Step.mk label action :: action.walk).filterMap Step.result? =
      resultsOf (action.bindings after) := by
  match action with
  | .assign assignments =>
    rw [List.filterMap_cons_none rfl]
    simp [Action.walk, Action.bindings, resultsOf, List.filterMap_map, Function.comp_def]
  | .call target args none => simp [Action.walk, Action.bindings, Step.result?, resultsOf]
  | .call target args (some result) => simp [Action.walk, Action.bindings, Step.result?, resultsOf]
  | .loop head body =>
    rw [List.filterMap_cons_none rfl, Action.walk, Action.bindings, resultsOf_append,
      head.resultsOf_bindings, List.nil_append]
    exact Step.results_walkAll body none
  | .next target => simp [Action.walk, Action.bindings, Step.result?, resultsOf]
  | .branches options rows =>
    rw [List.filterMap_cons_none rfl, Action.walk, Action.bindings]
    exact Step.results_walkAll rows none
  | .parallelLoop options head body =>
    rw [List.filterMap_cons_none rfl, Action.walk, Action.bindings, resultsOf_append,
      head.resultsOf_bindings, List.nil_append]
    exact Step.results_walkAll body none
  | .raise value => simp [Action.walk, Action.bindings, Step.result?, resultsOf]
  | .return value => simp [Action.walk, Action.bindings, Step.result?, resultsOf]
  | .steps body =>
    rw [List.filterMap_cons_none rfl, Action.walk, Action.bindings]
    exact Step.results_walkAll body none
  | .switch cases next =>
    rw [List.filterMap_cons_none rfl, Action.walk, Action.bindings]
    exact Case.results_walkAll cases
  | .attempt body retry errorName handler =>
    rw [List.filterMap_cons_none rfl, Action.walk, Action.bindings, resultsOf_append,
      resultsOf_map_inr, List.nil_append, resultsOf_append, List.filterMap_append,
      Step.results_walkAll body none, Step.results_walkAll handler none]

theorem Step.results_walkAll (steps : List (Step α)) (after : Option (String × Expr)) :
    (Step.walkAll steps).filterMap Step.result? = resultsOf (Step.bindingsAll after steps) := by
  match steps with
  | [] => rw [Step.walkAll, Step.bindingsAll, List.filterMap_nil, resultsOf_nil]
  | step :: rest =>
    rw [Step.walkAll, Step.bindingsAll, List.filterMap_append, resultsOf_append,
      step.results_walk, Step.results_walkAll rest after]

theorem Case.results_walkAll (cases : List (Case α)) :
    (Case.walkAll cases).filterMap Step.result? = resultsOf (Case.bindingsAll cases) := by
  match cases with
  | [] => rw [Case.walkAll, Case.bindingsAll, List.filterMap_nil, resultsOf_nil]
  | .mk condition body next :: rest =>
    rw [Case.walkAll, Case.bindingsAll, List.filterMap_append, resultsOf_append,
      Step.results_walkAll body none, Case.results_walkAll rest]

end

theorem Program.results_eq (program : Program α) : program.results = resultsOf program.bindings := by
  rw [Program.results, Program.bindings, resultsOf_flatMap]
  exact congrArg (program.flatMap ·) (funext fun w => Step.results_walkAll w.steps none)

end

/-! ## Numbering -/

/-- Calls at places get results, with the temporaries from one number up to another: a bare name is
its own result, and every other place uses up a temporary. -/
inductive Lowered : Nat → List Node → List String → Nat → Prop
  | nil (n : Nat) : Lowered n [] [] n
  | bare {place : Node} {name : String} {n m : Nat} {places : List Node} {results : List String}
      (hname : place.bareName? = some name) (h : Lowered n places results m) :
      Lowered n (place :: places) (name :: results) m
  | other {place : Node} {n m : Nat} {places : List Node} {results : List String}
      (hname : place.bareName? = none) (h : Lowered (n + 1) places results m) :
      Lowered n (place :: places) (temporary n :: results) m

/-- The results of calls whose places are not bare names. -/
def introduced (places : List Node) (results : List String) : List String :=
  ((places.zip results).filter fun pair => pair.1.bareName?.isNone).map Prod.snd

namespace Lowered

variable {n m k : Nat} {places others : List Node} {results rest : List String}

theorem length_eq (h : Lowered n places results m) : results.length = places.length := by
  induction h with
  | nil n => rfl
  | bare hname _ ih => rw [List.length_cons, List.length_cons, ih]
  | other hname _ ih => rw [List.length_cons, List.length_cons, ih]

theorem result_eq (h : Lowered n places results m) {place : Node} {name result : String}
    (hmem : (place, result) ∈ places.zip results) (hname : place.bareName? = some name) :
    result = name := by
  induction h with
  | nil n => cases hmem
  | bare hbare _ ih =>
    rw [List.zip_cons_cons, List.mem_cons] at hmem
    rcases hmem with heq | hmem
    · cases heq
      exact Option.some.inj (hbare.symm.trans hname)
    · exact ih hmem
  | other hnone _ ih =>
    rw [List.zip_cons_cons, List.mem_cons] at hmem
    rcases hmem with heq | hmem
    · cases heq
      rw [hnone] at hname
      cases hname
    · exact ih hmem

theorem introduced_eq (h : Lowered n places results m) :
    introduced places results =
      (List.range' n (places.countP fun place => place.bareName?.isNone)).map temporary := by
  induction h with
  | nil n => rfl
  | bare hname _ ih =>
    rw [List.countP_cons_of_neg (by simp [hname]), ← ih]
    simp [introduced, hname]
  | other hname _ ih =>
    rw [List.countP_cons_of_pos (by simp [hname]), List.range'_succ, List.map_cons, ← ih]
    simp [introduced, hname]

end Lowered

/-- What a statement binds has the result that its place asks for, if it has a place. -/
theorem Node.Binds.lowered_cons {statement : Node} {statements : List Node} {n m k : Nat}
    {row : List Binding} {results : List String} (h : statement.Binds n row k)
    (hrest : Lowered k (statements.filterMap Node.callPlace?) results m) :
    Lowered n ((statement :: statements).filterMap Node.callPlace?) (resultsOf row ++ results)
      m := by
  cases h with
  | bare hplace hname hcall =>
    rw [List.filterMap_cons_some hplace]
    exact .bare hname hrest
  | other hplace hname hcall htext =>
    rw [List.filterMap_cons_some hplace]
    exact .other hname hrest
  | names hplace =>
    rw [List.filterMap_cons_none hplace, resultsOf_map_inr]
    exact hrest

theorem BindsAll.lowered {n m : Nat} {statements : List Node} {bindings : List Binding}
    (h : BindsAll n statements bindings m) :
    Lowered n (statements.filterMap Node.callPlace?) (resultsOf bindings) m := by
  induction h with
  | nil n => exact .nil n
  | cons hrow _ ih =>
    rw [resultsOf_append]
    exact hrow.lowered_cons ih

theorem lowered_of_build {source : String} {tree : Node} {program : Program Unit}
    (hparse : parse source = .ok tree) (hbuild : buildProgram tree = .ok program) :
    ∃ count, Lowered 0 tree.callPlaces program.results count := by
  obtain ⟨count, h⟩ := bindsAll_of_build hparse hbuild
  rw [tree.callPlaces_eq_binders, program.results_eq]
  exact ⟨count, h.lowered⟩

/-- In the program of a text, every call that is written with a place for its result has one, in
source order. A bare name is its own. The other places get temporaries, which are numbered from
zero and so are all different. These are no variables of the text exactly if none of its variables
is called like a temporary with a number below the count of these places. -/
theorem introduced_fresh_iff (source : String) (tree : Node) (program : Program Unit)
    (hparse : parse source = .ok tree) (hbuild : buildProgram tree = .ok program) :
    program.results.length = tree.callPlaces.length ∧
    (∀ place name result, (place, result) ∈ tree.callPlaces.zip program.results →
      place.bareName? = some name → result = name) ∧
    introduced tree.callPlaces program.results = (List.range tree.otherPlaces).map temporary ∧
    (introduced tree.callPlaces program.results).Nodup ∧
    ((∀ t ∈ introduced tree.callPlaces program.results, t ∉ tree.variables) ↔
      ∀ n < tree.otherPlaces, temporary n ∉ tree.variables) := by
  obtain ⟨count, h⟩ := lowered_of_build hparse hbuild
  have hintroduced : introduced tree.callPlaces program.results =
      (List.range tree.otherPlaces).map temporary := by
    rw [h.introduced_eq, List.range_eq_range']
    rfl
  refine ⟨h.length_eq, fun _ _ _ hmem hname => h.result_eq hmem hname, hintroduced, ?_, ?_⟩
  · rw [hintroduced]
    exact List.nodup_range.map temporary_injective
  · rw [hintroduced, List.forall_mem_map]
    simp only [List.mem_range]

/-- A variable that is called like a temporary with a higher number is not touched. -/
theorem introduced_fresh_iff_sample : ∃ (tree : Node) (program : Program Unit),
    parse "workflow w(__temp2) \x7b a.b = f() x = g() for (i in a) \x7b y[0] = h() \x7d \x7d" =
      .ok tree ∧
    buildProgram tree = .ok program ∧
    program.results = ["__temp0", "x", "__temp1"] ∧
    "__temp2" ∈ tree.variables ∧
    ∀ t ∈ introduced tree.callPlaces program.results, t ∉ tree.variables := by
  generalize hsource :
    "workflow w(__temp2) \x7b a.b = f() x = g() for (i in a) \x7b y[0] = h() \x7d \x7d" = source
  have hrun : ((parse source).toOption.bind fun tree =>
      (buildProgram tree).toOption.map fun program =>
        (tree.otherPlaces, tree.variables, program.results)) =
      some (2, ["__temp2", "a", "x", "i", "a", "y"], ["__temp0", "x", "__temp1"]) := by
    rw [← hsource]
    decide +kernel
  obtain ⟨tree, htree, hrun⟩ := Option.bind_eq_some_iff.mp hrun
  obtain ⟨program, hprogram, hrun⟩ := Option.map_eq_some_iff.mp hrun
  obtain ⟨hcount, hrun⟩ := Prod.mk.inj hrun
  obtain ⟨hvariables, hresults⟩ := Prod.mk.inj hrun
  have hparse := eq_ok_of_toOption htree
  have hbuild := eq_ok_of_toOption hprogram
  refine ⟨tree, program, hparse, hbuild, hresults, by simp [hvariables], ?_⟩
  refine (introduced_fresh_iff _ tree program hparse hbuild).2.2.2.2.mpr ?_
  rw [hcount, hvariables]
  decide +kernel

/-- A variable that is called like the first temporary is overwritten by the call that uses it. -/
theorem introduced_mem_variables : ∃ (tree : Node) (program : Program Unit),
    parse "workflow main() \x7b __temp0 = sys.f() a.b = sys.g() \x7d" = .ok tree ∧
    buildProgram tree = .ok program ∧
    introduced tree.callPlaces program.results = ["__temp0"] ∧
    "__temp0" ∈ tree.variables := by
  have hrun : ((parse "workflow main() \x7b __temp0 = sys.f() a.b = sys.g() \x7d").toOption.bind
        fun tree => (buildProgram tree).toOption.map fun program =>
          (tree.variables, introduced tree.callPlaces program.results)) =
      some (["__temp0", "a"], ["__temp0"]) := by
    decide +kernel
  obtain ⟨tree, htree, hrun⟩ := Option.bind_eq_some_iff.mp hrun
  obtain ⟨program, hprogram, hrun⟩ := Option.map_eq_some_iff.mp hrun
  obtain ⟨hvariables, hintroduced⟩ := Prod.mk.inj hrun
  exact ⟨tree, program, eq_ok_of_toOption htree, eq_ok_of_toOption hprogram, hintroduced,
    by simp [hvariables]⟩

end Workflow
