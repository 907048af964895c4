import Mathlib.Data.List.Nodup
import Workflow.Check.Names
import Workflow.Program.Naming
import Workflow.Proofs.Token.Written

/-!
# Numbers of steps

Naming numbers the steps of each kind from one, in the order of the walk through the program, and
changes nothing else. A row of steps is numbered from some counters on if each of its steps has the
next name of its kind; the steps inside a step are numbered behind it, one list after the other.
-/

namespace Workflow

/-! ## Kinds -/

/-- The kinds of steps. Branches and a parallel loop are of one kind. -/
inductive StepKind where
  | assign | call | loop | next | parallel | raise | return | steps | switch | attempt
  deriving DecidableEq

/-- The kind of step that an action makes. -/
def Action.stepKind {α : Type} : Action α → StepKind
  | .assign _ => .assign
  | .call _ _ _ => .call
  | .loop _ _ => .loop
  | .next _ => .next
  | .branches _ _ | .parallelLoop _ _ _ => .parallel
  | .raise _ => .raise
  | .return _ => .return
  | .steps _ => .steps
  | .switch _ _ => .switch
  | .attempt _ _ _ _ => .attempt

/-- What the names of the steps of a kind start with. -/
def StepKind.word : StepKind → String
  | .assign => "assign"
  | .call => "call"
  | .loop => "for"
  | .next => "next"
  | .parallel => "parallel"
  | .raise => "raise"
  | .return => "return"
  | .steps => "steps"
  | .switch => "switch"
  | .attempt => "try"

theorem StepKind.word_injective {kind kind' : StepKind} (h : kind.word = kind'.word) :
    kind = kind' := by
  cases kind <;> cases kind' <;> first | rfl | exact absurd h (by decide)

theorem Action.kind_eq_word {α : Type} (action : Action α) :
    action.kind = action.stepKind.word := by
  cases action with
  | _ => rfl

theorem Action.kind_eq_word_iff {α : Type} {action : Action α} {kind : StepKind} :
    action.kind = kind.word ↔ action.stepKind = kind := by
  rw [action.kind_eq_word]
  constructor
  · exact StepKind.word_injective
  · rintro rfl
    rfl

/-! ## Steps without their names -/

mutual

/-- A step without its name. -/
def Step.unnamed : NamedStep → RawStep
  | .mk _ action => .mk () action.unnamed

/-- What a step does, without the names of the steps inside it. -/
def Action.unnamed : Action String → Action Unit
  | .assign assignments => .assign assignments
  | .call target args result => .call target args result
  | .loop head body => .loop head (Step.unnamedAll body)
  | .next target => .next target
  | .branches options branches => .branches options (Step.unnamedAll branches)
  | .parallelLoop options head body => .parallelLoop options head (Step.unnamedAll body)
  | .raise value => .raise value
  | .return value => .return value
  | .steps body => .steps (Step.unnamedAll body)
  | .switch cases next => .switch (Case.unnamedAll cases) next
  | .attempt body retry errorName handler =>
    .attempt (Step.unnamedAll body) retry errorName (Step.unnamedAll handler)

/-- Steps without their names. -/
def Step.unnamedAll : List NamedStep → List RawStep
  | [] => []
  | step :: rest => step.unnamed :: Step.unnamedAll rest

/-- Cases without the names of the steps inside them. -/
def Case.unnamedAll : List (Case String) → List (Case Unit)
  | [] => []
  | .mk condition body next :: rest =>
    .mk condition (Step.unnamedAll body) next :: Case.unnamedAll rest

end

/-- A program without the names of its steps. -/
def Program.unnamed (program : Program String) : Program Unit :=
  program.map fun w => ⟨w.name, w.params, Step.unnamedAll w.steps⟩

/-- All steps of a program, subworkflow by subworkflow. -/
def Program.walk {α : Type} (program : Program α) : List (Step α) :=
  program.flatMap Subworkflow.walk

theorem Action.kind_unnamed (action : Action String) : action.unnamed.kind = action.kind := by
  cases action with
  | _ => simp only [Action.unnamed, Action.kind]

/-! ## Walking by direct children -/

theorem Step.walkAll_append {α : Type} (steps rest : List (Step α)) :
    Step.walkAll (steps ++ rest) = Step.walkAll steps ++ Step.walkAll rest := by
  induction steps with
  | nil => simp [Step.walkAll]
  | cons step others ih => simp [Step.walkAll, ih]

theorem Case.walkAll_eq {α : Type} (cases : List (Case α)) :
    Case.walkAll cases = Step.walkAll (cases.flatMap Case.body) := by
  induction cases with
  | nil => simp [Case.walkAll, Step.walkAll]
  | cons case rest ih =>
    obtain ⟨condition, body, next⟩ := case
    rw [Case.walkAll, List.flatMap_cons, Step.walkAll_append, ih, Case.body]

/-- Walking through a step goes through its direct children, one after the other. -/
theorem Step.walk_eq_children {α : Type} (step : Step α) :
    step.walk = step :: Step.walkAll step.children := by
  obtain ⟨label, action⟩ := step
  rw [Step.walk]
  cases action with
  | switch cases next => rw [Action.walk, Case.walkAll_eq, Step.children]
  | attempt body retry errorName handler => rw [Action.walk, Step.children, Step.walkAll_append]
  | _ => simp only [Action.walk, Step.children, Step.walkAll]

/-! ## Rows of numbered steps -/

/-- The name of a kind and a number. -/
def numberedName (kind : String) (n : Nat) : String := kind ++ Decimal.natText n

/-- Each step of a row has the next name of its kind, from the first counters on up to the last. -/
inductive Numbered : Counters → List NamedStep → Counters → Prop where
  | nil (c : Counters) : Numbered c [] c
  | cons {c c' : Counters} {step : NamedStep} {rest : List NamedStep}
      (hname : step.label = numberedName step.action.kind (c.get step.action.kind + 1))
      (hrest : Numbered (c.bump step.action.kind) rest c') : Numbered c (step :: rest) c'

theorem Numbered.append {c c' c'' : Counters} {steps rest : List NamedStep}
    (h : Numbered c steps c') (h' : Numbered c' rest c'') : Numbered c (steps ++ rest) c'' := by
  induction h with
  | nil c => exact h'
  | cons hname _ ih => exact .cons hname (ih h')

/-! ## Naming -/

/-- Naming an action changes nothing but the names inside it, and numbers the walk through it. -/
def Action.NamedFrom (c : Counters) (action : Action Unit) : Prop :=
  (action.named.run c).1.unnamed = action ∧
    Numbered c (action.named.run c).1.walk (action.named.run c).2

/-- Naming steps changes nothing but their names, and numbers the walk through them. -/
def Step.NamedFrom (c : Counters) (steps : List RawStep) : Prop :=
  Step.unnamedAll ((Step.namedAll steps).run c).1 = steps ∧
    Numbered c (Step.walkAll ((Step.namedAll steps).run c).1) ((Step.namedAll steps).run c).2

section

variable {c : Counters} {raw : Action Unit}

/-- An action without steps inside it. -/
theorem Action.namedFrom_leaf {named : Action String} (hnamed : raw.named = pure named)
    (hsame : named.unnamed = raw) (hwalk : named.walk = []) : raw.NamedFrom c := by
  rw [Action.NamedFrom, hnamed]
  refine ⟨hsame, ?_⟩
  show Numbered c named.walk c
  rw [hwalk]
  exact .nil c

/-- An action with one list of steps inside it. -/
theorem Action.namedFrom_body (named : List NamedStep → Action String) {body : List RawStep}
    (hnamed : raw.named = do return named (← Step.namedAll body))
    (hsame : ∀ steps, Step.unnamedAll steps = body → (named steps).unnamed = raw)
    (hwalk : ∀ steps, (named steps).walk = Step.walkAll steps) (h : Step.NamedFrom c body) :
    raw.NamedFrom c := by
  rw [Action.NamedFrom, hnamed]
  refine ⟨hsame _ h.1, ?_⟩
  show Numbered c (named ((Step.namedAll body).run c).1).walk ((Step.namedAll body).run c).2
  rw [hwalk]
  exact h.2

end

mutual

theorem Step.named_spec (step : RawStep) (c : Counters) :
    (step.named.run c).1.unnamed = step ∧
      Numbered c (step.named.run c).1.walk (step.named.run c).2 := by
  match step with
  | .mk () action =>
    obtain ⟨hsame, hwalk⟩ := action.namedFrom (c.bump action.kind)
    have hkind : (action.named.run (c.bump action.kind)).1.kind = action.kind := by
      rw [← Action.kind_unnamed, hsame]
    have hrun : (Step.named (.mk () action)).run c =
        (.mk (numberedName action.kind ((c.bump action.kind).get action.kind))
          (action.named.run (c.bump action.kind)).1,
          (action.named.run (c.bump action.kind)).2) := by
      rw [Step.named]
      rfl
    rw [hrun]
    refine ⟨by rw [Step.unnamed, hsame], ?_⟩
    rw [Step.walk]
    refine .cons ?_ ?_
    · rw [Step.label, Step.action, hkind, Counters.get_bump, if_pos rfl]
    · rw [Step.action, hkind]
      exact hwalk

theorem Action.namedFrom (action : Action Unit) (c : Counters) : action.NamedFrom c := by
  match action with
  | .assign _ | .call _ _ _ | .next _ | .raise _ | .return _ =>
    apply Action.namedFrom_leaf
    · rw [Action.named]
    · rw [Action.unnamed]
    · simp only [Action.walk]
  | .loop head body =>
    apply Action.namedFrom_body (.loop head)
    · rw [Action.named]
    · intro steps hsteps
      rw [Action.unnamed, hsteps]
    · intro steps
      rw [Action.walk]
    · exact Step.namedFrom _ c
  | .branches options branches =>
    apply Action.namedFrom_body (.branches options)
    · rw [Action.named]
    · intro steps hsteps
      rw [Action.unnamed, hsteps]
    · intro steps
      rw [Action.walk]
    · exact Step.namedFrom _ c
  | .parallelLoop options head body =>
    apply Action.namedFrom_body (.parallelLoop options head)
    · rw [Action.named]
    · intro steps hsteps
      rw [Action.unnamed, hsteps]
    · intro steps
      rw [Action.walk]
    · exact Step.namedFrom _ c
  | .steps body =>
    apply Action.namedFrom_body .steps
    · rw [Action.named]
    · intro steps hsteps
      rw [Action.unnamed, hsteps]
    · intro steps
      rw [Action.walk]
    · exact Step.namedFrom _ c
  | .switch cases next =>
    obtain ⟨hsame, hwalk⟩ := Case.namedAll_spec cases c
    have hrun : (Action.switch cases next).named.run c =
        (.switch ((Case.namedAll cases).run c).1 next, ((Case.namedAll cases).run c).2) := by
      rw [Action.named]
      rfl
    rw [Action.NamedFrom, hrun, Action.unnamed, hsame, Action.walk]
    exact ⟨rfl, hwalk⟩
  | .attempt body retry errorName handler =>
    obtain ⟨hbody, hwalk⟩ := Step.namedFrom body c
    obtain ⟨hhandler, hwalk'⟩ := Step.namedFrom handler ((Step.namedAll body).run c).2
    have hrun : (Action.attempt body retry errorName handler).named.run c =
        (.attempt ((Step.namedAll body).run c).1 retry errorName
          ((Step.namedAll handler).run ((Step.namedAll body).run c).2).1,
          ((Step.namedAll handler).run ((Step.namedAll body).run c).2).2) := by
      rw [Action.named]
      rfl
    rw [Action.NamedFrom, hrun, Action.unnamed, hbody, hhandler, Action.walk]
    exact ⟨rfl, hwalk.append hwalk'⟩

theorem Step.namedFrom (steps : List RawStep) (c : Counters) : Step.NamedFrom c steps := by
  match steps with
  | [] => exact ⟨rfl, .nil c⟩
  | step :: rest =>
    obtain ⟨hstep, hwalk⟩ := step.named_spec c
    obtain ⟨hrest, hwalk'⟩ := Step.namedFrom rest (step.named.run c).2
    have hrun : (Step.namedAll (step :: rest)).run c =
        ((step.named.run c).1 :: ((Step.namedAll rest).run (step.named.run c).2).1,
          ((Step.namedAll rest).run (step.named.run c).2).2) := by
      rw [Step.namedAll]
      rfl
    rw [Step.NamedFrom, hrun, Step.unnamedAll, hstep, hrest, Step.walkAll]
    exact ⟨rfl, hwalk.append hwalk'⟩

theorem Case.namedAll_spec (cases : List (Case Unit)) (c : Counters) :
    Case.unnamedAll ((Case.namedAll cases).run c).1 = cases ∧
      Numbered c (Case.walkAll ((Case.namedAll cases).run c).1)
        ((Case.namedAll cases).run c).2 := by
  match cases with
  | [] => exact ⟨rfl, .nil c⟩
  | .mk condition body next :: rest =>
    obtain ⟨hbody, hwalk⟩ := Step.namedFrom body c
    obtain ⟨hrest, hwalk'⟩ := Case.namedAll_spec rest ((Step.namedAll body).run c).2
    have hrun : (Case.namedAll (.mk condition body next :: rest)).run c =
        (.mk condition ((Step.namedAll body).run c).1 next ::
            ((Case.namedAll rest).run ((Step.namedAll body).run c).2).1,
          ((Case.namedAll rest).run ((Step.namedAll body).run c).2).2) := by
      rw [Case.namedAll]
      rfl
    rw [hrun, Case.unnamedAll, hbody, hrest, Case.walkAll]
    exact ⟨rfl, hwalk.append hwalk'⟩

end

/-- Naming subworkflows numbers the walk through all of them. -/
theorem Subworkflow.namedAll_spec (program : Program Unit) (c : Counters) :
    Program.unnamed ((Subworkflow.namedAll program).run c).1 = program ∧
      Numbered c (Program.walk ((Subworkflow.namedAll program).run c).1)
        ((Subworkflow.namedAll program).run c).2 := by
  induction program generalizing c with
  | nil => exact ⟨rfl, .nil c⟩
  | cons w rest ih =>
    obtain ⟨hsteps, hwalk⟩ := Step.namedFrom w.steps c
    obtain ⟨hrest, hwalk'⟩ := ih ((Step.namedAll w.steps).run c).2
    have hrun : (Subworkflow.namedAll (w :: rest)).run c =
        (⟨w.name, w.params, ((Step.namedAll w.steps).run c).1⟩ ::
            ((Subworkflow.namedAll rest).run ((Step.namedAll w.steps).run c).2).1,
          ((Subworkflow.namedAll rest).run ((Step.namedAll w.steps).run c).2).2) := rfl
    rw [hrun]
    refine ⟨?_, hwalk.append hwalk'⟩
    rw [Program.unnamed] at hrest
    rw [Program.unnamed, List.map_cons, hsteps, hrest]

/-! ## Names differ -/

theorem toDigits_injective {m n : Nat} (h : Decimal.toDigits m = Decimal.toDigits n) : m = n := by
  rw [← Numeral.ofDigits_toDigits m, h, Numeral.ofDigits_toDigits]

/-- No kind has a digit in its word. -/
theorem Action.isDigit_kind {α : Type} (action : Action α) :
    ∀ d ∈ action.kind.toList, (!Decimal.isDigit d) = true := by
  rw [action.kind_eq_word]
  refine List.all_eq_true.mp ?_
  cases action.stepKind with
  | _ => decide

/-- A name tells its kind and its number: the digits start where the number does. -/
theorem numberedName_injective {kind kind' : String} {m n : Nat}
    (hkind : ∀ d ∈ kind.toList, (!Decimal.isDigit d) = true)
    (hkind' : ∀ d ∈ kind'.toList, (!Decimal.isDigit d) = true)
    (h : numberedName kind m = numberedName kind' n) : kind = kind' ∧ m = n := by
  have hchars : kind.toList ++ Decimal.toDigits m = kind'.toList ++ Decimal.toDigits n := by
    simpa [numberedName, Decimal.natText] using congrArg String.toList h
  have hstop : ∀ k : Nat, (Decimal.toDigits k).takeWhile (fun d => !Decimal.isDigit d) = [] := by
    intro k
    rw [List.takeWhile_eq_nil_iff]
    intro hlt
    rw [Numeral.isDigit_of_mem_toDigits (List.get_mem _ _)]
    decide
  have hfront := congrArg (List.takeWhile fun d => !Decimal.isDigit d) hchars
  rw [List.takeWhile_append_of_pos hkind, List.takeWhile_append_of_pos hkind', hstop, hstop,
    List.append_nil, List.append_nil] at hfront
  rw [hfront] at hchars
  exact ⟨String.toList_inj.mp hfront, toDigits_injective (List.append_cancel_left hchars)⟩

section

variable {c c' : Counters} {steps : List NamedStep}

/-- The names of a numbered row have numbers above the first counters. -/
theorem Numbered.exists_number (h : Numbered c steps c') : ∀ step ∈ steps,
    ∃ n, c.get step.action.kind < n ∧ step.label = numberedName step.action.kind n := by
  induction h with
  | nil c => exact List.forall_mem_nil _
  | @cons c c' first rest hname _ ih =>
    refine List.forall_mem_cons.mpr ⟨⟨_, Nat.lt_succ_self _, hname⟩, fun step hstep => ?_⟩
    obtain ⟨n, hn, hlabel⟩ := ih step hstep
    refine ⟨n, ?_, hlabel⟩
    rw [Counters.get_bump] at hn
    split at hn
    · rename_i hkind
      rw [hkind]
      omega
    · exact hn

theorem Numbered.nodup_labels (h : Numbered c steps c') : (steps.map Step.label).Nodup := by
  induction h with
  | nil c => exact List.nodup_nil
  | @cons c c' first rest hname hrest ih =>
    refine List.nodup_cons.mpr ⟨fun hmem => ?_, ih⟩
    obtain ⟨step, hstep, hlabel⟩ := List.mem_map.mp hmem
    obtain ⟨n, hn, hlabel'⟩ := hrest.exists_number step hstep
    obtain ⟨hkind, rfl⟩ := numberedName_injective step.action.isDigit_kind
      first.action.isDigit_kind (hlabel'.symm.trans (hlabel.trans hname))
    rw [Counters.get_bump, if_pos hkind] at hn
    omega

/-- The names of the steps of a kind carry the numbers behind its first counter, in order. -/
theorem Numbered.labels_of_kind (h : Numbered c steps c') (kind : String) :
    (steps.filter (·.action.kind = kind)).map Step.label =
      (List.range' (c.get kind + 1) (steps.filter (·.action.kind = kind)).length).map
        (numberedName kind) := by
  induction h with
  | nil c => rfl
  | @cons c c' first rest hname _ ih =>
    rw [Counters.get_bump] at ih
    by_cases hkind : first.action.kind = kind
    · subst hkind
      rw [if_pos rfl] at ih
      rw [List.filter_cons_of_pos (by simp), List.map_cons, List.length_cons, List.range'_succ,
        List.map_cons, ih, hname]
    · rw [if_neg (Ne.symm hkind)] at ih
      rw [List.filter_cons_of_neg (by simp [hkind]), ih]

end

/-! ## How many names are given -/

/-- How many names were given, of all kinds. -/
def Counters.total (c : Counters) : Nat := c.foldr (fun counter n => counter.2 + n) 0

theorem Counters.total_insert (kind : String) (n : Nat) (c : Counters) :
    Counters.total (Fields.insert kind n c) + c.get kind = c.total + n := by
  rw [Counters.get]
  induction c with
  | nil => simp [Counters.total, Fields.insert]
  | cons counter rest ih =>
    obtain ⟨k, m⟩ := counter
    rw [Counters.total, Counters.total] at ih
    by_cases h : k = kind
    · simp only [Counters.total, Fields.insert, h, if_true, List.foldr_cons, List.lookup_cons,
        beq_self_eq_true, Option.getD_some]
      omega
    · have hbeq : (kind == k) = false := beq_eq_false_iff_ne.mpr (Ne.symm h)
      simp only [Counters.total, Fields.insert, h, if_false, List.foldr_cons, List.lookup_cons, hbeq]
      omega

theorem Counters.total_bump (kind : String) (c : Counters) :
    (c.bump kind).total = c.total + 1 := by
  have := Counters.total_insert kind (c.get kind + 1) c
  rw [Counters.bump]
  omega

theorem Numbered.total {c c' : Counters} {steps : List NamedStep} (h : Numbered c steps c') :
    c'.total = c.total + steps.length := by
  induction h with
  | nil c => rfl
  | cons _ _ ih =>
    rw [Counters.total_bump] at ih
    rw [ih, List.length_cons]
    omega

/-! ## Programs -/

theorem repeatedNames_of_nodup {names : List String} (h : names.Nodup) :
    repeatedNames names = [] := by
  refine List.filter_eq_nil_iff.mpr fun name _ => ?_
  have hcount := List.nodup_iff_count_le_one.mp h name
  simpa using hcount

/-- The counters when all steps of a program have their names. -/
def Program.counters (program : Program Unit) : Counters :=
  ((Subworkflow.namedAll program).run .zero).2

/-- Naming a program gives every step its name and changes nothing else. The names of the steps of a
kind are its word and a number, from one on in the order of the walk through all subworkflows. So no
two steps share a name, and as many names are given as there are steps. -/
theorem Program.named_numbering (program : Program Unit) :
    program.named.unnamed = program ∧
    (∀ kind : StepKind,
      (program.named.walk.filter (·.action.stepKind = kind)).map Step.label =
        (List.range' 1 (program.named.walk.filter (·.action.stepKind = kind)).length).map
          fun n => kind.word ++ toString n) ∧
    (program.named.walk.map Step.label).Nodup ∧
    program.named.walk.length = program.counters.total ∧
    Check.repeatedSteps program.named = [] := by
  obtain ⟨hsame, hnumbered⟩ := Subworkflow.namedAll_spec program .zero
  have hnodup := hnumbered.nodup_labels
  refine ⟨hsame, fun kind => ?_, hnodup, ?_, ?_⟩
  · have hlabels := hnumbered.labels_of_kind kind.word
    simp only [Action.kind_eq_word_iff] at hlabels
    exact hlabels
  · have htotal := hnumbered.total
    have hzero : Counters.zero.total = 0 := rfl
    rw [hzero, Nat.zero_add] at htotal
    exact htotal.symm
  · refine List.flatMap_eq_nil_iff.mpr fun w hw => ?_
    have hw' : w.stepNames.Nodup := by
      rw [Program.walk, List.map_flatMap] at hnodup
      exact (List.nodup_flatMap.mp hnodup).1 w hw
    rw [repeatedNames_of_nodup hw', List.map_nil]

end Workflow
