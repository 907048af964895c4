import Mathlib.Data.List.Nodup
import Workflow.Proofs.Program.Numbering

/-!
# Steps at paths

A step inside steps has a path: the index of a step of the list, the index of a step directly inside
that one, and so on. Walking through steps meets the step at every path, each of them once, in the
lexicographic order of the paths.
-/

namespace Workflow

variable {α : Type}

/-- The step at a path. -/
def Step.at? : List (Step α) → List Nat → Option (Step α)
  | _, [] => none
  | steps, [i] => steps[i]?
  | steps, i :: j :: path => steps[i]?.bind fun step => Step.at? step.children (j :: path)

/-- What holds of no steps, and of a step in front of steps if it holds of those directly inside it
and of the others, holds of all steps. -/
theorem Step.children_induction {motive : List (Step α) → Prop} (nil : motive [])
    (cons : ∀ step rest, motive step.children → motive rest → motive (step :: rest))
    (steps : List (Step α)) : motive steps := by
  induction hn : (Step.walkAll steps).length using Nat.strong_induction_on generalizing steps with
  | _ n ih =>
    cases steps with
    | nil => exact nil
    | cons step rest =>
      rw [Step.walkAll, step.walk_eq_children, List.length_append, List.length_cons] at hn
      exact cons step rest (ih _ (by omega) _ rfl) (ih _ (by omega) _ rfl)

/-! ## Paths through a list -/

section

variable {step found : Step α} {rest : List (Step α)} {path : List Nat}

@[simp] theorem Step.at?_nil_path (steps : List (Step α)) : Step.at? steps [] = none := by
  rw [Step.at?]

theorem Step.at?_nil (path : List Nat) : Step.at? ([] : List (Step α)) path = none := by
  cases path with
  | nil => rw [Step.at?]
  | cons i path =>
    cases path with
    | nil => rw [Step.at?, List.getElem?_nil]
    | cons j path => rw [Step.at?, List.getElem?_nil, Option.bind_none]

theorem Step.at?_first : Step.at? (step :: rest) [0] = some step := by
  rw [Step.at?, List.getElem?_cons_zero]

/-- A longer path that starts at the first step goes on inside it. -/
theorem Step.at?_inside (hpath : path ≠ []) :
    Step.at? (step :: rest) (0 :: path) = Step.at? step.children path := by
  obtain ⟨j, path, rfl⟩ := List.exists_cons_of_ne_nil hpath
  rw [Step.at?, List.getElem?_cons_zero, Option.bind_some]

theorem Step.at?_behind (i : Nat) :
    Step.at? (step :: rest) ((i + 1) :: path) = Step.at? rest (i :: path) := by
  cases path with
  | nil => rw [Step.at?, Step.at?, List.getElem?_cons_succ]
  | cons j path => rw [Step.at?, Step.at?, List.getElem?_cons_succ]

/-- A step of a list that is not empty is the first one, inside the first one, or at a path through
the others. -/
theorem Step.at?_cons_eq_some_iff : Step.at? (step :: rest) path = some found ↔
    path = [0] ∧ found = step ∨
    (∃ inner, Step.at? step.children inner = some found ∧ 0 :: inner = path) ∨
    ∃ other, Step.at? rest other = some found ∧ other.modifyHead (· + 1) = path := by
  constructor
  · intro h
    cases path with
    | nil => cases h
    | cons i path =>
      cases i with
      | succ i =>
        rw [Step.at?_behind] at h
        exact .inr (.inr ⟨i :: path, h, rfl⟩)
      | zero =>
        by_cases hpath : path = []
        · subst hpath
          rw [Step.at?_first] at h
          cases h
          exact .inl ⟨rfl, rfl⟩
        · rw [Step.at?_inside hpath] at h
          exact .inr (.inl ⟨path, h, rfl⟩)
  · rintro (⟨rfl, rfl⟩ | ⟨inner, h, rfl⟩ | ⟨other, h, rfl⟩)
    · exact Step.at?_first
    · have hinner : inner ≠ [] := by
        rintro rfl
        cases h
      rwa [Step.at?_inside hinner]
    · cases other with
      | nil => cases h
      | cons i other =>
        rw [List.modifyHead_cons, Step.at?_behind]
        exact h

end

/-! ## The walk -/

theorem lex_modifyHead_succ {p q : List Nat} (h : List.Lex (· < ·) p q) :
    List.Lex (· < ·) (p.modifyHead (· + 1)) (q.modifyHead (· + 1)) := by
  cases h with
  | nil => exact .nil
  | cons h => exact .cons h
  | rel h => exact .rel (Nat.succ_lt_succ h)

theorem lex_zero_cons_modifyHead_succ {other : List Nat} (hother : other ≠ []) (path : List Nat) :
    List.Lex (· < ·) (0 :: path) (other.modifyHead (· + 1)) := by
  obtain ⟨i, other, rfl⟩ := List.exists_cons_of_ne_nil hother
  exact .rel (Nat.succ_pos i)

/-- The paths of steps are in order if those inside the first step are and those through the others
are. -/
theorem sorted_paths {inner others : List (List Nat)} (hnil : [] ∉ inner) (hnil' : [] ∉ others)
    (hinner : inner.Pairwise (List.Lex (· < ·))) (hothers : others.Pairwise (List.Lex (· < ·))) :
    ([0] :: (inner.map (0 :: ·) ++ others.map (List.modifyHead (· + 1)))).Pairwise
      (List.Lex (· < ·)) := by
  have hfirst {other : List Nat} (hother : other ∈ others) (path : List Nat) :
      List.Lex (· < ·) (0 :: path) (other.modifyHead (· + 1)) :=
    lex_zero_cons_modifyHead_succ (ne_of_mem_of_not_mem hother hnil') path
  refine List.pairwise_cons.mpr ⟨?_, List.pairwise_append.mpr ⟨?_, ?_, ?_⟩⟩
  · rw [List.forall_mem_append, List.forall_mem_map, List.forall_mem_map]
    refine ⟨fun path hpath => ?_, fun other hother => hfirst hother []⟩
    obtain ⟨i, path, rfl⟩ := List.exists_cons_of_ne_nil (ne_of_mem_of_not_mem hpath hnil)
    exact .cons .nil
  · exact hinner.map _ fun _ _ => .cons
  · exact hothers.map _ fun _ _ => lex_modifyHead_succ
  · rw [List.forall_mem_map]
    intro path _
    rw [List.forall_mem_map]
    exact fun other hother => hfirst hother path

/-- The walk visits the step at each path once, in the lexicographic order of the paths: its steps
can be listed with paths that are in order, and they are the steps at these paths. -/
theorem Step.exists_located (steps : List (Step α)) :
    ∃ located : List (List Nat × Step α), located.map Prod.snd = Step.walkAll steps ∧
      (located.map Prod.fst).Pairwise (List.Lex (· < ·)) ∧
      ∀ path step, (path, step) ∈ located ↔ Step.at? steps path = some step := by
  induction steps using Step.children_induction with
  | nil =>
    refine ⟨[], rfl, .nil, fun path step => ?_⟩
    rw [Step.at?_nil]
    exact iff_of_false List.not_mem_nil (Option.some_ne_none step).symm
  | cons step rest hinner hrest =>
    obtain ⟨inner, hwalk, hsorted, hat⟩ := hinner
    obtain ⟨others, hwalk', hsorted', hat'⟩ := hrest
    have hnil {located : List (List Nat × Step α)} {steps : List (Step α)}
        (hat : ∀ path step, (path, step) ∈ located ↔ Step.at? steps path = some step) :
        [] ∉ located.map Prod.fst := by
      intro hmem
      obtain ⟨⟨path, found⟩, hfound, rfl⟩ := List.mem_map.mp hmem
      cases (hat _ _).mp hfound
    -- paths into the first step start with 0, and those of the others are moved up by one
    refine ⟨([0], step) :: (inner.map (fun x => (0 :: x.1, x.2)) ++
      others.map (fun x => (x.1.modifyHead (· + 1), x.2))), ?_, ?_, fun path found => ?_⟩
    · rw [Step.walkAll, step.walk_eq_children, ← hwalk, ← hwalk']
      simp [Function.comp_def]
    · simpa [Function.comp_def] using sorted_paths (hnil hat) (hnil hat') hsorted hsorted'
    · rw [Step.at?_cons_eq_some_iff, List.mem_cons, List.mem_append, List.mem_map, List.mem_map]
      simp only [Prod.exists, Prod.mk.injEq, exists_eq_right_right, hat, hat']

/-- The walk goes through the steps at all paths. -/
theorem Step.mem_walkAll_iff {steps : List (Step α)} {step : Step α} :
    step ∈ Step.walkAll steps ↔ ∃ path, Step.at? steps path = some step := by
  obtain ⟨located, hwalk, _, hat⟩ := Step.exists_located steps
  simp only [← hwalk, List.mem_map, Prod.exists, exists_eq_right, hat]

/-- No label is met twice on the walk exactly if steps at different paths have different labels. -/
theorem Step.nodup_labels_iff {steps : List (Step α)} :
    ((Step.walkAll steps).map Step.label).Nodup ↔
      ∀ path path' step step', Step.at? steps path = some step → Step.at? steps path' = some step' →
        step.label = step'.label → path = path' := by
  obtain ⟨located, hwalk, hsorted, hat⟩ := Step.exists_located steps
  have hnodup : (located.map Prod.fst).Nodup := by
    refine hsorted.imp fun {p q} hlex => ?_
    rintro rfl
    exact List.lex_irrefl Nat.lt_irrefl p hlex
  rw [← hwalk, List.map_map, List.nodup_map_iff_inj_on hnodup.of_map]
  simp only [Prod.forall, Function.comp_apply, Prod.mk.injEq, hat]
  constructor
  · intro h path path' step step' hstep hstep' hlabel
    exact (h path step hstep path' step' hstep' hlabel).1
  · intro h path step hstep path' step' hstep' hlabel
    obtain rfl := h path path' step step' hstep hstep' hlabel
    exact ⟨rfl, Option.some.inj (hstep.symm.trans hstep')⟩

end Workflow
