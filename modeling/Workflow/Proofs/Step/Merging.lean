import Mathlib.Data.List.Chain
import Workflow.Step.Merge

/-!
# What merging keeps

Merging leaves no two assignments next to each other and keeps what a block does, piece by piece.
Steps that are apart already stay as they are, and it makes no difference to a list whether its
parts are merged before the whole is. So a loop from the front, in which each step goes into the last
one so far or behind it, merges as well.
-/

namespace Workflow.Step

variable {α : Type}

/-- Whether a step makes assignments. -/
def isAssign : Step α → Bool
  | .mk _ (.assign _) => true
  | _ => false

/-- No two neighbours make assignments. -/
def Separated (steps : List (Step α)) : Prop :=
  steps.IsChain fun first second => ¬ (first.isAssign ∧ second.isAssign)

/-- What a step does, piece by piece: each of its assignments, or else the step itself. -/
def pieces : Step α → List ((String × Expr) ⊕ Step α)
  | .mk _ (.assign xs) => xs.map .inl
  | step => [.inr step]

variable {step first : Step α} {rest steps others : List (Step α)} {label : α}
  {xs ys : List (String × Expr)}

theorem exists_assign_of_isAssign (h : step.isAssign = true) :
    ∃ label xs, step = .mk label (.assign xs) := by
  obtain ⟨label, action⟩ := step
  cases action with
  | assign xs => exact ⟨label, xs, rfl⟩
  | _ => cases h

theorem merge_cons : merge (step :: steps) = step.mergeOnto (merge steps) := rfl

/-- Steps behind others are merged first. -/
theorem merge_append_eq_foldr : merge (steps ++ rest) = steps.foldr mergeOnto (merge rest) :=
  List.foldr_append

/-! ## One step in front -/

theorem mergeOnto_nil : step.mergeOnto [] = [step] := by
  unfold mergeOnto
  split
  · rename_i heq
    cases heq
  · rfl

/-- Only an assignment goes into what is behind it, and only into an assignment. -/
theorem mergeOnto_of_not_isAssign (h : ¬ (step.isAssign ∧ first.isAssign)) :
    step.mergeOnto (first :: rest) = step :: first :: rest := by
  unfold mergeOnto
  split
  · rename_i heq
    cases heq
    exact absurd ⟨rfl, rfl⟩ h
  · rfl

/-- A step is put in front, or two assignments become one. -/
theorem mergeOnto_cases (step : Step α) (rest : List (Step α)) :
    (step.mergeOnto rest = step :: rest ∧
      ∀ first ∈ rest.head?, ¬ (step.isAssign ∧ first.isAssign)) ∨
    ∃ label l xs ys others, step = .mk label (.assign xs) ∧ rest = .mk l (.assign ys) :: others ∧
      step.mergeOnto rest = .mk label (.assign (xs ++ ys)) :: others := by
  cases rest with
  | nil => exact .inl ⟨mergeOnto_nil, by simp⟩
  | cons first others =>
    by_cases h : step.isAssign ∧ first.isAssign
    · obtain ⟨label, xs, rfl⟩ := exists_assign_of_isAssign h.1
      obtain ⟨l, ys, rfl⟩ := exists_assign_of_isAssign h.2
      exact .inr ⟨label, l, xs, ys, others, rfl, rfl, rfl⟩
    · exact .inl ⟨mergeOnto_of_not_isAssign h, by simpa using h⟩

theorem separated_mergeOnto (h : Separated rest) : Separated (step.mergeOnto rest) := by
  rcases mergeOnto_cases step rest with ⟨heq, hhead⟩ | ⟨label, l, xs, ys, others, rfl, rfl, heq⟩
  · rw [heq]
    exact List.isChain_cons.mpr ⟨hhead, h⟩
  · rw [heq]
    exact List.isChain_cons.mpr (List.isChain_cons.mp h)

theorem pieces_mergeOnto :
    (step.mergeOnto rest).flatMap pieces = (step :: rest).flatMap pieces := by
  rcases mergeOnto_cases step rest with ⟨heq, _⟩ | ⟨label, l, xs, ys, others, rfl, rfl, heq⟩
  · rw [heq]
  · rw [heq]
    simp [pieces]

/-- Two assignments may be merged before or after what is behind them. -/
theorem mergeOnto_assign_append {l : α} :
    (Step.mk label (.assign (xs ++ ys))).mergeOnto rest =
      (Step.mk label (.assign xs)).mergeOnto ((Step.mk l (.assign ys)).mergeOnto rest) := by
  rcases mergeOnto_cases (.mk l (.assign ys)) rest with
    ⟨heq, hhead⟩ | ⟨l', k, ys', zs, others, hstep, rfl, heq⟩
  · rw [heq]
    cases rest with
    | nil => exact mergeOnto_nil
    | cons first others =>
      have hfirst : ¬ ((Step.mk label (.assign (xs ++ ys))).isAssign ∧ first.isAssign) :=
        hhead first rfl
      exact mergeOnto_of_not_isAssign hfirst
  · cases hstep
    rw [heq]
    show Step.mk label (.assign (xs ++ ys ++ zs)) :: others =
      .mk label (.assign (xs ++ (ys ++ zs))) :: others
    rw [List.append_assoc]

/-- A step may be put in front of others before more follow. -/
theorem merge_mergeOnto_append :
    merge (step.mergeOnto rest ++ others) = merge (step :: rest ++ others) := by
  rcases mergeOnto_cases step rest with ⟨heq, _⟩ | ⟨label, l, xs, ys, more, rfl, rfl, heq⟩
  · rw [heq]
  · rw [heq]
    exact mergeOnto_assign_append

/-! ## Merging -/

theorem separated_merge (steps : List (Step α)) : Separated (merge steps) := by
  induction steps with
  | nil => exact .nil
  | cons step rest ih => exact separated_mergeOnto ih

theorem pieces_merge (steps : List (Step α)) :
    (merge steps).flatMap pieces = steps.flatMap pieces := by
  induction steps with
  | nil => rfl
  | cons step rest ih => rw [merge_cons, pieces_mergeOnto, List.flatMap_cons, ih, List.flatMap_cons]

/-- Steps that are apart are merged already. -/
theorem merge_of_separated (h : Separated steps) : merge steps = steps := by
  induction steps with
  | nil => rfl
  | cons step rest ih =>
    obtain ⟨hhead, hrest⟩ := List.isChain_cons.mp h
    rw [merge_cons, ih hrest]
    cases rest with
    | nil => exact mergeOnto_nil
    | cons first others => exact mergeOnto_of_not_isAssign (hhead first rfl)

theorem merge_merge (steps : List (Step α)) : merge (merge steps) = merge steps :=
  merge_of_separated (separated_merge steps)

theorem merge_append_merge (steps rest : List (Step α)) :
    merge (steps ++ merge rest) = merge (steps ++ rest) := by
  rw [merge_append_eq_foldr, merge_merge, ← merge_append_eq_foldr]

theorem merge_merge_append (steps rest : List (Step α)) :
    merge (merge steps ++ rest) = merge (steps ++ rest) := by
  induction steps with
  | nil => rfl
  | cons step others ih =>
    rw [merge_cons, merge_mergeOnto_append, List.cons_append, List.cons_append, merge_cons,
      merge_cons, ih]

/-! ## The loop from the front -/

/-- One turn of the loop: assignments are added to the last step so far if it makes assignments, and
any other step is put behind. -/
def mergeInto (merged : List (Step α)) (step : Step α) : List (Step α) :=
  match merged.getLast?, step with
  | some (.mk label (.assign xs)), .mk _ (.assign ys) =>
    merged.dropLast ++ [.mk label (.assign (xs ++ ys))]
  | _, step => merged ++ [step]

theorem mergeInto_nil : mergeInto [] step = [step] := by
  unfold mergeInto
  split
  · rename_i heq
    cases heq
  · rfl

theorem mergeInto_concat_of_not_isAssign (h : ¬ (first.isAssign ∧ step.isAssign)) :
    mergeInto (rest ++ [first]) step = rest ++ [first] ++ [step] := by
  unfold mergeInto
  split
  · rename_i heq
    cases (List.getLast?_concat.symm.trans heq)
    exact absurd ⟨rfl, rfl⟩ h
  · rfl

theorem mergeInto_concat_assign {l : α} :
    mergeInto (rest ++ [.mk label (.assign xs)]) (.mk l (.assign ys)) =
      rest ++ [.mk label (.assign (xs ++ ys))] := by
  unfold mergeInto
  rw [List.getLast?_concat, List.dropLast_concat]

theorem separated_concat : Separated (rest ++ [first]) ↔
    Separated rest ∧ ∀ last ∈ rest.getLast?, ¬ (last.isAssign ∧ first.isAssign) := by
  simp [Separated, List.isChain_append]

/-- A turn merges one step more with what is merged. -/
theorem mergeInto_eq_merge (h : Separated steps) (step : Step α) :
    mergeInto steps step = merge (steps ++ [step]) := by
  rcases steps.eq_nil_or_concat' with rfl | ⟨front, last, rfl⟩
  · rw [mergeInto_nil]
    exact mergeOnto_nil.symm
  · by_cases hboth : last.isAssign ∧ step.isAssign
    · obtain ⟨label, xs, rfl⟩ := exists_assign_of_isAssign hboth.1
      obtain ⟨l, ys, rfl⟩ := exists_assign_of_isAssign hboth.2
      obtain ⟨hfront, hlast⟩ := separated_concat.mp h
      have hseparated : Separated (front ++ [.mk label (.assign (xs ++ ys))]) :=
        separated_concat.mpr ⟨hfront, hlast⟩
      calc mergeInto (front ++ [.mk label (.assign xs)]) (.mk l (.assign ys))
          = front ++ [.mk label (.assign (xs ++ ys))] := mergeInto_concat_assign
        _ = merge (front ++ [.mk label (.assign (xs ++ ys))]) :=
          (merge_of_separated hseparated).symm
        _ = merge (front ++ [.mk label (.assign xs), .mk l (.assign ys)]) := by
          rw [merge_append_eq_foldr, merge_append_eq_foldr]
          rfl
        _ = merge (front ++ [.mk label (.assign xs)] ++ [.mk l (.assign ys)]) := by
          rw [List.append_assoc]
          rfl
    · rw [mergeInto_concat_of_not_isAssign hboth]
      refine (merge_of_separated (separated_concat.mpr ⟨h, ?_⟩)).symm
      simpa using hboth

/-- From the merge of some steps on, the loop reaches the merge of all. -/
theorem foldl_mergeInto_merge (steps rest : List (Step α)) :
    rest.foldl mergeInto (merge steps) = merge (steps ++ rest) := by
  induction rest generalizing steps with
  | nil => rw [List.foldl_nil, List.append_nil]
  | cons step others ih =>
    rw [List.foldl_cons, mergeInto_eq_merge (separated_merge steps), merge_merge_append, ih,
      List.append_assoc, List.singleton_append]

/-- The loop merges the steps. -/
theorem foldl_mergeInto (steps : List (Step α)) : steps.foldl mergeInto [] = merge steps :=
  foldl_mergeInto_merge [] steps

end Workflow.Step
