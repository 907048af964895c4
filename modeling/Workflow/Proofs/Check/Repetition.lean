import Mathlib.Data.List.Perm.Subperm
import Workflow.Check.Basic
import Workflow.Program.Naming
import Workflow.Proofs.Fields
import Workflow.Proofs.Step.Path

/-!
# Repeated names

Names stand at places: at the indices of a list, or at the paths of steps. A name is repeated if it
stands at two places, also where equal steps stand at both. The checks of names report each repeated
name once and no other name, in the order of the places where the names come first. Steps are
compared inside their own subworkflow only, and there at all depths. A loop over the names that
counts each of them and lists it when it is new finds the same names.
-/

namespace Workflow

/-! ## Names at places -/

section

variable {ι : Type}

/-- Names are the ones that stand at more than one place: each of them once, and one in front of
another if it has a place before all places of the other. -/
structure Repeats (name? : ι → Option String) (before : ι → ι → Prop) (names : List String) :
    Prop where
  distinct : names.Nodup
  mem_iff : ∀ name, name ∈ names ↔ ∃ i j, i ≠ j ∧ name? i = some name ∧ name? j = some name
  ordered : names.Pairwise fun a b => ∃ i, name? i = some a ∧ ∀ j, name? j = some b → before i j

/-- All places that have names are visited, one after the other. -/
structure Visits (name? : ι → Option String) (before : ι → ι → Prop)
    (visited : List (ι × String)) : Prop where
  sorted : (visited.map Prod.fst).Pairwise before
  mem_iff : ∀ i name, (i, name) ∈ visited ↔ name? i = some name

variable {name? : ι → Option String} {before : ι → ι → Prop} {visited : List (ι × String)}
  {names names' : List String} {a b name : String}

/-- There is one way to list the names that are repeated. -/
theorem Repeats.unique (h : Repeats name? before names) (h' : Repeats name? before names')
    (hasymm : ∀ i j, before i j → ¬before j i) : names = names' := by
  have hperm : names.Perm names' := (List.perm_ext_iff_of_nodup h.distinct h'.distinct).mpr
    fun name => (h.mem_iff name).trans (h'.mem_iff name).symm
  refine hperm.eq_of_pairwise ?_ h.ordered h'.ordered
  rintro a b _ _ ⟨i, hi, hbefore⟩ ⟨j, hj, hbefore'⟩
  exact absurd (hbefore' i hi) (hasymm i j (hbefore j hj))

/-- A name is met more than once exactly if it stands at two places. -/
theorem Visits.one_lt_count_iff (h : Visits name? before visited) (hirrefl : ∀ i, ¬before i i) :
    1 < (visited.map Prod.snd).count name ↔
      ∃ i j, i ≠ j ∧ name? i = some name ∧ name? j = some name := by
  constructor
  · intro hcount
    obtain ⟨pair, hsub, hpair⟩ :=
      List.sublist_map_iff.mp (List.replicate_sublist_iff.mpr (Nat.succ_le_of_lt hcount))
    obtain ⟨⟨i, _⟩, rest, rfl, rfl, hrest⟩ := List.map_eq_cons_iff.mp hpair.symm
    obtain ⟨⟨j, _⟩, last, rfl, rfl, hlast⟩ := List.map_eq_cons_iff.mp hrest
    obtain rfl := List.map_eq_nil_iff.mp hlast
    -- the two visits are one behind the other
    have hij : before i j := List.pairwise_pair.mp (h.sorted.sublist (hsub.map Prod.fst))
    refine ⟨i, j, ?_, (h.mem_iff _ _).mp (hsub.subset (by simp)),
      (h.mem_iff _ _).mp (hsub.subset (by simp))⟩
    rintro rfl
    exact hirrefl i hij
  · rintro ⟨i, j, hne, hi, hj⟩
    have hnodup : [(i, name), (j, name)].Nodup := by simpa using hne
    have hsub : [(i, name), (j, name)] ⊆ visited := by
      simpa using ⟨(h.mem_iff i name).mpr hi, (h.mem_iff j name).mpr hj⟩
    obtain ⟨pair, hperm, hpair⟩ := hnodup.subperm hsub
    calc 1 < ([(i, name), (j, name)].map Prod.snd).count name := by simp
      _ = (pair.map Prod.snd).count name := ((hperm.map Prod.snd).count_eq name).symm
      _ ≤ (visited.map Prod.snd).count name := (hpair.map Prod.snd).count_le name

/-- A name that is met first before another is met has a place before all places of the other. -/
theorem Visits.exists_before (h : Visits name? before visited)
    (ha : a ∈ visited.map Prod.snd)
    (hlt : (visited.map Prod.snd).idxOf a < (visited.map Prod.snd).idxOf b) :
    ∃ i, name? i = some a ∧ ∀ j, name? j = some b → before i j := by
  obtain ⟨front, back, hsplit, hfront⟩ := List.eq_append_cons_of_mem ha
  have hidx : (front ++ a :: back).idxOf a = front.length := by
    rw [List.idxOf_append_of_notMem hfront, List.idxOf_cons_self, Nat.add_zero]
  rw [hsplit, hidx] at hlt
  have hb : b ∉ front := by
    intro hmem
    rw [List.idxOf_append_of_mem hmem] at hlt
    exact Nat.lt_asymm hlt (List.idxOf_lt_length_of_mem hmem)
  have hne : b ≠ a := by
    rintro rfl
    exact Nat.lt_irrefl _ (hidx ▸ hlt)
  obtain ⟨early, late, rfl, rfl, hlate⟩ := List.map_eq_append_iff.mp hsplit
  obtain ⟨⟨i, _⟩, late, rfl, rfl, rfl⟩ := List.map_eq_cons_iff.mp hlate
  refine ⟨i, (h.mem_iff _ _).mp (by simp), fun j hj => ?_⟩
  -- all visits of the other name are behind the first one of this name
  have hj : (j, b) ∈ late := by
    rcases List.mem_append.mp ((h.mem_iff j b).mpr hj) with hearly | hlate
    · exact absurd (List.mem_map_of_mem hearly) hb
    · exact (List.mem_cons.mp hlate).resolve_left fun heq => hne (congrArg Prod.snd heq)
  have hsorted := h.sorted
  rw [List.map_append, List.map_cons] at hsorted
  exact List.rel_of_pairwise_cons (List.pairwise_append.mp hsorted).2.1 (List.mem_map_of_mem hj)

theorem Visits.repeats (h : Visits name? before visited) (hirrefl : ∀ i, ¬before i i) :
    Repeats name? before (repeatedNames (visited.map Prod.snd)) := by
  have hordered := Fields.pairwise_idxOf_eraseDups (visited.map Prod.snd)
  refine ⟨.filter _ (hordered.imp fun hlt heq => ?_), fun name => ?_, .filter _ ?_⟩
  · rw [heq] at hlt
    exact Nat.lt_irrefl _ hlt
  · rw [← h.one_lt_count_iff hirrefl, repeatedNames, List.mem_filter, List.mem_eraseDups,
      decide_eq_true_iff]
    exact and_iff_right_of_imp fun hcount => List.count_pos_iff.mp (Nat.lt_of_succ_lt hcount)
  · exact hordered.imp_of_mem fun ha _ => h.exists_before (List.mem_eraseDups.mp ha)

/-- The names that are repeated are those that a visit to all places finds. -/
theorem Visits.repeats_iff (h : Visits name? before visited)
    (hasymm : ∀ i j, before i j → ¬before j i) :
    Repeats name? before names ↔ names = repeatedNames (visited.map Prod.snd) := by
  have hrepeats := h.repeats fun i hi => hasymm i i hi hi
  constructor
  · exact fun hnames => hnames.unique hrepeats hasymm
  · rintro rfl
    exact hrepeats

end

/-! ## Lists -/

theorem visits_indices (names : List String) :
    Visits (fun i : Nat => names[i]?) (· < ·) (names.zipIdx.map Prod.swap) := by
  constructor
  · have hindices : (names.zipIdx.map Prod.swap).map Prod.fst = List.range' 0 names.length := by
      rw [List.map_map]
      exact List.zipIdx_map_snd 0 names
    rw [hindices]
    exact List.pairwise_lt_range' 1
  · intro i name
    simp [List.mem_zipIdx_iff_getElem?]

/-- The repeated names of a list are those that stand at two of its indices. -/
theorem repeats_getElem?_iff {names result : List String} :
    Repeats (fun i : Nat => names[i]?) (· < ·) result ↔ result = repeatedNames names := by
  have hnames : (names.zipIdx.map Prod.swap).map Prod.snd = names := by
    rw [List.map_map]
    exact List.zipIdx_map_fst 0 names
  rw [(visits_indices names).repeats_iff fun _ _ => Nat.lt_asymm, hnames]

/-! ## The loop over names -/

/-- What the loop keeps: how often each name came, and the names that came, in order. -/
structure Tally where
  counts : Counters
  order : List String

namespace Tally

def empty : Tally := ⟨.zero, []⟩

/-- One turn of the loop: a name that did not come before is listed, and every name is counted. -/
def add (t : Tally) (name : String) : Tally where
  counts := t.counts.bump name
  order := if t.counts.get name = 0 then t.order ++ [name] else t.order

/-- The names that came more than once. -/
def repeated (t : Tally) : List String := t.order.filter fun name => 1 < t.counts.get name

/-- What was kept of names that came. -/
structure Of (t : Tally) (names : List String) : Prop where
  counts : ∀ name, t.counts.get name = names.count name
  order : t.order = names.eraseDups

theorem of_empty : empty.Of [] := ⟨fun _ => rfl, rfl⟩

variable {t : Tally} {names : List String}

theorem Of.add (h : t.Of names) (name : String) : (t.add name).Of (names ++ [name]) := by
  constructor
  · intro other
    show (t.counts.bump name).get other = _
    rw [Counters.get_bump, h.counts, h.counts, List.count_append, List.count_singleton]
    by_cases hname : other = name
    · simp [hname]
    · simp [hname, Ne.symm hname]
  · show (if t.counts.get name = 0 then t.order ++ [name] else t.order) = _
    rw [h.counts, h.order, Fields.eraseDups_concat]
    by_cases hmem : name ∈ names
    · rw [if_pos hmem, if_neg (List.count_pos_iff.mpr hmem).ne']
    · rw [if_neg hmem, if_pos (List.count_eq_zero.mpr hmem)]

theorem Of.foldl (h : t.Of names) (rest : List String) :
    (rest.foldl Tally.add t).Of (names ++ rest) := by
  induction rest generalizing t names with
  | nil =>
    rw [List.append_nil]
    exact h
  | cons name others ih =>
    have hrest := ih (h.add name)
    rw [List.append_assoc] at hrest
    exact hrest

theorem Of.repeated_eq (h : t.Of names) : t.repeated = repeatedNames names := by
  rw [repeated, repeatedNames, h.order]
  simp only [h.counts]

end Tally

/-- The loop finds the repeated names. -/
theorem foldl_tally_repeated (names : List String) :
    (names.foldl Tally.add .empty).repeated = repeatedNames names :=
  (Tally.of_empty.foldl names).repeated_eq

/-! ## Steps and subworkflows -/

/-- Names are the ones that several steps of a subworkflow have, at any depth, in the lexicographic
order of the paths where they come first. -/
def Subworkflow.RepeatsSteps (w : Subworkflow String) (names : List String) : Prop :=
  Repeats (fun path => (Step.at? w.steps path).map Step.label) (List.Lex (· < ·)) names

/-- Subworkflow by subworkflow, there is an issue for each name that steps of it repeat. -/
inductive Program.ReportsSteps : Program String → List Issue → Prop where
  | nil : ReportsSteps [] []
  | cons {w : Subworkflow String} {rest : Program String} {names : List String}
      {issues : List Issue} (hfirst : w.RepeatsSteps names) (hrest : ReportsSteps rest issues) :
      ReportsSteps (w :: rest) (names.map (.repeatedStep · w.name) ++ issues)

/-- For each name that subworkflows repeat there is an issue. -/
def Program.ReportsSubworkflows (program : Program String) (issues : List Issue) : Prop :=
  ∃ names, Repeats (fun i : Nat => program[i]?.map (·.name)) (· < ·) names ∧
    issues = names.map .repeatedSubworkflow

theorem Subworkflow.repeatsSteps_iff {w : Subworkflow String} {names : List String} :
    w.RepeatsSteps names ↔ names = repeatedNames w.stepNames := by
  obtain ⟨located, hwalk, hsorted, hat⟩ := Step.exists_located w.steps
  have hvisits : Visits (fun path => (Step.at? w.steps path).map Step.label) (List.Lex (· < ·))
      (located.map fun x => (x.1, x.2.label)) := by
    constructor
    · rwa [List.map_map]
    · intro path name
      simp [hat]
  have hnames : (located.map fun x => (x.1, x.2.label)).map Prod.snd = w.stepNames := by
    rw [stepNames, walk, ← hwalk, List.map_map, List.map_map]
    rfl
  rw [← hnames]
  exact hvisits.repeats_iff fun _ _ => List.lex_asymm Nat.lt_asymm

theorem Program.reportsSteps_iff {program : Program String} {issues : List Issue} :
    program.ReportsSteps issues ↔ issues = Check.repeatedSteps program := by
  constructor
  · intro h
    induction h with
    | nil => rfl
    | cons hfirst _ ih =>
      rw [ih, Subworkflow.repeatsSteps_iff.mp hfirst]
      rfl
  · rintro rfl
    induction program with
    | nil => exact .nil
    | cons w rest ih => exact .cons (Subworkflow.repeatsSteps_iff.mpr rfl) ih

theorem Program.reportsSubworkflows_iff {program : Program String} {issues : List Issue} :
    program.ReportsSubworkflows issues ↔ issues = Check.repeatedSubworkflows program := by
  simp only [ReportsSubworkflows, ← List.getElem?_map, repeats_getElem?_iff, exists_eq_left]
  rfl

/-- Paths in lexicographic order and the walk give the same order of names. -/
theorem Subworkflow.repeatsSteps_iff_walk {w : Subworkflow String} {names : List String} :
    w.RepeatsSteps names ↔ Repeats (fun i : Nat => w.walk[i]?.map Step.label) (· < ·) names := by
  simp only [repeatsSteps_iff, ← List.getElem?_map, repeats_getElem?_iff]
  rfl

/-- Repeated names are reported exactly. The repeated names of a list are the names that stand in it
more than once, each once and in the order in which they come first. The check of step names reports
the names that are repeated at the paths of each subworkflow, one subworkflow after the other and
none with another, and the order of the paths is the one of the walk. The check of subworkflow names
reports the names that are repeated in the program. -/
theorem repeated_names_reported :
    (∀ names result : List String, repeatedNames names = result ↔
      Repeats (fun i : Nat => names[i]?) (· < ·) result) ∧
    (∀ (program : Program String) (issues : List Issue),
      Check.stepNames.run program = issues ↔ program.ReportsSteps issues) ∧
    (∀ (w : Subworkflow String) (names : List String), w.RepeatsSteps names ↔
      Repeats (fun i : Nat => w.walk[i]?.map Step.label) (· < ·) names) ∧
    ∀ (program : Program String) (issues : List Issue),
      Check.subworkflowNames.run program = issues ↔ program.ReportsSubworkflows issues := by
  refine ⟨fun names result => ?_, fun program issues => ?_, fun w names => ?_,
    fun program issues => ?_⟩
  · rw [repeats_getElem?_iff, eq_comm]
  · rw [Program.reportsSteps_iff, Check.run, eq_comm]
  · exact Subworkflow.repeatsSteps_iff_walk
  · rw [Program.reportsSubworkflows_iff, Check.run, eq_comm]

-- A step that comes again inside another one is not hidden by being the same, and one of another
-- subworkflow does not count.
example : Check.stepNames.run
    [⟨"a", [], [.mk "next1" (.next "end"), .mk "steps1" (.steps [.mk "next1" (.next "end")])]⟩,
      ⟨"b", [], [.mk "next1" (.next "end")]⟩] = [.repeatedStep "next1" "a"] := by
  decide

end Workflow
