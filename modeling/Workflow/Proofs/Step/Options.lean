import Workflow.Proofs.Build.Checks
import Workflow.Proofs.Expr.Shapes

/-!
# Options by their shape

Options are accepted by what is given under each name, and not by the order in which it is given.
What the options of a parallel step and a retry policy hold is read off the arguments without
running anything: under which names there is an argument, and which value its shape has.
-/

namespace Workflow

/-! ## Arguments under names -/

namespace NamedArgument

variable {α : Type} {args args' : List NamedArgument} {name : String} {shape : Expr → α → Prop}

/-- A value is given under a name: there is an argument of the name whose shape has the value. -/
def Provides (args : List NamedArgument) (name : String) (shape : Expr → α → Prop) (a : α) : Prop :=
  ∃ arg ∈ args, arg.name = name ∧ shape arg.value a

theorem provides_perm (h : args.Perm args') {a : α} :
    Provides args name shape a ↔ Provides args' name shape a := by
  simp only [Provides, h.mem_iff]

theorem provides_cons_of_ne {arg : NamedArgument} (h : arg.name ≠ name) {a : α} :
    Provides (arg :: args) name shape a ↔ Provides args name shape a := by
  simp [Provides, h]

theorem provides_cons_of_eq {arg : NamedArgument} (h : arg.name = name)
    (hrest : name ∉ args.map (·.name)) {a : α} :
    Provides (arg :: args) name shape a ↔ shape arg.value a := by
  constructor
  · rintro ⟨other, hother, hname, hshape⟩
    rcases List.mem_cons.mp hother with rfl | hother
    · exact hshape
    · exact absurd (List.mem_map.mpr ⟨other, hother, hname⟩) hrest
  · exact fun hshape => ⟨arg, List.mem_cons_self, h, hshape⟩

theorem distinct_eq_ok_iff {owner : OptionOwner} :
    distinct owner args = .ok () ↔ (args.map (·.name)).Nodup := by
  have hiff : repeated? [] args = none ↔ _ := repeated?_eq_none_iff
  rw [distinct]
  split
  · rename_i arg hrepeated
    refine iff_of_false (by simp) fun hnodup => ?_
    rw [hiff.mpr ⟨fun _ _ => List.not_mem_nil, hnodup⟩] at hrepeated
    cases hrepeated
  · rename_i hnone
    exact iff_of_true rfl (hiff.mp hnone).2

end NamedArgument

open NamedArgument

/-! ## Parallel steps -/

namespace ParallelOptions

variable {options start result : ParallelOptions} {arg : NamedArgument}
  {args args' : List NamedArgument}

/-- An argument has the name of an option and a value of its shape. -/
def IsOption (arg : NamedArgument) : Prop :=
  arg.name = "shared" ∧ (∃ names, arg.value.IsStringList names) ∨
  arg.name = "concurrency_limit" ∧ (∃ limit : Int64, arg.value.IsNumber (.int limit)) ∨
  arg.name = "exception_policy" ∧ arg.value.IsString "continueAll"

/-- Arguments are options, none of them given twice. -/
def WellGiven (args : List NamedArgument) : Prop :=
  (args.map (·.name)).Nodup ∧ ∀ arg ∈ args, IsOption arg

/-- Options hold what arguments give, and nothing that they do not give. -/
structure Holds (options : ParallelOptions) (args : List NamedArgument) : Prop where
  shared : ∀ names, options.shared = some names ↔ Provides args "shared" Expr.IsStringList names
  concurrencyLimit : ∀ limit, options.concurrencyLimit = some limit ↔
    Provides args "concurrency_limit" (fun e n => e.IsNumber (.int n)) limit
  exceptionPolicy : ∀ policy, options.exceptionPolicy = some policy ↔
    Provides args "exception_policy" Expr.IsString policy

/-- One more option. -/
theorem set_eq_ok_iff : options.set arg = .ok result ↔
    (arg.name = "shared" ∧ ∃ names, arg.value.IsStringList names ∧
      result = ⟨some names, options.concurrencyLimit, options.exceptionPolicy⟩) ∨
    (arg.name = "concurrency_limit" ∧ ∃ limit : Int64, arg.value.IsNumber (.int limit) ∧
      result = ⟨options.shared, some limit, options.exceptionPolicy⟩) ∨
    (arg.name = "exception_policy" ∧ arg.value.IsString "continueAll" ∧
      result = ⟨options.shared, options.concurrencyLimit, some "continueAll"⟩) := by
  simp only [← sharedNames?_eq_some_iff, ← limit?_eq_some_iff]
  unfold set
  split
  · rename_i hname
    simp only [hname, true_and, String.reduceEq, false_and, or_false]
    cases sharedNames? arg.value <;> simp [eq_comm]
  · split
    · rename_i hname
      simp only [hname, true_and, String.reduceEq, false_and, or_false, false_or]
      cases limit? arg.value <;> simp [eq_comm]
    · split
      · rename_i hname
        simp only [hname, true_and, String.reduceEq, false_and, false_or]
        split
        · rename_i policy hpolicy
          obtain ⟨rfl, hstring⟩ := policy?_eq_some_iff.mp hpolicy
          simp [hstring, eq_comm]
        · rename_i hpolicy
          refine iff_of_false (by simp) fun h => ?_
          rw [policy?_eq_some_iff.mpr ⟨rfl, h.1⟩] at hpolicy
          cases hpolicy
      · simp_all

/-- A field of the options follows the arguments of one name. -/
structure Tracks {α : Type} (field : ParallelOptions → Option α) (name : String)
    (shape : Expr → α → Prop) : Prop where
  given : ∀ {options result arg}, set options arg = .ok result → arg.name = name →
    ∃ a, field result = some a ∧ ∀ b, shape arg.value b ↔ a = b
  kept : ∀ {options result arg}, set options arg = .ok result → arg.name ≠ name →
    field result = field options

/-- After a run over arguments with different names, a field holds what is given under its name,
and what it held before if nothing is. -/
theorem Tracks.run {α : Type} {field : ParallelOptions → Option α} {name : String}
    {shape : Expr → α → Prop} (h : Tracks field name shape) (hnodup : (args.map (·.name)).Nodup)
    (hrun : args.foldlM set start = .ok result) (a : α) : field result = some a ↔
      Provides args name shape a ∨ field start = some a ∧ name ∉ args.map (·.name) := by
  induction args generalizing start with
  | nil =>
    cases hrun
    simp [Provides]
  | cons arg rest ih =>
    rw [List.foldlM_cons] at hrun
    obtain ⟨next, hset, hrun⟩ := bind_eq_ok.mp hrun
    rw [List.map_cons, List.nodup_cons] at hnodup
    rw [ih hnodup.2 hrun, List.map_cons, List.mem_cons, not_or]
    by_cases hname : arg.name = name
    -- names differ, so that nothing behind this argument changes the field again
    · subst hname
      obtain ⟨b, hb, hshape⟩ := h.given hset rfl
      have hnone : ¬ Provides rest arg.name shape a := by
        rintro ⟨other, hother, hsame, -⟩
        exact hnodup.1 (List.mem_map.mpr ⟨other, hother, hsame⟩)
      rw [provides_cons_of_eq rfl hnodup.1, hshape, hb]
      simp [hnone, hnodup.1]
    · rw [provides_cons_of_ne hname, h.kept hset hname]
      simp [Ne.symm hname]

theorem tracks_shared : Tracks ParallelOptions.shared "shared" Expr.IsStringList where
  given := by
    intro options result arg hset hname
    rcases set_eq_ok_iff.mp hset with ⟨-, names, hshape, rfl⟩ | ⟨h, -⟩ | ⟨h, -⟩
    · refine ⟨names, rfl, fun other => ?_⟩
      rw [← sharedNames?_eq_some_iff, sharedNames?_eq_some_iff.mpr hshape, Option.some.injEq]
    · simp [hname] at h
    · simp [hname] at h
  kept := by
    intro options result arg hset hname
    rcases set_eq_ok_iff.mp hset with ⟨h, -⟩ | ⟨-, _, -, rfl⟩ | ⟨-, -, rfl⟩
    · exact absurd h hname
    · rfl
    · rfl

theorem tracks_concurrencyLimit : Tracks ParallelOptions.concurrencyLimit "concurrency_limit"
    fun e n => e.IsNumber (.int n) where
  given := by
    intro options result arg hset hname
    rcases set_eq_ok_iff.mp hset with ⟨h, -⟩ | ⟨-, limit, hshape, rfl⟩ | ⟨h, -⟩
    · simp [hname] at h
    · refine ⟨limit, rfl, fun other => ?_⟩
      rw [← limit?_eq_some_iff, limit?_eq_some_iff.mpr hshape, Option.some.injEq]
    · simp [hname] at h
  kept := by
    intro options result arg hset hname
    rcases set_eq_ok_iff.mp hset with ⟨-, _, -, rfl⟩ | ⟨h, -⟩ | ⟨-, -, rfl⟩
    · rfl
    · exact absurd h hname
    · rfl

theorem tracks_exceptionPolicy :
    Tracks ParallelOptions.exceptionPolicy "exception_policy" Expr.IsString where
  given := by
    intro options result arg hset hname
    rcases set_eq_ok_iff.mp hset with ⟨h, -⟩ | ⟨h, -⟩ | ⟨-, hshape, rfl⟩
    · simp [hname] at h
    · simp [hname] at h
    · refine ⟨"continueAll", rfl, fun other => ?_⟩
      rw [← Expr.literal?_eq_string_iff, Expr.literal?_eq_string_iff.mpr hshape, Option.some.injEq,
        Document.string.injEq]
  kept := by
    intro options result arg hset hname
    rcases set_eq_ok_iff.mp hset with ⟨-, _, -, rfl⟩ | ⟨-, _, -, rfl⟩ | ⟨h, -⟩
    · rfl
    · rfl
    · exact absurd h hname

theorem exists_set_iff : (∃ result, options.set arg = .ok result) ↔ IsOption arg := by
  simp only [set_eq_ok_iff, IsOption]
  constructor
  · rintro ⟨_, ⟨hname, names, h, -⟩ | ⟨hname, limit, h, -⟩ | ⟨hname, h, -⟩⟩
    · exact .inl ⟨hname, names, h⟩
    · exact .inr (.inl ⟨hname, limit, h⟩)
    · exact .inr (.inr ⟨hname, h⟩)
  · rintro (⟨hname, names, h⟩ | ⟨hname, limit, h⟩ | ⟨hname, h⟩)
    · exact ⟨_, .inl ⟨hname, names, h, rfl⟩⟩
    · exact ⟨_, .inr (.inl ⟨hname, limit, h, rfl⟩)⟩
    · exact ⟨_, .inr (.inr ⟨hname, h, rfl⟩)⟩

/-- A run gets to its end exactly if every argument is an option. -/
theorem exists_run_iff :
    (∃ result, args.foldlM set start = .ok result) ↔ ∀ arg ∈ args, IsOption arg := by
  induction args generalizing start with
  | nil => exact iff_of_true ⟨start, rfl⟩ (List.forall_mem_nil _)
  | cons arg rest ih =>
    simp only [List.foldlM_cons, bind_eq_ok, List.forall_mem_cons]
    constructor
    · rintro ⟨result, next, hset, hrun⟩
      exact ⟨exists_set_iff.mp ⟨next, hset⟩, ih.mp ⟨result, hrun⟩⟩
    · rintro ⟨harg, hrest⟩
      obtain ⟨next, hset⟩ := exists_set_iff.mpr harg
      obtain ⟨result, hrun⟩ := ih.mpr hrest
      exact ⟨result, next, hset, hrun⟩

theorem ofArguments_eq_ok_iff : ofArguments args = .ok options ↔
    (args.map (·.name)).Nodup ∧ args.foldlM set .empty = .ok options := by
  rw [ofArguments, bind_eq_ok]
  constructor
  · rintro ⟨_, hdistinct, hrun⟩
    exact ⟨distinct_eq_ok_iff.mp hdistinct, hrun⟩
  · rintro ⟨hnodup, hrun⟩
    exact ⟨(), distinct_eq_ok_iff.mpr hnodup, hrun⟩

theorem exists_ofArguments_iff : (∃ options, ofArguments args = .ok options) ↔ WellGiven args := by
  simp only [ofArguments_eq_ok_iff, exists_and_left, exists_run_iff, WellGiven]

theorem holds_of_ofArguments (h : ofArguments args = .ok options) : options.Holds args := by
  obtain ⟨hnodup, hrun⟩ := ofArguments_eq_ok_iff.mp h
  constructor
  · intro names
    rw [tracks_shared.run hnodup hrun]
    simp [ParallelOptions.empty]
  · intro limit
    rw [tracks_concurrencyLimit.run hnodup hrun]
    simp [ParallelOptions.empty]
  · intro policy
    rw [tracks_exceptionPolicy.run hnodup hrun]
    simp [ParallelOptions.empty]

theorem Holds.unique {options' : ParallelOptions} (h : options.Holds args)
    (h' : options'.Holds args) : options = options' := by
  obtain ⟨shared, limit, policy⟩ := options
  obtain ⟨shared', limit', policy'⟩ := options'
  congr 1
  · exact Option.ext fun names => (h.shared names).trans (h'.shared names).symm
  · exact Option.ext fun n => (h.concurrencyLimit n).trans (h'.concurrencyLimit n).symm
  · exact Option.ext fun s => (h.exceptionPolicy s).trans (h'.exceptionPolicy s).symm

theorem holds_perm (h : args.Perm args') : options.Holds args ↔ options.Holds args' := by
  constructor
  · exact fun hold => ⟨fun v => (hold.shared v).trans (provides_perm h),
      fun v => (hold.concurrencyLimit v).trans (provides_perm h),
      fun v => (hold.exceptionPolicy v).trans (provides_perm h)⟩
  · exact fun hold => ⟨fun v => (hold.shared v).trans (provides_perm h).symm,
      fun v => (hold.concurrencyLimit v).trans (provides_perm h).symm,
      fun v => (hold.exceptionPolicy v).trans (provides_perm h).symm⟩

theorem wellGiven_perm (h : args.Perm args') : WellGiven args ↔ WellGiven args' := by
  simp only [WellGiven, (h.map _).nodup_iff, h.mem_iff]

/-- The options of well given arguments are those that hold what is given. -/
theorem ofArguments_eq_ok_iff_holds :
    ofArguments args = .ok options ↔ WellGiven args ∧ options.Holds args := by
  constructor
  · exact fun h => ⟨exists_ofArguments_iff.mp ⟨options, h⟩, holds_of_ofArguments h⟩
  · rintro ⟨hgiven, hholds⟩
    obtain ⟨options', h⟩ := exists_ofArguments_iff.mpr hgiven
    rwa [hholds.unique (holds_of_ofArguments h)]

end ParallelOptions

/-! ## Retries -/

namespace RetryPolicy

variable {args args' : List NamedArgument} {policy : RetryPolicy} {position : Position}

/-- Arguments are `policy` with a dotted name, or all options of a custom policy with a dotted name
for the predicate and numbers for the rest. -/
def WellGiven (args : List NamedArgument) : Prop :=
  (∃ arg name, args = [arg] ∧ arg.name = "policy" ∧ arg.value.IsDotted name) ∨
  (args.map (·.name)).Perm
      ["predicate", "max_retries", "initial_delay", "max_delay", "multiplier"] ∧
    ∀ arg ∈ args, if arg.name = "predicate" then ∃ name, arg.value.IsDotted name
      else ∃ n, arg.value.IsNumber n

/-- A policy holds what arguments give. -/
def Holds (args : List NamedArgument) : RetryPolicy → Prop
  | .named name => ∃ arg, args = [arg] ∧ arg.name = "policy" ∧ arg.value.IsDotted name
  | .custom predicate maxRetries initialDelay maxDelay multiplier =>
    (args.map (·.name)).Perm
        ["predicate", "max_retries", "initial_delay", "max_delay", "multiplier"] ∧
      Provides args "predicate" Expr.IsDotted predicate ∧
      Provides args "max_retries" Expr.IsNumber maxRetries ∧
      Provides args "initial_delay" Expr.IsNumber initialDelay ∧
      Provides args "max_delay" Expr.IsNumber maxDelay ∧
      Provides args "multiplier" Expr.IsNumber multiplier

theorem nameOption_eq_ok_iff {arg : NamedArgument} {otherwise : Defect} {name : String} :
    nameOption arg otherwise = .ok name ↔ arg.value.IsDotted name := by
  rw [nameOption, ← Expr.dottedName?_eq_some_iff]
  cases arg.value.dottedName? <;> simp

theorem numberOption_eq_ok_iff {arg : NamedArgument} {n : Number} :
    numberOption arg = .ok n ↔ arg.value.IsNumber n := by
  rw [numberOption, ← Expr.literal?_number_iff]
  cases arg.value.literal?.bind Document.number? <;> simp

/-- Among different names, the argument that is found is the one that has the name. -/
theorem find?_eq_some_iff (hnodup : (args.map (·.name)).Nodup) {name : String}
    {arg : NamedArgument} : find? args name = some arg ↔ arg ∈ args ∧ arg.name = name := by
  constructor
  · intro h
    exact ⟨List.mem_of_find?_eq_some h, by simpa using List.find?_some h⟩
  · rintro ⟨hmem, hname⟩
    have hsome : (args.find? (·.name == name)).isSome = true :=
      List.find?_isSome.mpr ⟨arg, hmem, beq_iff_eq.mpr hname⟩
    obtain ⟨found, hfound⟩ := Option.isSome_iff_exists.mp hsome
    have hsame : found.name = name := by simpa using List.find?_some hfound
    rw [find?, hfound, List.inj_on_of_nodup_map hnodup (List.mem_of_find?_eq_some hfound) hmem
      (hsame.trans hname.symm)]

/-- As many different names as there are options, with every option among them, are the options. -/
theorem perm_customNames (hlength : args.length = customNames.length)
    (hmem : ∀ name ∈ customNames, ∃ arg ∈ args, arg.name = name) :
    (args.map (·.name)).Perm customNames := by
  have hsubset : customNames ⊆ args.map (·.name) := fun name hname =>
    List.mem_map.mpr (hmem name hname)
  have hsubperm := List.subperm_of_subset (by decide : customNames.Nodup) hsubset
  exact (hsubperm.perm_of_length_le (by rw [List.length_map, hlength])).symm

theorem holds_of_ofArguments (h : ofArguments args position = .ok policy) :
    policy.Holds args := by
  obtain ⟨_, hdistinct, h⟩ := bind_eq_ok.mp h
  have hnodup := distinct_eq_ok_iff.mp hdistinct
  split at h
  · split at h
    · rename_i arg _ hpolicy
      obtain ⟨name, hname, h⟩ := bind_eq_ok.mp h
      cases h
      exact ⟨arg, rfl, hpolicy, nameOption_eq_ok_iff.mp hname⟩
    · cases h
  · split at h
    · rename_i predicate maxRetries initialDelay maxDelay multiplier h₁ h₂ h₃ h₄ h₅
      rw [find?_eq_some_iff hnodup] at h₁ h₂ h₃ h₄ h₅
      split at h
      · cases h
      · rename_i hlength
        obtain ⟨_, hpredicate, h⟩ := bind_eq_ok.mp h
        obtain ⟨_, hmaxRetries, h⟩ := bind_eq_ok.mp h
        obtain ⟨_, hinitialDelay, h⟩ := bind_eq_ok.mp h
        obtain ⟨_, hmaxDelay, h⟩ := bind_eq_ok.mp h
        obtain ⟨_, hmultiplier, h⟩ := bind_eq_ok.mp h
        cases h
        refine ⟨perm_customNames (not_not.mp hlength) ?_,
          ⟨predicate, h₁.1, h₁.2, nameOption_eq_ok_iff.mp hpredicate⟩,
          ⟨maxRetries, h₂.1, h₂.2, numberOption_eq_ok_iff.mp hmaxRetries⟩,
          ⟨initialDelay, h₃.1, h₃.2, numberOption_eq_ok_iff.mp hinitialDelay⟩,
          ⟨maxDelay, h₄.1, h₄.2, numberOption_eq_ok_iff.mp hmaxDelay⟩,
          ⟨multiplier, h₅.1, h₅.2, numberOption_eq_ok_iff.mp hmultiplier⟩⟩
        simp only [customNames, List.forall_mem_cons]
        exact ⟨⟨_, h₁⟩, ⟨_, h₂⟩, ⟨_, h₃⟩, ⟨_, h₄⟩, ⟨_, h₅⟩, List.forall_mem_nil _⟩
    · split at h <;> cases h

theorem ofArguments_of_holds (h : policy.Holds args) : ofArguments args position = .ok policy := by
  cases policy with
  | named name =>
    obtain ⟨arg, rfl, hpolicy, hname⟩ := h
    have hdistinct : distinct .retry [arg] = .ok () :=
      distinct_eq_ok_iff.mpr (List.nodup_singleton arg.name)
    rw [ofArguments, hdistinct, ok_bind, if_pos hpolicy, nameOption_eq_ok_iff.mpr hname]
    rfl
  | custom predicate maxRetries initialDelay maxDelay multiplier =>
    obtain ⟨hperm, ⟨a₁, hmem₁, hname₁, h₁⟩, ⟨a₂, hmem₂, hname₂, h₂⟩, ⟨a₃, hmem₃, hname₃, h₃⟩,
      ⟨a₄, hmem₄, hname₄, h₄⟩, ⟨a₅, hmem₅, hname₅, h₅⟩⟩ := h
    have hnodup : (args.map (·.name)).Nodup := hperm.nodup_iff.mpr (by decide)
    have hlength : ¬ args.length ≠ customNames.length := by
      simpa [customNames] using hperm.length_eq
    have hfind₁ := (find?_eq_some_iff hnodup).mpr ⟨hmem₁, hname₁⟩
    have hfind₂ := (find?_eq_some_iff hnodup).mpr ⟨hmem₂, hname₂⟩
    have hfind₃ := (find?_eq_some_iff hnodup).mpr ⟨hmem₃, hname₃⟩
    have hfind₄ := (find?_eq_some_iff hnodup).mpr ⟨hmem₄, hname₄⟩
    have hfind₅ := (find?_eq_some_iff hnodup).mpr ⟨hmem₅, hname₅⟩
    unfold ofArguments
    rw [distinct_eq_ok_iff.mpr hnodup, ok_bind]
    rcases args with _ | ⟨first, _ | ⟨second, rest⟩⟩
    · exact absurd (by decide) hlength
    · exact absurd (by simp [customNames]) hlength
    · dsimp only
      rw [if_neg hlength, hfind₁, hfind₂, hfind₃, hfind₄, hfind₅]
      dsimp only
      rw [nameOption_eq_ok_iff.mpr h₁, numberOption_eq_ok_iff.mpr h₂,
        numberOption_eq_ok_iff.mpr h₃, numberOption_eq_ok_iff.mpr h₄,
        numberOption_eq_ok_iff.mpr h₅]
      rfl

theorem ofArguments_eq_ok_iff : ofArguments args position = .ok policy ↔ policy.Holds args :=
  ⟨holds_of_ofArguments, ofArguments_of_holds⟩

/-- Something is given under a name that some argument has, if all such arguments have the shape. -/
theorem exists_provides {α : Type} {name : String} {shape : Expr → α → Prop}
    (hname : name ∈ args.map (·.name))
    (hshape : ∀ arg ∈ args, arg.name = name → ∃ a, shape arg.value a) :
    ∃ a, Provides args name shape a := by
  obtain ⟨arg, harg, hname⟩ := List.mem_map.mp hname
  obtain ⟨a, ha⟩ := hshape arg harg hname
  exact ⟨a, arg, harg, hname, ha⟩

/-- Some policy holds what is given exactly if the arguments are well given. -/
theorem exists_holds_iff : (∃ policy : RetryPolicy, policy.Holds args) ↔ WellGiven args := by
  constructor
  · rintro ⟨policy, h⟩
    cases policy with
    | named name =>
      obtain ⟨arg, hargs, hpolicy, hname⟩ := h
      exact .inl ⟨arg, name, hargs, hpolicy, hname⟩
    | custom predicate maxRetries initialDelay maxDelay multiplier =>
      obtain ⟨hperm, h₁, h₂, h₃, h₄, h₅⟩ := h
      have hnodup : (args.map (·.name)).Nodup := hperm.nodup_iff.mpr (by decide)
      -- what is given under the name of an argument is given by this argument
      have hshape {α : Type} {shape : Expr → α → Prop} {arg : NamedArgument} {a : α}
          (harg : arg ∈ args) (h : Provides args arg.name shape a) : shape arg.value a := by
        obtain ⟨other, hother, hname, h⟩ := h
        rwa [List.inj_on_of_nodup_map hnodup hother harg hname] at h
      refine .inr ⟨hperm, fun arg harg => ?_⟩
      have hname := hperm.mem_iff.mp (List.mem_map_of_mem harg)
      split
      · rename_i hpredicate
        exact ⟨predicate, hshape harg (hpredicate ▸ h₁)⟩
      · rename_i hpredicate
        simp only [List.mem_cons, hpredicate, List.not_mem_nil, or_false, false_or] at hname
        rcases hname with hname | hname | hname | hname
        · exact ⟨maxRetries, hshape harg (hname ▸ h₂)⟩
        · exact ⟨initialDelay, hshape harg (hname ▸ h₃)⟩
        · exact ⟨maxDelay, hshape harg (hname ▸ h₄)⟩
        · exact ⟨multiplier, hshape harg (hname ▸ h₅)⟩
  · rintro (⟨arg, name, hargs, hpolicy, hname⟩ | ⟨hperm, hshape⟩)
    · exact ⟨.named name, arg, hargs, hpolicy, hname⟩
    · have hnumber {name : String} (hname : name ∈ customNames) (hne : name ≠ "predicate") :
          ∃ n, Provides args name Expr.IsNumber n := by
        refine exists_provides (hperm.mem_iff.mpr hname) fun arg harg heq => ?_
        have := hshape arg harg
        rwa [if_neg (heq ▸ hne)] at this
      have hdotted : ∃ name, Provides args "predicate" Expr.IsDotted name := by
        refine exists_provides (hperm.mem_iff.mpr (by decide)) fun arg harg heq => ?_
        have := hshape arg harg
        rwa [if_pos heq] at this
      obtain ⟨predicate, h₁⟩ := hdotted
      obtain ⟨maxRetries, h₂⟩ := @hnumber "max_retries" (by decide) (by decide)
      obtain ⟨initialDelay, h₃⟩ := @hnumber "initial_delay" (by decide) (by decide)
      obtain ⟨maxDelay, h₄⟩ := @hnumber "max_delay" (by decide) (by decide)
      obtain ⟨multiplier, h₅⟩ := @hnumber "multiplier" (by decide) (by decide)
      exact ⟨.custom predicate maxRetries initialDelay maxDelay multiplier,
        hperm, h₁, h₂, h₃, h₄, h₅⟩

theorem holds_perm (h : args.Perm args') : policy.Holds args ↔ policy.Holds args' := by
  cases policy with
  | named name =>
    constructor
    · rintro ⟨arg, rfl, hpolicy, hname⟩
      exact ⟨arg, List.perm_singleton.mp h.symm, hpolicy, hname⟩
    · rintro ⟨arg, rfl, hpolicy, hname⟩
      exact ⟨arg, List.perm_singleton.mp h, hpolicy, hname⟩
  | custom => simp only [Holds, provides_perm h, (h.map _).congr_left]

end RetryPolicy

/-- Options are taken by their shape, whatever their order: exactly the well given ones are taken,
what is taken holds the values that are given, and arguments in another order give the same, or are
refused as well. -/
theorem options_by_shape (args : List NamedArgument) (position : Position) :
    ((∃ options, ParallelOptions.ofArguments args = .ok options) ↔
      ParallelOptions.WellGiven args) ∧
    (∀ options, ParallelOptions.ofArguments args = .ok options → options.Holds args) ∧
    ((∃ policy, RetryPolicy.ofArguments args position = .ok policy) ↔
      RetryPolicy.WellGiven args) ∧
    (∀ policy, RetryPolicy.ofArguments args position = .ok policy → policy.Holds args) ∧
    ∀ args' position', args.Perm args' →
      (∀ options, ParallelOptions.ofArguments args = .ok options ↔
        ParallelOptions.ofArguments args' = .ok options) ∧
      ∀ policy, RetryPolicy.ofArguments args position = .ok policy ↔
        RetryPolicy.ofArguments args' position' = .ok policy := by
  refine ⟨ParallelOptions.exists_ofArguments_iff, fun _ => ParallelOptions.holds_of_ofArguments,
    ?_, fun _ => RetryPolicy.holds_of_ofArguments, fun args' position' h => ⟨fun options => ?_,
    fun policy => ?_⟩⟩
  · simp only [RetryPolicy.ofArguments_eq_ok_iff, RetryPolicy.exists_holds_iff]
  · rw [ParallelOptions.ofArguments_eq_ok_iff_holds, ParallelOptions.ofArguments_eq_ok_iff_holds,
      ParallelOptions.wellGiven_perm h, ParallelOptions.holds_perm h]
  · rw [RetryPolicy.ofArguments_eq_ok_iff, RetryPolicy.ofArguments_eq_ok_iff,
      RetryPolicy.holds_perm h]

end Workflow
