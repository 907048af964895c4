/-!
# Ordered fields

A list of named values in the order of their first insertion. Inserting under a name that is there
already replaces the value and keeps the place.
-/

namespace Workflow

/-- Named values in the order of their first insertion. -/
abbrev Fields (α : Type) := List (String × α)

namespace Fields

variable {α : Type}

def insert (name : String) (value : α) : Fields α → Fields α
  | [] => [(name, value)]
  | (k, v) :: rest => if k = name then (k, value) :: rest else (k, v) :: insert name value rest

/-- The fields that inserting pairs one after the other gives. -/
def ofPairs (pairs : List (String × α)) : Fields α :=
  pairs.foldl (fun fields pair => insert pair.1 pair.2 fields) []

def names (fields : Fields α) : List String := fields.map Prod.fst

def optional (name : String) (value : Option α) : Fields α :=
  (value.map fun v => (name, v)).toList

theorem names_insert (name : String) (value : α) (fields : Fields α) :
    names (insert name value fields) =
      if name ∈ names fields then names fields else names fields ++ [name] := by
  induction fields with
  | nil => simp [insert, names]
  | cons field rest ih =>
    obtain ⟨k, v⟩ := field
    by_cases h : k = name
    · simp [insert, names, h]
    · have h' : name ≠ k := fun e => h e.symm
      simp only [names] at ih
      by_cases hm : name ∈ List.map Prod.fst rest <;> simp [insert, names, h, h', ih, hm]

theorem lookup_insert (name : String) (value : α) (fields : Fields α) (k : String) :
    (insert name value fields).lookup k = if k = name then some value else fields.lookup k := by
  induction fields with
  | nil =>
    by_cases h : k = name
    · simp [insert, h]
    · simp [insert, List.lookup_cons, beq_eq_false_iff_ne.2 h, h]
  | cons field rest ih =>
    obtain ⟨key, v⟩ := field
    by_cases h : key = name
    · by_cases hk : k = name
      · simp [insert, h, hk]
      · simp [insert, List.lookup_cons, beq_eq_false_iff_ne.2 hk, h, hk]
    · by_cases hk : k = key
      · simp [insert, h, hk]
      · simp [insert, List.lookup_cons, beq_eq_false_iff_ne.2 hk, h, ih]

end Fields

end Workflow
