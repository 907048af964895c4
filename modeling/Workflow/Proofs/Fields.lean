import Mathlib.Data.List.Induction
import Mathlib.Data.List.Nodup
import Workflow.Document.Fields

/-!
# Laws of fields

Inserting pairs one after the other gives each name once, at the place where it came first and with
the value that came last. Pairs whose names differ stay as they are.
-/

namespace Workflow.Fields

variable {α β : Type}

theorem insert_of_not_mem {name : String} {fields : Fields α} (h : name ∉ names fields)
    (value : α) : insert name value fields = fields ++ [(name, value)] := by
  induction fields with
  | nil => rfl
  | cons field rest ih =>
    obtain ⟨k, v⟩ := field
    simp only [names, List.map_cons, List.mem_cons, not_or] at h
    rw [insert, if_neg (Ne.symm h.1), ih h.2, List.cons_append]

theorem mem_insert {name : String} {value : α} {fields : Fields α} {field : String × α}
    (h : field ∈ insert name value fields) : field = (name, value) ∨ field ∈ fields := by
  induction fields with
  | nil => exact .inl (List.mem_singleton.mp h)
  | cons first rest ih =>
    obtain ⟨k, v⟩ := first
    rw [insert] at h
    split at h
    · rename_i hk
      rcases List.mem_cons.mp h with rfl | h
      · exact .inl (by rw [hk])
      · exact .inr (List.mem_cons_of_mem _ h)
    · rcases List.mem_cons.mp h with rfl | h
      · exact .inr List.mem_cons_self
      · exact (ih h).imp_right (List.mem_cons_of_mem _)

/-- Inserting pairs behind fields keeps names apart. -/
theorem nodup_names_foldl (pairs : List (String × α)) {fields : Fields α}
    (h : (names fields).Nodup) :
    (names (pairs.foldl (fun fields pair => insert pair.1 pair.2 fields) fields)).Nodup := by
  induction pairs generalizing fields with
  | nil => exact h
  | cons pair rest ih =>
    refine ih ?_
    rw [names_insert]
    split
    · exact h
    · rename_i hmem
      exact List.nodup_append.mpr ⟨h, List.nodup_singleton _, by
        rintro a ha b hb rfl
        exact hmem (List.mem_singleton.mp hb ▸ ha)⟩

theorem nodup_names_ofPairs (pairs : List (String × α)) : (names (ofPairs pairs)).Nodup :=
  nodup_names_foldl pairs List.nodup_nil

theorem mem_of_mem_foldl {pairs : List (String × α)} {fields : Fields α} {field : String × α}
    (h : field ∈ pairs.foldl (fun fields pair => insert pair.1 pair.2 fields) fields) :
    field ∈ fields ∨ field ∈ pairs := by
  induction pairs generalizing fields with
  | nil => exact .inl h
  | cons pair rest ih =>
    rcases ih h with h | h
    · rcases mem_insert h with rfl | h
      · exact .inr List.mem_cons_self
      · exact .inl h
    · exact .inr (List.mem_cons_of_mem _ h)

theorem mem_of_mem_ofPairs {pairs : List (String × α)} {field : String × α}
    (h : field ∈ ofPairs pairs) : field ∈ pairs :=
  (mem_of_mem_foldl h).resolve_left List.not_mem_nil

theorem ofPairs_ne_nil {pairs : List (String × α)} (h : pairs ≠ []) : ofPairs pairs ≠ [] := by
  have hinsert : ∀ (pair : String × α) (fields : Fields α), insert pair.1 pair.2 fields ≠ [] := by
    intro pair fields
    cases fields with
    | nil => exact List.cons_ne_nil _ _
    | cons field rest =>
      rw [insert]
      split
      · exact List.cons_ne_nil _ _
      · exact List.cons_ne_nil _ _
  rcases List.eq_nil_or_concat pairs with rfl | ⟨front, last, rfl⟩
  · exact absurd rfl h
  · rw [ofPairs, List.concat_eq_append, List.foldl_append]
    exact hinsert last _

/-- Pairs whose names differ are inserted as they are. -/
theorem ofPairs_of_nodup {pairs : List (String × α)} (h : (names pairs).Nodup) :
    ofPairs pairs = pairs := by
  suffices hall : ∀ fields : Fields α, (names fields ++ names pairs).Nodup →
      pairs.foldl (fun fields pair => insert pair.1 pair.2 fields) fields = fields ++ pairs from
    hall [] h
  clear h
  induction pairs with
  | nil =>
    intro fields _
    exact (List.append_nil fields).symm
  | cons pair rest ih =>
    intro fields h
    have hmem : pair.1 ∉ names fields := by
      intro hmem
      exact (List.nodup_append.mp h).2.2 pair.1 hmem pair.1 List.mem_cons_self rfl
    rw [List.foldl_cons, insert_of_not_mem hmem, ih]
    · simp
    · simpa [names] using h

/-! ## First places and last values -/

theorem ofPairs_concat (pairs : List (String × α)) (pair : String × α) :
    ofPairs (pairs ++ [pair]) = insert pair.1 pair.2 (ofPairs pairs) := by
  rw [ofPairs, List.foldl_append]
  rfl

theorem eraseDups_concat (keys : List String) (key : String) : (keys ++ [key]).eraseDups =
    if key ∈ keys then keys.eraseDups else keys.eraseDups ++ [key] := by
  rw [List.eraseDups_append]
  by_cases hmem : key ∈ keys
  · simp [hmem, List.removeAll]
  · simp [hmem, List.removeAll, List.eraseDups_cons]

/-- Each name stands where it came first. -/
theorem names_ofPairs (pairs : List (String × α)) :
    names (ofPairs pairs) = (names pairs).eraseDups := by
  induction pairs using List.reverseRecOn with
  | nil => rfl
  | append_singleton pairs pair ih =>
    rw [ofPairs_concat, names_insert, ih, names, names, List.map_append, List.map_singleton,
      eraseDups_concat]
    simp only [List.mem_eraseDups]

/-- Keys that are kept once stand in the order in which they come first. -/
theorem pairwise_idxOf_eraseDups (keys : List String) :
    keys.eraseDups.Pairwise fun a b => keys.idxOf a < keys.idxOf b := by
  -- from the end, as a key at the end changes no place in front of it
  induction keys using List.reverseRecOn with
  | nil => exact .nil
  | append_singleton keys key ih =>
    have hkeys : keys.eraseDups.Pairwise fun a b =>
        (keys ++ [key]).idxOf a < (keys ++ [key]).idxOf b := by
      refine ih.imp_of_mem fun {a b} ha hb h => ?_
      rwa [List.idxOf_append_of_mem (List.mem_eraseDups.mp ha),
        List.idxOf_append_of_mem (List.mem_eraseDups.mp hb)]
    rw [eraseDups_concat]
    by_cases hmem : key ∈ keys
    · rwa [if_pos hmem]
    · rw [if_neg hmem]
      refine List.pairwise_append.mpr ⟨hkeys, List.pairwise_singleton _ _, fun a ha b hb => ?_⟩
      obtain rfl := List.mem_singleton.mp hb
      rw [List.idxOf_append_of_mem (List.mem_eraseDups.mp ha), List.idxOf_append_of_notMem hmem]
      exact Nat.lt_add_right _ (List.idxOf_lt_length_of_mem (List.mem_eraseDups.mp ha))

/-- Each name has the value that came last. -/
theorem lookup_ofPairs (pairs : List (String × α)) (name : String) :
    (ofPairs pairs).lookup name = pairs.reverse.lookup name := by
  induction pairs using List.reverseRecOn with
  | nil => rfl
  | append_singleton pairs pair ih =>
    rw [ofPairs_concat, lookup_insert, ih, List.reverse_concat', List.lookup_cons]
    by_cases h : name = pair.1
    · simp [h]
    · rw [if_neg h, beq_eq_false_iff_ne.mpr h]

theorem lookup_eq_some_iff_mem {fields : Fields α} (h : (names fields).Nodup) {name : String}
    {value : α} : fields.lookup name = some value ↔ (name, value) ∈ fields := by
  induction fields with
  | nil => simp
  | cons field rest ih =>
    obtain ⟨k, v⟩ := field
    obtain ⟨hk, hrest⟩ := List.nodup_cons.mp h
    rw [List.lookup_cons, List.mem_cons, ← ih hrest]
    by_cases heq : name = k
    · subst heq
      have hnone : (name, value) ∉ rest := fun hmem =>
        hk (List.mem_map.mpr ⟨_, hmem, rfl⟩)
      rw [ih hrest]
      simp [hnone, eq_comm]
    · rw [beq_eq_false_iff_ne.mpr heq]
      simp [heq]

/-! ## Changed values -/

theorem names_map (f : α → β) (fields : Fields α) :
    names (fields.map fun field => (field.1, f field.2)) = names fields := by
  rw [names, List.map_map]
  rfl

theorem insert_map (f : α → β) (name : String) (value : α) (fields : Fields α) :
    insert name (f value) (fields.map fun field => (field.1, f field.2)) =
      (insert name value fields).map fun field => (field.1, f field.2) := by
  induction fields with
  | nil => rfl
  | cons field rest ih =>
    obtain ⟨k, v⟩ := field
    rw [List.map_cons, insert, insert, ih]
    split
    · rfl
    · rfl

/-- The values may be changed before or after insertion. -/
theorem ofPairs_map (f : α → β) (pairs : List (String × α)) :
    ofPairs (pairs.map fun pair => (pair.1, f pair.2)) =
      (ofPairs pairs).map fun pair => (pair.1, f pair.2) := by
  induction pairs using List.reverseRecOn with
  | nil => rfl
  | append_singleton pairs pair ih =>
    rw [List.map_append, List.map_singleton, ofPairs_concat, ofPairs_concat, ih]
    exact insert_map f pair.1 pair.2 (ofPairs pairs)

end Workflow.Fields
