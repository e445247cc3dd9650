import EntityStore.Query.Expression.Basic
import EntityStore.Query.Selection
import EntityStore.Schema.Relation

/-! The one-to-many nesting of a projection: how many back-references lie inside one another.
Expressions do not count. A select descends in this number, whatever the rows look like
(`nestingFields_lt_of_mem`, `nestingFields_data_le`), and a sort plan that adds expressions and
pointers to a projection does not raise it. -/

namespace EntityStore

namespace Json

mutual

/-- The nesting of a value. -/
def nesting : Json → Nat
  | .arr items => nestingItems items
  | .obj fields => nestingFields fields
  | _ => 0

/-- The nesting of the deepest item. -/
def nestingItems : List Json → Nat
  | [] => 0
  | x :: xs => max (nesting x) (nestingItems xs)

/-- The nesting of the deepest field, where a back-reference adds one. -/
def nestingFields : List (String × Json) → Nat
  | [] => 0
  | (name, x) :: xs =>
    max (if Expression.isKey name then 0
      else if (splitBackReference? name).isSome then nesting x + 1 else nesting x)
      (nestingFields xs)

end

/-- What one field adds to the nesting. -/
def nestingField (name : String) (value : Json) : Nat :=
  if Expression.isKey name then 0
  else if (splitBackReference? name).isSome then nesting value + 1 else nesting value

theorem nestingFields_cons (name : String) (value : Json) (rest : List (String × Json)) :
    nestingFields ((name, value) :: rest) =
      max (nestingField name value) (nestingFields rest) := rfl

theorem nestingFields_tail_le (entry : String × Json) (rest : List (String × Json)) :
    nestingFields rest ≤ nestingFields (entry :: rest) := Nat.le_max_right ..

theorem nestingField_le {name : String} {value : Json} {fields : List (String × Json)}
    (h : (name, value) ∈ fields) : nestingField name value ≤ nestingFields fields := by
  induction fields with
  | nil => simp at h
  | cons entry rest ih =>
    obtain ⟨n, v⟩ := entry
    rw [nestingFields_cons]
    rcases List.mem_cons.mp h with h | h
    · cases h; omega
    · have := ih h; omega

theorem nesting_le_of_mem {value : Json} {items : List Json} (h : value ∈ items) :
    nesting value ≤ nestingItems items := by
  induction items with
  | nil => simp at h
  | cons x xs ih =>
    simp only [nestingItems]
    rcases List.mem_cons.mp h with h | h
    · cases h; omega
    · have := ih h; omega

/-- A back-reference nests deeper than the projection under it. -/
theorem nestingFields_lt_of_mem {name : String} {value : Json} {fields : List (String × Json)}
    (hk : Expression.isKey name = false) (hb : (splitBackReference? name).isSome = true)
    (h : (name, value) ∈ fields) : nesting value < nestingFields fields := by
  have := nestingField_le h
  simp only [nestingField, hk, hb, if_true] at this
  simp at this
  omega

theorem nestingFields_insert_le (fields : Fields Json) (name : String) (value : Json) :
    nestingFields (Fields.insert fields name value) ≤
      max (nestingFields fields) (nestingField name value) := by
  induction fields with
  | nil => simp [Fields.insert, nestingFields_cons, nestingFields]
  | cons entry rest ih =>
    obtain ⟨n, v⟩ := entry
    by_cases hn : n = name
    · subst hn; simp only [Fields.insert, if_true, nestingFields_cons]; omega
    · simp only [Fields.insert, hn, if_false, nestingFields_cons]; omega

end Json

theorem Fields.mem_of_get? {β : Type} {fields : Fields β} {name : String} {value : β}
    (h : get? fields name = some value) : (name, value) ∈ fields := by
  induction fields with
  | nil => simp at h
  | cons entry rest ih =>
    obtain ⟨n, v⟩ := entry
    rw [get?_cons] at h
    by_cases hn : name = n
    · subst hn; simp at h; simp [h]
    · simp only [hn, if_false] at h; exact List.mem_cons_of_mem _ (ih h)

theorem Selection.data_of_ofJson? {j : Json} {s : Selection} (h : ofJson? j = some s) :
    s.data = [] ∨ ∃ fields, j.record? fieldNames = some fields ∧
      Fields.get? fields "data" = some (.obj s.data) := by
  simp only [ofJson?, Option.bind_eq_bind, Option.bind_eq_some_iff, Option.pure_def,
    Option.some.injEq] at h
  obtain ⟨fields, hf, data, hd, _, _, _, _, _, _, _, _, rfl⟩ := h
  cases hg : Fields.get? fields "data" with
  | none => left; simpa [Fields.optional?, hg] using hd.symm
  | some v =>
    right
    refine ⟨fields, hf, ?_⟩
    simp only [Fields.optional?, hg] at hd
    cases v <;> simp [Json.obj?] at hd
    subst hd; exact hg

/-- The projection of a selection nests no deeper than the value that gives the selection. -/
theorem Selection.nestingFields_data_le {j : Json} {s : Selection} (h : ofJson? j = some s) :
    Json.nestingFields s.data ≤ j.nesting := by
  rcases data_of_ofJson? h with h | ⟨fields, hf, hd⟩
  · rw [h]; simp [Json.nestingFields]
  · have hmem := Fields.mem_of_get? hd
    cases j with
    | obj entries =>
      simp only [Json.record?, Record.ofObject?] at hf
      split at hf
      · injection hf with hf
        subst hf
        have hmem := (List.mem_filter.mp hmem).1
        have := Json.nestingField_le hmem
        have hk : Expression.isKey "data" = false := by decide
        have hb : (splitBackReference? "data").isSome = false := by decide
        simp only [Json.nestingField, hk, hb] at this
        simpa [Json.nesting] using this
      · simp at hf
    | arr items =>
      simp only [Json.record?, Record.ofArray?] at hf
      split at hf
      · injection hf with hf
        subst hf
        have := Json.nesting_le_of_mem (List.of_mem_zip hmem).2
        simpa [Json.nesting] using this
      · simp at hf
    | _ => simp [Json.record?] at hf

end EntityStore
