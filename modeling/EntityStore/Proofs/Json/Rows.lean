import EntityStore.Json.Document
import EntityStore.Proofs.Json.Merge

/-! The rows that a value gives. Those of a value that was read from a text name each attribute once
(`Json.uniqueRows_of_parse?`). -/

namespace EntityStore

namespace Json

/-- The objects that a value gives: the value or, of an array, its items. -/
def rows : Json → List Row
  | .obj row => [row]
  | .arr items => items.filterMap Json.obj?
  | _ => []

/-- The rows that a value gives name each attribute once. -/
def UniqueRows (j : Json) : Prop := ∀ row ∈ j.rows, (Fields.names row).Nodup

end Json

namespace Document

theorem nodup_of_toJson? {d : Document} {row : Row} (h : d.toJson? = some (.obj row)) :
    (Fields.names row).Nodup := by
  cases d with
  | object fields =>
    obtain ⟨entries, -, he⟩ := Option.map_eq_some_iff.mp h
    cases he
    have hnil : (Fields.names ([] : Row)).Nodup := List.nodup_nil
    exact Fields.nodup_merge hnil entries
  | number value | string text | array items =>
    obtain ⟨_, -, he⟩ := Option.map_eq_some_iff.mp h
    cases he
  | _ => cases h

theorem nodup_of_mem_toJsonItems? {items : List Document} {values : List Json}
    (h : toJsonItems? items = some values) {row : Row} (hmem : .obj row ∈ values) :
    (Fields.names row).Nodup := by
  induction items generalizing values with
  | nil =>
    cases h
    cases hmem
  | cons d items ih =>
    rw [toJsonItems?] at h
    obtain ⟨value, hvalue, h⟩ := Option.bind_eq_some_iff.mp h
    obtain ⟨rest, hrest, h⟩ := Option.bind_eq_some_iff.mp h
    cases h
    rcases List.mem_cons.mp hmem with rfl | hmem
    · exact nodup_of_toJson? hvalue
    · exact ih hrest hmem

theorem uniqueRows_of_toJson? {d : Document} {j : Json} (h : d.toJson? = some j) :
    j.UniqueRows := by
  intro row hmem
  cases j with
  | obj fields =>
    cases List.mem_singleton.mp hmem
    exact nodup_of_toJson? h
  | arr values =>
    obtain ⟨value, hvalue, hrow⟩ := List.mem_filterMap.mp hmem
    have he : value = .obj row := by cases value <;> cases hrow; rfl
    rw [he] at hvalue
    cases d with
    | array items =>
      obtain ⟨values, hvalues, he⟩ := Option.map_eq_some_iff.mp h
      cases he
      exact nodup_of_mem_toJsonItems? hvalues hvalue
    | number value | string text | object fields =>
      obtain ⟨_, -, he⟩ := Option.map_eq_some_iff.mp h
      cases he
    | _ => cases h
  | _ => cases hmem

end Document

theorem Json.uniqueRows_of_parse? {text : String} {j : Json} (h : Json.parse? text = some j) :
    j.UniqueRows := by
  obtain ⟨d, -, h⟩ := Option.bind_eq_some_iff.mp h
  split at h
  · exact Document.uniqueRows_of_toJson? h
  · cases h

end EntityStore
