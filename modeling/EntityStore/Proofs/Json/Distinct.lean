import EntityStore.Proofs.Json.Rows

/-! Values without repeated names. Every value that was read from a text names each field of each
of its objects once (`Json.distinct_of_parse?`), and it stays so when distinct values are put under
further names. -/

namespace EntityStore

namespace Json

mutual

/-- Whether every object in the value names each field once. -/
def distinct : Json → Bool
  | .arr items => distinctItems items
  | .obj fields => decide (Fields.names fields).Nodup && distinctFields fields
  | _ => true

/-- Whether every object in the items names each field once. -/
def distinctItems : List Json → Bool
  | [] => true
  | x :: xs => distinct x && distinctItems xs

/-- Whether every object below the fields names each field once. -/
def distinctFields : List (String × Json) → Bool
  | [] => true
  | (_, x) :: xs => distinct x && distinctFields xs

end

theorem distinctItems_iff {items : List Json} :
    distinctItems items = true ↔ ∀ item ∈ items, item.distinct = true := by
  induction items with
  | nil => simp [distinctItems]
  | cons x xs ih => simp [distinctItems, ih]

theorem distinctFields_iff {fields : List (String × Json)} :
    distinctFields fields = true ↔ ∀ entry ∈ fields, entry.2.distinct = true := by
  induction fields with
  | nil => simp [distinctFields]
  | cons entry rest ih => simp [distinctFields, ih]

theorem distinct_arr {items : List Json} :
    (arr items).distinct = true ↔ ∀ item ∈ items, item.distinct = true := by
  rw [distinct, distinctItems_iff]

theorem distinct_obj {fields : Fields Json} : (obj fields).distinct = true ↔
    (Fields.names fields).Nodup ∧ ∀ entry ∈ fields, entry.2.distinct = true := by
  rw [distinct, Bool.and_eq_true, decide_eq_true_eq, distinctFields_iff]

theorem distinct_insert {fields : Fields Json} {value : Json} (h : (obj fields).distinct = true)
    (name : String) (hvalue : value.distinct = true) :
    (obj (Fields.insert fields name value)).distinct = true := by
  obtain ⟨hnodup, hfields⟩ := distinct_obj.mp h
  refine distinct_obj.mpr ⟨Fields.nodup_insert hnodup name value, fun entry hmem => ?_⟩
  rcases Fields.mem_insert hmem with hmem | rfl
  · exact hfields entry hmem
  · exact hvalue

end Json

namespace Document

/-- Merging repeated names gives distinct values if the values themselves are distinct. -/
theorem distinct_merge {base entries : Fields Json} (hbase : (Json.obj base).distinct = true)
    (h : ∀ entry ∈ entries, entry.2.distinct = true) :
    (Json.obj (Fields.merge base entries)).distinct = true := by
  induction entries generalizing base with
  | nil => exact hbase
  | cons entry rest ih =>
    obtain ⟨hentry, hrest⟩ := List.forall_mem_cons.mp h
    exact ih (Json.distinct_insert hbase entry.1 hentry) hrest

mutual

theorem distinct_of_toJson? : (d : Document) → {j : Json} → d.toJson? = some j → j.distinct = true
  | .null, _, h | .bool _, _, h => by
    cases h
    rfl
  | .number _, _, h | .string _, _, h => by
    obtain ⟨_, -, rfl⟩ := Option.map_eq_some_iff.mp h
    rfl
  | .array items, _, h => by
    obtain ⟨values, hvalues, rfl⟩ := Option.map_eq_some_iff.mp h
    exact Json.distinct_arr.mpr (distinct_of_toJsonItems? items hvalues)
  | .object fields, _, h => by
    obtain ⟨entries, hentries, rfl⟩ := Option.map_eq_some_iff.mp h
    exact distinct_merge (by rfl) (distinct_of_toJsonFields? fields hentries)

theorem distinct_of_toJsonItems? : (items : List Document) → {values : List Json} →
    toJsonItems? items = some values → ∀ value ∈ values, value.distinct = true
  | [], _, h => by
    cases h
    exact nofun
  | x :: xs, _, h => by
    obtain ⟨value, hvalue, h⟩ := Option.bind_eq_some_iff.mp h
    obtain ⟨values, hvalues, h⟩ := Option.bind_eq_some_iff.mp h
    cases h
    exact List.forall_mem_cons.mpr
      ⟨distinct_of_toJson? x hvalue, distinct_of_toJsonItems? xs hvalues⟩

theorem distinct_of_toJsonFields? : (fields : List (Option String × Document)) →
    {entries : List (String × Json)} → toJsonFields? fields = some entries →
      ∀ entry ∈ entries, entry.2.distinct = true
  | [], _, h => by
    cases h
    exact nofun
  | (_, x) :: xs, _, h => by
    obtain ⟨name, -, h⟩ := Option.bind_eq_some_iff.mp h
    obtain ⟨value, hvalue, h⟩ := Option.bind_eq_some_iff.mp h
    obtain ⟨entries, hentries, h⟩ := Option.bind_eq_some_iff.mp h
    cases h
    exact List.forall_mem_cons.mpr
      ⟨distinct_of_toJson? x hvalue, distinct_of_toJsonFields? xs hentries⟩

end

end Document

theorem Json.distinct_of_parse? {text : String} {j : Json} (h : Json.parse? text = some j) :
    j.distinct = true := by
  obtain ⟨d, -, h⟩ := Option.bind_eq_some_iff.mp h
  split at h
  · exact d.distinct_of_toJson? h
  · cases h

end EntityStore
