import EntityStore.Query.Select
import EntityStore.Proofs.Execution

/-! The selection of ids. The rows that match are rows of the scan, and a select that asks for ids
alone gives ids of visible rows, each once (`View.ids_of_select`). -/

namespace EntityStore

theorem RowMap.mem_ofEntity {β : Type} {m : RowMap β} {entity id : String} {x : β} :
    (id, x) ∈ m.ofEntity entity ↔ m[RowKey.mk entity id]? = some x := by
  simp only [ofEntity, List.mem_map, List.mem_filter, decide_eq_true_eq, Prod.mk.injEq]
  constructor
  · rintro ⟨⟨⟨e, i⟩, y⟩, ⟨hmem, rfl⟩, rfl, rfl⟩
    exact Std.ExtTreeMap.mem_toList_iff_getElem?_eq_some.mp hmem
  · intro h
    exact ⟨(⟨entity, id⟩, x), ⟨Std.ExtTreeMap.mem_toList_iff_getElem?_eq_some.mpr h, rfl⟩, rfl, rfl⟩

theorem RowMap.nodup_ofEntity {β : Type} (m : RowMap β) (entity : String) :
    ((m.ofEntity entity).map (·.1)).Nodup := by
  rw [ofEntity, List.map_map, List.Nodup, List.pairwise_map]
  refine (m.distinct_keys_toList.filter _).imp_of_mem fun {a b} ha hb hne hid => ?_
  have hae : a.1.entity = entity := of_decide_eq_true (List.mem_filter.mp ha).2
  have hbe : b.1.entity = entity := of_decide_eq_true (List.mem_filter.mp hb).2
  refine hne (RowKey.order_eq_eq_iff.mpr ?_)
  obtain ⟨⟨e, i⟩, x⟩ := a
  obtain ⟨⟨e', i'⟩, x'⟩ := b
  exact RowKey.mk.injEq .. ▸ ⟨hae.trans hbe.symm, hid⟩

namespace View

theorem sublist_of_matching {v : View} {filter : Filter} {seed : Bindings} {rows out : List Row}
    {w w' : Work} (h : exec (Query.matching v filter seed rows) w = (.ok out, w')) :
    out.Sublist rows := by
  have hout : (exec (rows.filterM fun row => Check.isolated seed do
      Check.finish (← filter.evaluate v row)) { bindings := {} }).1 = .ok out :=
    congrArg Prod.fst h
  exact sublist_of_exec_filterM (Prod.ext hout rfl)

/-- The rows that match are rows of the scan, in its order, and the entity is declared. -/
theorem matching_eq_ok {v : View} {entity : String} {s : Selection} {option : SelectOption}
    {rows : List Row} {w w' : Work} (h : exec (v.matching entity s option) w = (.ok rows, w')) :
    (∃ e, v.schema.entity entity = .ok e) ∧ rows.Sublist (v.scan entity) := by
  rw [matching, exec_bind] at h
  obtain ⟨e, he, h⟩ := continueWith_eq_ok h
  refine ⟨⟨e, QueryError.of_ofSchema he⟩, ?_⟩
  cases hf : s.filter with
  | none =>
    rw [hf] at h
    cases h
    exact .refl _
  | some document =>
    rw [hf] at h
    rw [exec_bind] at h
    obtain ⟨filter, -, h⟩ := continueWith_eq_ok h
    rw [exec_bind] at h
    obtain ⟨matched, hm, h⟩ := continueWith_eq_ok h
    cases h
    exact sublist_of_matching (Prod.ext hm rfl)

/-- The selection of the ids of the rows that pass a filter. -/
def idSelection (filter : Option Json) : Selection := { data := [("id", .ofNat 1)], filter }

theorem ofField_id {schema : Schema} {entity : String} {e : Entity}
    (h : schema.entity entity = .ok e) (spec : Json) :
    Projected.ofField schema entity "id" spec = .ok .column := by
  have hk : Expression.isKey "id" = false := by decide
  have hi : "id" ∈ implicitColumns := by decide
  have hr : schema.relation entity "id" = .ok .column := by
    unfold Schema.relation
    rw [h]
    simp only [bind, Except.bind, if_pos hi]
  rw [Projected.ofField, hk, hr]
  rfl

theorem projectFields_column {v : View} {entity key : String} {spec : Json}
    (hkey : key ≠ "#id") (h : Projected.ofField v.schema entity key spec = .ok .column)
    (obscure : Bool) (path : List String) (rest : List (String × Json)) (out row : Row) :
    v.projectFields entity obscure path ((key, spec) :: rest) out row =
      v.projectFields entity obscure path rest (Projected.copyColumns [key] row out) row := by
  rw [projectFields, if_neg hkey]
  split <;> rename_i hfield <;> rw [h] at hfield <;> cases hfield

theorem exec_project_id {v : View} {entity : String} {e : Entity}
    (h : v.schema.entity entity = .ok e) (spec : Json) (obscure : Bool) (row : Row)
    (g : Forming) (w : Work) :
    exec ((v.project entity obscure [] [("id", spec)] row).run g) w =
      (.ok (Projected.copyColumns ["id"] row [], g), w) := by
  rw [project]
  change exec ((v.projectFields entity obscure [] [("id", spec)] [] row).run g) w = _
  rw [projectFields_column (by decide) (ofField_id h spec), projectFields]
  rfl

theorem exec_form_idSelection {v : View} {entity : String} {e : Entity}
    (h : v.schema.entity entity = .ok e) (filter : Option Json) (rows : List Row) (w : Work) :
    exec (v.form entity rows (idSelection filter) {}) w =
      (.ok (rows.map fun row => Projected.copyColumns ["id"] row []), w) := by
  have hplan : exec (Query.ofExcept (v.hoist entity (idSelection filter)).1) w = (.ok none, w) :=
    rfl
  rw [form, exec_bind, hplan, continueWith_ok, exec_bind,
    exec_mapM_of_pure (g := fun row => Projected.copyColumns ["id"] row []) fun row w => ?_]
  · rfl
  · change exec ((v.project entity false [] [("id", .ofNat 1)] row).run _ >>= _) w = _
    rw [exec_bind, exec_project_id h]
    rfl

/-- The rows that match a filter, each with its id alone. -/
def selectIds (v : View) (entity : String) (filter : Option Json) : Query (List Row) := do
  let matched ← v.matching entity (idSelection filter) {}
  v.finishSelect entity matched.length matched.length
  return matched.map fun row => Projected.copyColumns ["id"] row []

/-- A select of ids needs none of the recursion of selects. -/
theorem select_idSelection_eq (v : View) (entity : String) (filter : Option Json) :
    v.select entity (idSelection filter) {} = v.selectIds entity filter := by
  refine funext fun w => ?_
  change exec (v.select entity (idSelection filter) {}) w = exec (v.selectIds entity filter) w
  rw [select, selectIds, exec_bind, exec_bind]
  generalize hm : exec (v.matching entity (idSelection filter) {}) w = r
  obtain ⟨_ | rows, w'⟩ := r
  · rfl
  obtain ⟨⟨e, he⟩, -⟩ := matching_eq_ok hm
  rw [continueWith_ok, continueWith_ok, exec_bind, exec_form_idSelection he, continueWith_ok,
    List.length_map]

/-- A select of ids gives the ids of the rows that match, or the error of the match. -/
theorem result_select_idSelection (v : View) (entity : String) (filter : Option Json) (w : Work) :
    (exec (v.select entity (idSelection filter) {}) w).1 =
      (exec (v.matching entity (idSelection filter) {}) w).1.map fun rows =>
        rows.map fun row => Projected.copyColumns ["id"] row [] := by
  rw [select_idSelection_eq, selectIds, exec_bind]
  rcases exec (v.matching entity (idSelection filter) {}) w with ⟨_ | rows, w'⟩
  · rfl
  rw [continueWith_ok, exec_bind, finishSelect]
  by_cases hlog : v.logSeverity = .trace
  · rw [if_pos hlog]
    rfl
  · rw [if_neg hlog]
    rfl

/-- A select of ids gives the ids of rows of the scan, in the order of the scan. -/
theorem select_idSelection {v : View} {entity : String} {filter : Option Json} {out : List Row}
    {w w' : Work} (h : exec (v.select entity (idSelection filter) {}) w = (.ok out, w')) :
    ∃ rows : List Row, rows.Sublist (v.scan entity) ∧
      out = rows.map fun row => Projected.copyColumns ["id"] row [] := by
  have hresult := result_select_idSelection v entity filter w
  rw [h] at hresult
  obtain ⟨rows, hm, rfl⟩ := map_eq_ok.mp hresult.symm
  exact ⟨rows, (matching_eq_ok (Prod.ext hm rfl)).2, rfl⟩

/-- The ids are read back from rows that were projected to their ids. -/
theorem filterMap_copyColumns_id {entries : List (String × Row)}
    (hid : ∀ entry ∈ entries, Fields.get? entry.2 "id" = some (.str entry.1)) :
    ((entries.map (·.2)).map fun row => Projected.copyColumns ["id"] row []).filterMap
      (fun row => (Fields.get? row "id").bind Json.str?) = entries.map (·.1) := by
  have hout : (entries.map (·.2)).map (fun row => Projected.copyColumns ["id"] row []) =
      entries.map fun entry => [("id", .str entry.1)] := by
    rw [List.map_map]
    refine List.map_congr_left fun entry he => ?_
    simp [Projected.copyColumns, hid entry he, Fields.insert]
  rw [hout, List.filterMap_map]
  exact congrFun List.filterMap_eq_map entries

/-- The ids that a select of ids gives are those of visible rows, each once, if every visible row
has the id under which it is stored. -/
theorem ids_of_select {v : View} {entity : String} {filter : Option Json} {out : List Row}
    {w w' : Work} (h : exec (v.select entity (idSelection filter) {}) w = (.ok out, w'))
    (hid : ∀ {id row}, v.row? entity id = some row → Fields.get? row "id" = some (.str id)) :
    let ids := out.filterMap fun row => (Fields.get? row "id").bind Json.str?
    ids.Nodup ∧ ∀ id ∈ ids, (v.row? entity id).isSome := by
  obtain ⟨rows, hsub, rfl⟩ := select_idSelection h
  obtain ⟨entries, hentries, rfl⟩ := List.sublist_map_iff.mp hsub
  have hrow {entry : String × Row} (he : entry ∈ entries) :
      v.row? entity entry.1 = some entry.2 := RowMap.mem_ofEntity.mp (hentries.mem he)
  rw [filterMap_copyColumns_id fun entry he => hid (hrow he)]
  refine ⟨(hentries.map _).nodup (RowMap.nodup_ofEntity v.rows entity), fun id hmem => ?_⟩
  obtain ⟨entry, he, rfl⟩ := List.mem_map.mp hmem
  rw [hrow he, Option.isSome_some]

end View

end EntityStore
