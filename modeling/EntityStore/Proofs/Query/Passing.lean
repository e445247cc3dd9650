import EntityStore.Proofs.Query.Decided
import EntityStore.Proofs.Query.Ids
import EntityStore.Proofs.Query.Sites

/-! The rows that pass a filter, each with its id. A select scans the rows of an entity in the order
of their ids and keeps those that have the verdict `true`, each judged for itself
(`View.passing`, `View.result_matching`). -/

namespace EntityStore

/-! ## Filtering with errors -/

section

variable {ε α β : Type} {xs ys : List α}

theorem filterAuxM_map (f : α → β) (p : β → Except ε Bool) (xs acc : List α) :
    List.filterAuxM p (xs.map f) (acc.map f) =
      (List.filterAuxM (fun x => p (f x)) xs acc).map (List.map f) := by
  induction xs generalizing acc with
  | nil => rfl
  | cons x xs ih =>
    rw [List.map_cons, List.filterAuxM, List.filterAuxM]
    cases p (f x) with
    | error e => rfl
    | ok b =>
      cases b with
      | false => exact ih acc
      | true => exact ih (x :: acc)

theorem filterM_map (f : α → β) (p : β → Except ε Bool) (xs : List α) :
    (xs.map f).filterM p = (xs.filterM fun x => p (f x)).map (List.map f) := by
  have haux := filterAuxM_map f p xs []
  rw [List.filterM, List.filterM, ← List.map_nil (f := f), haux]
  cases List.filterAuxM (fun x => p (f x)) xs [] with
  | error e => rfl
  | ok ys => exact congrArg Except.ok (List.map_reverse (f := f) (l := ys)).symm

theorem ok_of_filterAuxM {p : α → Except ε Bool} {acc : List α}
    (h : List.filterAuxM p xs acc = .ok ys) : ∀ x ∈ xs, ∃ passed, p x = .ok passed := by
  induction xs generalizing acc with
  | nil => exact nofun
  | cons x xs ih =>
    rw [List.filterAuxM] at h
    obtain ⟨passed, hx, h⟩ := bind_eq_ok.mp h
    exact List.forall_mem_cons.mpr ⟨⟨passed, hx⟩, ih h⟩

/-- A filter gives a result if it can tell of every item whether it passes. -/
theorem filterM_eq_ok {p : α → Except ε Bool} : xs.filterM p = .ok ys ↔
    (∀ x ∈ xs, ∃ passed, p x = .ok passed) ∧
      ys = xs.filter fun x => (p x).toOption = some true := by
  have hok (h : ∀ x ∈ xs, ∃ passed, p x = .ok passed) :
      xs.filterM p = .ok (xs.filter fun x => (p x).toOption = some true) := by
    refine filterM_of_ok fun x hx => ?_
    obtain ⟨passed, hp⟩ := h x hx
    rw [hp]
    cases passed <;> rfl
  constructor
  · intro h
    have hall : ∀ x ∈ xs, ∃ passed, p x = .ok passed := by
      obtain ⟨rev, hrev, -⟩ := bind_eq_ok.mp h
      exact ok_of_filterAuxM hrev
    exact ⟨hall, Except.ok.inj (h.symm.trans (hok hall))⟩
  · rintro ⟨hall, rfl⟩
    exact hok hall

end

/-- The entries of an entity are in ascending order of their ids. -/
theorem RowMap.pairwise_ofEntity {β : Type} (m : RowMap β) (entity : String) :
    ((m.ofEntity entity).map (·.1)).Pairwise (· < ·) := by
  rw [ofEntity, List.map_map, List.pairwise_map]
  refine (m.ordered_keys_toList.filter _).imp_of_mem fun {a b} ha hb hlt => ?_
  have hae : a.1.entity = entity := of_decide_eq_true (List.mem_filter.mp ha).2
  have hbe : b.1.entity = entity := of_decide_eq_true (List.mem_filter.mp hb).2
  have hid : compare a.1.id b.1.id = .lt := by
    have hentity : compareOn RowKey.entity a.1 b.1 = .eq := by
      rw [compareOn, hae, hbe]
      exact Std.ReflCmp.compare_self
    rwa [RowKey.order, compareLex, hentity, Ordering.eq_then] at hlt
  exact compareOfLessAndEq_eq_lt.mp hid

namespace View

/-- The visible rows of an entity that pass a filter, in the order of their ids. No missing value
passes. -/
def passing (v : View) (entity : String) (filter : Option Json) :
    Except QueryError (List (String × Row)) :=
  match filter with
  | none => .ok (v.rows.ofEntity entity)
  | some document =>
    (Filter.compile v.schema entity false [] document).bind fun f =>
      (v.rows.ofEntity entity).filterM fun entry => f.verdict v [] {} entry.2

variable {v : View} {entity : String} {filter : Option Json} {entries : List (String × Row)}

theorem sublist_of_passing (h : v.passing entity filter = .ok entries) :
    entries.Sublist (v.rows.ofEntity entity) := by
  cases filter with
  | none =>
    cases h
    exact .refl _
  | some document =>
    obtain ⟨f, -, h⟩ := bind_eq_ok.mp h
    rw [(filterM_eq_ok.mp h).2]
    exact List.filter_sublist

/-- The ids of the rows that pass are in ascending order. -/
theorem pairwise_of_passing (h : v.passing entity filter = .ok entries) :
    (entries.map (·.1)).Pairwise (· < ·) :=
  (v.rows.pairwise_ofEntity entity).sublist ((sublist_of_passing h).map _)

theorem row?_of_passing (h : v.passing entity filter = .ok entries) {id : String} {row : Row}
    (hmem : (id, row) ∈ entries) : v.row? entity id = some row :=
  RowMap.mem_ofEntity.mp ((sublist_of_passing h).mem hmem)

/-- The rows that pass are the visible ones with the verdict `true`. -/
theorem mem_passing {document : Json} {f : Filter}
    (hf : Filter.compile v.schema entity false [] document = .ok f)
    (h : v.passing entity (some document) = .ok entries) {id : String} {row : Row} :
    (id, row) ∈ entries ↔ v.row? entity id = some row ∧ f.verdict v [] {} row = .ok true := by
  rw [passing, hf] at h
  rw [(filterM_eq_ok.mp h).2, List.mem_filter, RowMap.mem_ofEntity, decide_eq_true_eq]
  refine and_congr_right fun _ => ?_
  dsimp only
  cases f.verdict v [] {} row <;> simp [Except.toOption]

/-- The rows that match a selection of ids are those that pass its filter. -/
theorem result_matching {e : Entity} (h : v.schema.entity entity = .ok e) (w : Work) :
    (exec (v.matching entity (idSelection filter) {}) w).1 =
      (v.passing entity filter).map (List.map (·.2)) := by
  have hentity : exec (Query.ofExcept (QueryError.ofSchema (v.schema.entity entity))) w =
      (.ok e, w) := by
    rw [h]
    rfl
  rw [matching, exec_bind, hentity, continueWith_ok]
  cases filter with
  | none => rfl
  | some document =>
    have hcompile : exec (Query.ofExcept (Filter.compile v.schema entity false [] document)) w =
      (Filter.compile v.schema entity false [] document, w) := rfl
    dsimp only [idSelection, passing]
    rw [exec_bind, hcompile]
    cases hf : Filter.compile v.schema entity false [] document with
    | error error => rfl
    | ok f =>
      have hd := Filter.distinct_of_compile hf
      have hfilter := Query.matching_eq_filterM hd v {} (v.scan entity) w
      have hverdict : (fun row => (f.judge v row).verdict {}) = f.verdict v [] {} :=
        funext fun row => (f.verdict_eq hd v [] {} row).symm
      rw [hverdict, scan, filterM_map] at hfilter
      rw [continueWith_ok, exec_bind, scan]
      dsimp only [Except.bind]
      rw [← hfilter]
      generalize exec (Query.matching v f {} ((v.rows.ofEntity entity).map (·.2))) w = r
      obtain ⟨_ | rows, w'⟩ := r <;> rfl

/-- The ids that a select of ids gives are those of the rows that pass the filter, if every visible
row has the id under which it is stored. -/
theorem result_ids {e : Entity} (h : v.schema.entity entity = .ok e)
    (hid : ∀ {id row}, v.row? entity id = some row → Fields.get? row "id" = some (.str id))
    (w : Work) :
    ((exec (v.select entity (idSelection filter) {}) w).1.map fun rows =>
      rows.filterMap fun row => (Fields.get? row "id").bind Json.str?) =
        (v.passing entity filter).map (List.map (·.1)) := by
  rw [result_select_idSelection, result_matching h]
  cases hp : v.passing entity filter with
  | error error => rfl
  | ok entries =>
    exact congrArg Except.ok (filterMap_copyColumns_id fun _ he => hid (row?_of_passing hp he))

end View

end EntityStore
