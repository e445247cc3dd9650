import Mathlib.Control.Monad.Basic
import EntityStore.Proofs.Query.Passing
import EntityStore.Proofs.Store.Serial

/-! The identity of rows. Every stored row belongs to an entity of the schema, since a mutation
looks its entity up before it changes anything (`Store.Declared`), and it has the id under which it
is stored (`Storage.Keyed`). So a mutation finds its rows by their own ids
(`Command.result_matchingIds`, `Store.row_identity`). -/

namespace EntityStore

/-- Every stored row belongs to an entity of the schema. -/
def Store.Declared (s : Store) : Prop :=
  ∀ key, (s.storage.node? key).isSome → ∃ e, s.schema.entity key.entity = .ok e

namespace Storage

variable {s s' : Storage} {txn : TxnId}

/-- Row changes make nodes only for their own rows. -/
theorem isSome_node?_changeAll {changes : List (RowKey × RowChange)} {key : RowKey}
    (h : ((s.changeAll txn changes).node? key).isSome) :
    (∃ c, (key, c) ∈ changes) ∨ (s.node? key).isSome := by
  refine Classical.or_iff_not_imp_left.mpr fun hmem => ?_
  rwa [node?_changeAll_of_not_mem (not_exists.mp hmem)] at h

theorem isSome_foldl_closeNode {survives : Node → Bool} {close : Node → Node} {keys : List RowKey}
    {nodes : RowMap Node} {key : RowKey}
    (h : (keys.foldl (closeNode survives close) nodes)[key]?.isSome) : nodes[key]?.isSome := by
  induction keys generalizing nodes with
  | nil => exact h
  | cons k keys ih =>
    have hone := ih h
    rw [getElem?_closeNode] at hone
    split at hone
    · rename_i hk
      rw [hk]
      cases hn : nodes[k]? with
      | none =>
        rw [hn] at hone
        cases hone
      | some n => rfl
    · exact hone

/-- Closing a transaction makes no nodes. -/
theorem isSome_node?_close {survives : Node → Bool} {close : Node → Node} {t : Transaction}
    (h : s.close survives close txn = some (t, s')) {key : RowKey}
    (hsome : (s'.node? key).isSome) : (s.node? key).isSome := by
  obtain ⟨-, rfl⟩ := close_eq_some h
  exact isSome_foldl_closeNode hsome

end Storage

namespace Command

variable {α β : Type}

/-- Whatever comes of the command, the stored rows still belong to entities of the schema. -/
def KeepsDeclared (c : Command α) : Prop :=
  ∀ p : Progress, p.store.Declared → (exec c p).2.store.Declared

namespace KeepsDeclared

theorem pure (a : α) : KeepsDeclared (pure a : Command α) := fun _ h => h

theorem report (event : Log.Event) (fields : List (String × String)) :
    KeepsDeclared (report event fields) := fun _ h => h

theorem bind {c : Command α} {f : α → Command β} (hc : KeepsDeclared c)
    (hf : ∀ a, KeepsDeclared (f a)) : KeepsDeclared (c >>= f) := by
  intro p h
  have hp := hc p h
  rw [exec_bind]
  generalize exec c p = r at hp ⊢
  obtain ⟨_ | a, q⟩ := r
  · exact hp
  · exact hf a q hp

theorem mapM {f : α → Command β} {xs : List α} (h : ∀ x, KeepsDeclared (f x)) :
    KeepsDeclared (xs.mapM f) := by
  induction xs with
  | nil => exact pure []
  | cons x xs ih =>
    rw [List.mapM_cons]
    exact (h x).bind fun y => ih.bind fun ys => pure (y :: ys)

end KeepsDeclared

/-- A mutation is refused at once, or its transaction is open and its entity is declared. -/
theorem mutate_cases (caller : Option TxnId) (entity : String) (p : Progress) :
    (∃ e, ∀ op allowExists, exec (mutate caller entity op allowExists) p = (.error e, p)) ∨
      ∃ txn e, caller = some txn ∧ (p.store.storage.transaction? txn).isSome ∧
        p.store.schema.entity entity = .ok e := by
  cases caller with
  | none => exact .inl ⟨.noTransaction, fun op allowExists => rfl⟩
  | some txn =>
    cases hopen : (p.store.storage.transaction? txn).isSome with
    | false =>
      refine .inl ⟨.unknownTransaction txn, fun op allowExists => ?_⟩
      rw [mutate, exec_bind, exec_openTransaction, hopen]
      rfl
    | true =>
      cases hentity : p.store.schema.entity entity with
      | ok e => exact .inr ⟨txn, e, rfl, hopen, rfl⟩
      | error e =>
        refine .inl ⟨.schema e, fun op allowExists => ?_⟩
        rw [mutate, exec_bind, exec_openTransaction, if_pos hopen, continueWith_ok, exec_bind,
          exec_get, continueWith_ok, exec_bind, exec_ofExcept, hentity]
        rfl

theorem mutate_keepsDeclared (caller : Option TxnId) (entity : String) (op : Operation)
    (allowExists : Bool) : KeepsDeclared (mutate caller entity op allowExists) := by
  intro p hp
  rcases mutate_cases caller entity p with ⟨error, hrefused⟩ | ⟨txn, e, rfl, -, hentity⟩
  · rw [hrefused]
    exact hp
  · obtain ⟨changes, w, htakes, he⟩ := mutate_makes (.inr rfl) entity op allowExists p
    rw [he]
    intro key hkey
    rcases Storage.isSome_node?_changeAll hkey with ⟨c, hmem⟩ | hsome
    · have hkeyed : key.entity = entity := (htakes.asked hmem).2.1
      exact ⟨e, hkeyed ▸ hentity⟩
    · exact hp key hsome

theorem sync_keepsDeclared (caller : Option TxnId) (records : List SyncRecord) :
    KeepsDeclared (sync caller records) := by
  refine .bind (.mapM fun record => ?_) fun counts => .report _ _
  cases record with
  | snapshot rows =>
    have hrow (filed : String × Row) :=
      mutate_keepsDeclared caller filed.1 (.create (.obj filed.2)) true
    exact .bind (.mapM hrow) fun counts => .pure (total counts)
  | create entity data | update entity data filter | remove entity filter =>
    exact mutate_keepsDeclared caller entity _ true

/-- The result of the search for the rows of a mutation. -/
theorem exec_matchingIds_eq (txn : TxnId) (entity : String) (filter : Option Json) (p : Progress) :
    (exec (matchingIds txn entity filter) p).1 =
      (((exec ((p.store.view (some txn)).select entity (View.idSelection filter) {})
        p.store.work).1.map fun rows => rows.filterMap fun row =>
          (Fields.get? row "id").bind Json.str?).mapError .query) := by
  rw [matchingIds_eq, exec_mk, ← View.select_idSelection_eq]
  dsimp only
  cases (exec ((p.store.view (some txn)).select entity (View.idSelection filter) {})
    p.store.work).1 <;> rfl

/-- A mutation finds the ids of the rows that pass its filter. -/
theorem result_matchingIds {p : Progress} {entity : String} {e : Entity}
    (K : p.store.storage.Keyed) (h : p.store.schema.entity entity = .ok e) (txn : TxnId)
    (filter : Option Json) : (exec (matchingIds txn entity filter) p).1 =
      (((p.store.view (some txn)).passing entity filter).map (List.map (·.1))).mapError .query := by
  have hid {id : String} {row : Row} (hv : (p.store.view (some txn)).row? entity id = some row) :
      Fields.get? row "id" = some (.str id) := K.get?_id p.store.schema hv
  rw [exec_matchingIds_eq]
  exact congrArg (Except.mapError StoreError.query) (View.result_ids h hid p.store.work)

end Command

namespace Store

variable {s : Store} {calls : List Call}

theorem Declared.call (h : s.Declared) (c : Call) : (s.call c).Declared := by
  cases c with
  | begin txn | select caller entity selection option => exact h
  | commit txn =>
    rw [Store.call, commit]
    cases hc : s.storage.commit txn with
    | none => exact h
    | some r => exact fun key hkey => h key (Storage.isSome_node?_close hc hkey)
  | rollback txn =>
    rw [Store.call, rollback]
    cases hc : s.storage.rollback txn with
    | none => exact h
    | some r => exact fun key hkey => h key (Storage.isSome_node?_close hc hkey)
  | mutate caller entity op allowExists =>
    exact Command.mutate_keepsDeclared caller entity op allowExists { store := s } h
  | sync caller records => exact Command.sync_keepsDeclared caller records { store := s } h

theorem Declared.run (h : s.Declared) (calls : List Call) : (s.run calls).Declared := by
  induction calls generalizing s with
  | nil => exact h
  | cons c calls ih => exact ih (h.call c)

theorem declared_new (schema : Schema) (config : Config) :
    ({ schema, config } : Store).Declared := by
  intro key hkey
  have hnone : ({} : Storage).node? key = none := Std.ExtTreeMap.getElem?_empty
  rw [hnone] at hkey
  cases hkey

/-- After every run each stored row belongs to an entity of the schema, and the rows that are seen
of it, the committed one and the one that replaces it have the id under which it is stored. So a
mutation that looks for its rows finds those that match its filter and no others, by their ids, each
once and in ascending order, and fails only with the error of that match. -/
theorem row_identity (schema : Schema) (config : Config) (hfresh : Call.Fresh calls)
    (hunique : ∀ call ∈ calls, call.Unique) :
    let s := ({ schema, config } : Store).run calls
    (∀ key n, s.storage.node? key = some n →
      (∃ e, schema.entity key.entity = .ok e) ∧
      (∀ reader row, n.visible reader = some row → Fields.get? row "id" = some (.str key.id)) ∧
      (∀ row, n.current = some row → Fields.get? row "id" = some (.str key.id)) ∧
      ∀ row, n.pending = some (.replace row) → Fields.get? row "id" = some (.str key.id)) ∧
    ∀ txn entity filter,
      let matched :=
        (exec ((s.view (some txn)).matching entity (View.idSelection filter) {}) s.work).1
      let found := (exec (Command.matchingIds txn entity filter) { store := s }).1
      (∀ rows, matched = .ok rows → ∃ ids, found = .ok ids ∧ ids.Pairwise (· < ·) ∧
        ids.map (fun id => s.storage.visible ⟨entity, id⟩ (some txn)) = rows.map some) ∧
      ∀ e, matched = .error e → found = .error (.query e) := by
  intro s
  have S := serial_run schema config hfresh hunique
  have hdeclared : s.Declared := (declared_new schema config).run calls
  have hschema : s.schema = schema := schema_run _ calls
  refine ⟨fun key n hn => ?_, fun txn entity filter => ⟨fun rows hrows => ?_, fun e he => ?_⟩⟩
  · have K : n.Keyed key := S.keyed key n hn
    have hentity := hdeclared key (by rw [hn]; rfl)
    rw [hschema] at hentity
    exact ⟨hentity, fun _ _ h => (K.fits_visible h).id, fun _ h => (K.current h).id,
      fun _ h => (K.replaced h).id⟩
  · obtain ⟨⟨e, hentity⟩, -⟩ := View.matching_eq_ok (Prod.ext hrows rfl)
    rw [View.result_matching hentity] at hrows
    obtain ⟨entries, hentries, rfl⟩ := map_eq_ok.mp hrows
    refine ⟨entries.map (·.1), ?_, View.pairwise_of_passing hentries, ?_⟩
    · rw [Command.result_matchingIds S.keyed hentity, hentries]
      rfl
    · rw [List.map_map, List.map_map]
      refine List.map_congr_left fun entry he => ?_
      have hrow := View.row?_of_passing hentries he
      exact (Storage.row?_view s.storage s.schema (some txn) entity entry.1).symm.trans hrow
  · rw [Command.exec_matchingIds_eq, View.result_select_idSelection, he]
    rfl

/-- Two rows that are found in the order of their ids, not of their creation. -/
theorem row_identity_of_two_creates :
    let schema : Schema := { entities := Std.ExtTreeMap.ofList [("note", {})] compare }
    let a : TxnId := ⟨1, "a"⟩
    let row (id : String) : Row := [("id", .str id)]
    let create (id : String) : Call := .mutate (some a) "note" (.create (.obj (row id))) false
    let s := ({ schema } : Store).run [.begin a, create "y", create "x"]
    ∃ ids, (exec (Command.matchingIds a "note" none) { store := s }).1 = .ok ids ∧
      ids.Pairwise (· < ·) ∧ ids.map (fun id => s.storage.visible ⟨"note", id⟩ (some a)) =
        [some (row "x"), some (row "y")] := by
  intro schema a row create s
  have hfresh : Call.Fresh [.begin a, create "y", create "x"] := by decide
  have hunique : ∀ call ∈ [.begin a, create "y", create "x"], call.Unique := by
    simp [create, row, Call.Unique, Operation.Unique, Operation.create, Json.UniqueRows, Json.rows,
      Fields.names]
  have hmatched : (exec ((s.view (some a)).matching "note" (View.idSelection none) {}) s.work).1 =
      .ok [row "x", row "y"] := by decide +kernel
  exact ((row_identity schema {} hfresh hunique).2 a "note" none).1 _ hmatched

end Store

end EntityStore
