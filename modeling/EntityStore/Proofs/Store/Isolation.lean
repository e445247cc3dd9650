import EntityStore.Proofs.Query.Determined
import EntityStore.Proofs.Store.Mutation

/-! Isolation of selects. The answer to a select depends on the view of its reader alone
(`Store.select_eq_of_view_eq`), and whatever a transaction does to rows, short of its commit, is in
nobody else's view. -/

namespace EntityStore

/-- What a transaction changes is in nobody else's view. -/
theorem Progress.Extends.view_eq {p p' : Progress} {txn : TxnId}
    {asked : RowKey → RowChange → Prop} (h : p.Extends txn asked p') {reader : Option TxnId}
    (hne : reader ≠ some txn) : p'.store.view reader = p.store.view reader := by
  obtain ⟨changes, w, htakes, rfl⟩ := h
  have hrows : (p.store.storage.changeAll txn changes).view p.store.schema reader =
      p.store.storage.view p.store.schema reader :=
    Storage.view_congr (Storage.visible_changeAll htakes.permits hne) p.store.schema
  exact congrArg (fun v : View => { v with
    eagerSubqueries := p.store.config.eagerSubqueries
    logSeverity := p.store.config.logSeverity }) hrows

namespace Store

/-- The answer to a select depends on the view of its reader alone. -/
theorem select_eq_of_view_eq {s s' : Store} {reader : Option TxnId}
    (h : s'.view reader = s.view reader) (entity : String) (selection : Selection)
    (option : SelectOption) : (s'.select reader entity selection option).1 =
      (s.select reader entity selection option).1 := by
  rw [select_eq, select_eq, h]
  have hdet := (s.view reader).select_determined entity selection option s'.work s.work
  exact congrArg (Except.mapError StoreError.query) hdet

theorem select_eq_of_makes {α : Type} {c : Command α} {txn : TxnId}
    {asked : RowKey → RowChange → Prop} (h : c.Makes txn asked) {reader : Option TxnId}
    (hne : reader ≠ some txn) (s : Store) (entity : String) (selection : Selection)
    (option : SelectOption) : ((c.runOn s).2.select reader entity selection option).1 =
      (s.select reader entity selection option).1 :=
  select_eq_of_view_eq ((h { store := s }).view_eq hne) entity selection option

/-- A mutation or a sync inside a transaction, whether it succeeds or fails on its way, changes no
answer to a select of anybody else. -/
theorem select_eq_of_foreign_call (s : Store) {txn : TxnId} {reader : Option TxnId}
    (hne : reader ≠ some txn) (entity : String) (selection : Selection) (option : SelectOption) :
    (∀ target op allowExists,
      ((s.mutate (some txn) target op allowExists).2.select reader entity selection option).1 =
        (s.select reader entity selection option).1) ∧
    ∀ records, ((s.sync (some txn) records).2.select reader entity selection option).1 =
      (s.select reader entity selection option).1 := by
  have hcaller : some txn = none ∨ some txn = some txn := .inr rfl
  constructor
  · intro target op allowExists
    have h := Command.mutate_makes hcaller target op allowExists
    exact select_eq_of_makes h hne s entity selection option
  · intro records
    have h := Command.sync_makes hcaller records
    exact select_eq_of_makes h hne s entity selection option

/-- A detached select beside a transaction that creates a row: it finds nothing before and after,
although the row is stored. -/
theorem select_eq_beside_create :
    let schema : Schema := { entities := Std.ExtTreeMap.ofList [("note", {})] compare }
    let a : TxnId := ⟨1, "a"⟩
    let s := ({ schema } : Store).begin a
    let s' := (s.mutate (some a) "note" (.create (.obj [("id", .str "x")])) false).2
    none ≠ some a ∧ (s'.storage.node? ⟨"note", "x"⟩).isSome ∧
      (s'.select none "note" {} {}).1 = (s.select none "note" {} {}).1 := by
  intro schema a s s'
  have hne : none ≠ some a := nofun
  refine ⟨hne, by decide, ?_⟩
  exact (select_eq_of_foreign_call s hne "note" {} {}).1 "note" _ false

end Store

end EntityStore
