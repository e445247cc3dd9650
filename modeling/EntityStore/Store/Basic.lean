import EntityStore.Query.Select
import EntityStore.Row.Storage
import EntityStore.Store.Error
import EntityStore.Store.Stat

/-! The store: rows under a schema, with transactions, statistics and a journal of log entries.

Selects see the rows of one transaction, or the committed rows. Opening and closing a transaction is
reported in the journal, and a commit is added to the statistics. -/

namespace EntityStore

/-- A store of rows. -/
structure Store where
  schema : Schema
  config : Config := {}
  storage : Storage := {}
  stat : Stat := {}
  /-- The counters of all queries so far, and the journal. -/
  work : Work := {}

namespace Store

/-- The options of a select unless the caller says otherwise. -/
def selectOption (s : Store) : SelectOption := .ofConfig s.config

/-- The number of open transactions. -/
def active (s : Store) : Nat := s.storage.active

/-- What a transaction, or nobody in particular, can see. -/
def view (s : Store) (txn : Option TxnId) : View :=
  { s.storage.view s.schema txn with
    eagerSubqueries := s.config.eagerSubqueries
    logSeverity := s.config.logSeverity }

/-- Writes an event into the journal, unless its severity is too low. -/
def report (s : Store) (event : Log.Event) (fields : List (String × String)) : Store :=
  let entries := Log.report s.config.logSeverity event fields
  { s with work := { s.work with journal := s.work.journal ++ entries } }

/-- Takes the entries out of the journal. -/
def takeJournal (s : Store) : List Log.Entry × Store :=
  (s.work.journal, { s with work := { s.work with journal := [] } })

/-- Reads rows of an entity. -/
def select (s : Store) (txn : Option TxnId) (entity : String) (selection : Selection)
    (option : SelectOption) : Except StoreError (List Row) × Store :=
  let (result, work) := ((s.view txn).select entity selection option).run.run s.work
  (result.mapError .query, { s with work })

/-- Opens a transaction. -/
def begin (s : Store) (txn : TxnId) : Store :=
  { s with storage := s.storage.begin txn }.report .txnBegin [("txn", txn.name)]

/-- Applies the pending changes of an open transaction and closes it. A store has no clock, so the
duration that it reports is zero. -/
def commit (s : Store) (txn : TxnId) : Except StoreError Unit × Store :=
  match s.storage.commit txn with
  | none => (.error (.unknownTransaction txn), s)
  | some (t, storage) =>
    (.ok (), { s with storage, stat := s.stat.absorb t }.report .txnCommit
      [("txn", txn.name), ("rows", natText t.dirty.length), ("create", natText t.create),
        ("update", natText t.update), ("remove", natText t.remove), ("duration_ms", "0")])

/-- Drops the pending changes of an open transaction and closes it. -/
def rollback (s : Store) (txn : TxnId) : Except StoreError Unit × Store :=
  match s.storage.rollback txn with
  | none => (.error (.unknownTransaction txn), s)
  | some (t, storage) =>
    (.ok (), { s with storage }.report .txnRollback
      [("txn", txn.name), ("rows", natText t.dirty.length)])

end Store

end EntityStore
