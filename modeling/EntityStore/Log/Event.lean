import EntityStore.Log.Entry

/-! The events that a store reports, and the threshold below which they are not logged. -/

namespace EntityStore.Log

/-- An event of a store. -/
inductive Event where
  | configLoaded
  | schemaLoaded
  | txnBegin
  | txnCommit
  | txnRollback
  /-- A writer met a row with a pending change of another transaction. -/
  | rowConflict
  | selectComplete
  | updateComplete
  | syncComplete
deriving DecidableEq

namespace Event

/-- Every event. -/
def all : List Event :=
  [configLoaded, schemaLoaded, txnBegin, txnCommit, txnRollback, rowConflict, selectComplete,
    updateComplete, syncComplete]

/-- The name in a log line. -/
def name : Event → String
  | configLoaded => "CONFIG_LOADED"
  | schemaLoaded => "SCHEMA_LOADED"
  | txnBegin => "TXN_BEGIN"
  | txnCommit => "TXN_COMMIT"
  | txnRollback => "TXN_ROLLBACK"
  | rowConflict => "ROW_CONFLICT"
  | selectComplete => "SELECT_COMPLETE"
  | updateComplete => "UPDATE_COMPLETE"
  | syncComplete => "SYNC_COMPLETE"

/-- The severity an event is logged at. -/
def severity : Event → Severity
  | selectComplete | updateComplete => .trace
  | rowConflict => .warn
  | _ => .info

/-- The event with a name. -/
def ofName? (name : String) : Option Event := all.find? (·.name = name)

end Event

/-- The entry of an event, unless its severity is below the threshold. -/
def report (threshold : Severity) (event : Event) (fields : List (String × String)) :
    List Entry :=
  if threshold.level ≤ event.severity.level then [⟨event.severity, event.name, fields⟩] else []

end EntityStore.Log
