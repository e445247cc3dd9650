import EntityStore.Query.Error
import EntityStore.Row.Transaction

/-! Errors of a store, and the four kinds that callers tell apart. -/

namespace EntityStore

/-- What kind of error it is. -/
inductive ErrorKind where
  /-- A malformed query or operation, or a name that the schema does not have. -/
  | structural
  /-- An expression that reads a label which is never bound. -/
  | evaluation
  /-- A row of another transaction, a label bound twice, a transaction that is not open. -/
  | conflict
  /-- A row that exists already. -/
  | integrity
deriving DecidableEq

/-- The name of the kind in an error report. -/
def ErrorKind.name : ErrorKind → String
  | structural => "STRUCTURAL"
  | evaluation => "EVALUATION"
  | conflict => "CONFLICT"
  | integrity => "INTEGRITY"

/-- Why an operation makes no sense. -/
inductive OperationFault where
  /-- The patch is not an object. -/
  | patchNotObject (action entity : String)
  /-- A row to create is not an object. -/
  | rowNotObject (entity : String)
  /-- What is to be created is no row and no array of rows. -/
  | noRows (entity : String)
  /-- A row to create has no string as its id. -/
  | noId (entity : String)
  /-- A patch gives some row another id. -/
  | changedId (entity : String)
deriving DecidableEq

/-- The wording of a fault. -/
def OperationFault.message : OperationFault → String
  | patchNotObject action entity => s!"{action} on {entity} requires an object patch"
  | rowNotObject entity => s!"create on {entity} expects rows"
  | noRows entity => s!"create on {entity} expects a row or an array of rows"
  | noId entity => s!"create on {entity} requires a string id"
  | changedId entity => s!"update on {entity} cannot change a row id"

/-- An error of a store. -/
inductive StoreError where
  | schema (e : SchemaError)
  | query (e : QueryError)
  /-- The row has a pending change of another transaction. -/
  | rowLocked (key : RowKey) (owner : TxnId)
  /-- A row to create exists; the error has the row. -/
  | rowExists (key : RowKey) (row : Row)
  /-- The transaction is not open. -/
  | unknownTransaction (txn : TxnId)
  /-- A mutation outside of any transaction. -/
  | noTransaction
  | invalidOperation (fault : OperationFault)
deriving DecidableEq

namespace StoreError

/-- The kind of an error. -/
def kind : StoreError → ErrorKind
  | query (.unresolved _) => .evaluation
  | query (.duplicateLabel _) => .conflict
  | schema _ | query _ | invalidOperation _ => .structural
  | rowLocked _ _ | unknownTransaction _ | noTransaction => .conflict
  | rowExists _ _ => .integrity

/-- The stable code of an error. -/
def code : StoreError → String
  | schema e => e.code
  | query e => e.code
  | rowLocked _ _ => "STORE_ROW_LOCKED"
  | rowExists _ _ => "STORE_CONGRUENT_ROW_EXISTS"
  | unknownTransaction _ => "STORE_UNKNOWN_TRANSACTION"
  | noTransaction => "STORE_NO_ACTIVE_TRANSACTION"
  | invalidOperation _ => "STORE_INVALID_OPERATION"

/-- The wording of an error. -/
def message : StoreError → String
  | schema e => e.message
  | query e => e.message
  | rowLocked key owner => s!"Row {key.entity}.{key.id} is locked by transaction {owner.name}"
  | rowExists key _ => s!"Row {key.entity}.{key.id} already exists"
  | unknownTransaction txn => s!"Unknown transaction {txn.name}"
  | noTransaction => "Mutation requires an active transaction"
  | invalidOperation fault => s!"Invalid operation: {fault.message}"

/-- The row that exists already, if that is the error. -/
def existingRow? : StoreError → Option Row
  | rowExists _ row => some row
  | _ => none

end StoreError

end EntityStore
