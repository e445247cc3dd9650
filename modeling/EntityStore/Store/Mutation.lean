import EntityStore.Row.Change
import EntityStore.Store.Basic
import EntityStore.Store.Operation

/-! Mutations. A mutation runs inside an open transaction and either fails or says how many rows it
affected. Updates and removes change nothing if they fail; a create of several rows keeps the rows
created before the one it fails at. -/

namespace EntityStore

/-- A store while a command changes it. -/
structure Progress where
  store : Store
  /-- The row changes made so far, in order. -/
  changes : List (RowKey × RowChange) := []

/-- A command on a store. An error keeps the changes made before it. -/
abbrev Command := ExceptT StoreError (StateM Progress)

namespace Command

variable {α : Type}

/-- Raises the error of a result. -/
def ofExcept (r : Except StoreError α) : Command α := ExceptT.mk (pure r)

/-- Fails because an operation makes no sense. -/
def invalid (fault : OperationFault) : Command α := throw (.invalidOperation fault)

/-- Writes an event into the journal. -/
def report (event : Log.Event) (fields : List (String × String)) : Command Unit :=
  modify fun p => { p with store := p.store.report event fields }

/-- Makes a row change. -/
def change (txn : TxnId) (key : RowKey) (c : RowChange) : Command Unit :=
  modify fun p =>
    { store := { p.store with storage := p.store.storage.change txn key c }
      changes := p.changes ++ [(key, c)] }

/-- Fails because another transaction owns the row, and reports it. -/
def locked (key : RowKey) (owner : TxnId) : Command α := do
  report .rowConflict [("entity", key.entity), ("id", key.id), ("owner", owner.name)]
  throw (.rowLocked key owner)

/-- The node of a row. -/
def node? (key : RowKey) : Command (Option Node) := do return (← get).store.storage.node? key

/-- Fails at the first row that another transaction owns. -/
def checkOwnership (txn : TxnId) (keys : List RowKey) : Command Unit :=
  keys.forM fun key => do
    if let some owner := (← node? key).bind (·.owner) then
      if owner ≠ txn then locked key owner

/-- The transaction of a mutation, which has to be open. -/
def openTransaction (txn : Option TxnId) : Command TxnId := do
  match txn with
  | none => throw .noTransaction
  | some txn =>
    if ((← get).store.storage.transaction? txn).isSome then return txn
    else throw (.unknownTransaction txn)

/-- The ids of the rows that pass a filter, as a transaction sees them. No missing value passes. -/
def matchingIds (txn : TxnId) (entity : String) (filter : Option Json) : Command (List String) :=
  ExceptT.mk fun p =>
    let selection : Selection := { data := [("id", .ofNat 1)], filter }
    let (result, store) := p.store.select (some txn) entity selection {}
    let ids (rows : List Row) := rows.filterMap fun row => (Fields.get? row "id").bind Json.str?
    (result.map ids, { p with store })

/-- Merges a patch into rows that the transaction sees. The patch may repeat the id of a row but not
change it. -/
def updateRows (txn : TxnId) (entity : String) (ids : List String) (patch : Row) :
    Command Nat := do
  if let some id := Fields.get? patch "id" then
    if ids.any fun old => id.str? ≠ some old then invalid (.changedId entity)
  let keys := ids.map (RowKey.mk entity)
  checkOwnership txn keys
  keys.forM fun key => change txn key (.merge patch)
  return ids.length

/-- Removes rows that the transaction sees. -/
def removeRows (txn : TxnId) (entity : String) (ids : List String) : Command Nat := do
  let keys := ids.map (RowKey.mk entity)
  checkOwnership txn keys
  keys.forM fun key => change txn key .delete
  return ids.length

/-- Creates a row. A visible row is merged with the new one, or refused if rows may not exist. A row
that the transaction itself has removed counts as existing too, but it is put anew. -/
def createRow (txn : TxnId) (entity : String) (allowExists : Bool) (row : Row) : Command Unit := do
  let some id := (Fields.get? row "id").bind Json.str? | invalid (.noId entity)
  let key : RowKey := ⟨entity, id⟩
  match ← node? key with
  | none => change txn key (.put row)
  | some n =>
    match n.visible (some txn) with
    | some existing =>
      if allowExists then discard (updateRows txn entity [id] row)
      else throw (.rowExists key existing)
    | none =>
      match n.owner with
      | some owner =>
        if owner ≠ txn then locked key owner
        else if allowExists then change txn key (.put row)
        else throw (.rowExists key (n.current.getD []))
      | none =>
        if allowExists then change txn key (.put row)
        else throw (.rowExists key (n.current.getD []))

/-- The rows that a create gives: one, or an array of rows. -/
def rowsToCreate (entity : String) : Json → Except StoreError (List Row)
  | .obj row => .ok [row]
  | .arr items => items.mapM fun item =>
    match item.obj? with
    | some row => .ok row
    | none => .error (.invalidOperation (.rowNotObject entity))
  | _ => .error (.invalidOperation (.noRows entity))

/-- Creates rows one after the other. -/
def createRows (txn : TxnId) (entity : String) (allowExists : Bool) (data : Json) :
    Command Nat := do
  let rows ← ofExcept (rowsToCreate entity data)
  rows.forM (createRow txn entity allowExists)
  return rows.length

/-- Does what an operation says, and counts the rows. -/
def perform (txn : TxnId) (entity : String) (op : Operation) (allowExists : Bool) :
    Command Nat :=
  match op.action with
  | .create => createRows txn entity allowExists op.data
  | .remove => do removeRows txn entity (← matchingIds txn entity op.filter)
  | .update | .custom _ => do
    let some patch := op.data.obj? | invalid (.patchNotObject op.action.name entity)
    updateRows txn entity (← matchingIds txn entity op.filter) patch

/-- Performs an operation inside an open transaction on a declared entity. -/
def mutate (txn : Option TxnId) (entity : String) (op : Operation) (allowExists : Bool) :
    Command Nat := do
  let txn ← openTransaction txn
  let _ ← ofExcept (((← get).store.schema.entity entity).mapError .schema)
  let affected ← perform txn entity op allowExists
  if (← get).store.config.logSeverity = .trace then
    report .updateComplete [("entity", entity), ("action", op.action.name),
      ("rows", natText affected), ("txn", txn.name)]
  return affected

/-- Runs a command on a store. -/
def runOn (c : Command α) (s : Store) : Except StoreError α × Store :=
  let (result, p) := c.run.run { store := s }
  (result, p.store)

end Command

namespace Store

/-- Performs an operation inside an open transaction. Creating a row that exists updates the row if
`allowExists`, and fails otherwise. -/
def mutate (s : Store) (txn : Option TxnId) (entity : String) (op : Operation)
    (allowExists : Bool) : Except StoreError Nat × Store :=
  (Command.mutate txn entity op allowExists).runOn s

end Store

end EntityStore
