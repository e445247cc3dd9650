import EntityStore.Store.Mutation
import EntityStore.Store.SyncRecord

/-! Sync: the replay of an operation log. Creates and snapshots update the rows that exist. -/

namespace EntityStore

namespace Command

/-- The sum of counts. -/
def total (counts : List Nat) : Nat := counts.foldr Nat.add 0

/-- Creates the rows of a snapshot, in the order of entities and ids. A row that has no id of its
own gets the one it is filed under. -/
def restore (txn : Option TxnId) (rows : NameMap (NameMap Row)) : Command Nat := do
  let filed := rows.toList.flatMap fun (entity, table) =>
    table.toList.map fun (id, row) => (entity, Fields.insertNew row "id" (.str id))
  let counts ← filed.mapM fun (entity, row) => mutate txn entity (.create (.obj row)) true
  return total counts

/-- Replays one record, and counts the rows. -/
def replay (txn : Option TxnId) : SyncRecord → Command Nat
  | .create entity data => mutate txn entity (.create data) true
  | .update entity data filter => mutate txn entity { action := .update, data, filter } true
  | .remove entity filter => mutate txn entity { action := .remove, filter } true
  | .snapshot rows => restore txn rows

/-- Replays records one after the other, up to the first one that fails. -/
def sync (txn : Option TxnId) (records : List SyncRecord) : Command Unit := do
  let counts ← records.mapM (replay txn)
  report .syncComplete [("records", natText records.length), ("rows", natText (total counts))]

end Command

namespace Store

/-- Replays records inside an open transaction. -/
def sync (s : Store) (txn : Option TxnId) (records : List SyncRecord) :
    Except StoreError Unit × Store :=
  (Command.sync txn records).runOn s

end Store

end EntityStore
