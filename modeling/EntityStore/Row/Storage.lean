import EntityStore.Row.Node
import EntityStore.Query.View

/-! Storage: the nodes of all rows, and the open transactions. Closing a transaction touches the
rows that it registered and no others. -/

namespace EntityStore

/-- The rows of a store and its open transactions. -/
structure Storage where
  nodes : RowMap Node := ∅
  transactions : Std.ExtTreeMap TxnId Transaction TxnId.order := ∅

namespace Storage

/-- The node of a row. -/
def node? (s : Storage) (key : RowKey) : Option Node := s.nodes[key]?

/-- The row as a transaction sees it. -/
def visible (s : Storage) (key : RowKey) (txn : Option TxnId) : Option Row :=
  (s.node? key).bind (·.visible txn)

/-- The nodes of an entity, in the order of their ids. -/
def scan (s : Storage) (entity : String) : List (String × Node) := s.nodes.ofEntity entity

/-- The number of nodes of an entity, those with pending changes included. -/
def count (s : Storage) (entity : String) : Nat := (s.scan entity).length

/-- Stores a node. -/
def insert (s : Storage) (key : RowKey) (n : Node) : Storage :=
  { s with nodes := s.nodes.insert key n }

/-- The record of an open transaction. -/
def transaction? (s : Storage) (id : TxnId) : Option Transaction := s.transactions[id]?

/-- Changes the record of a transaction, if it is open. -/
def modifyTransaction (s : Storage) (id : TxnId) (f : Transaction → Transaction) : Storage :=
  match s.transaction? id with
  | some t => { s with transactions := s.transactions.insert id (f t) }
  | none => s

theorem node?_insert (s : Storage) (key other : RowKey) (n : Node) :
    (s.insert key n).node? other = if other = key then some n else s.node? other := by
  simp only [node?, insert, Std.ExtTreeMap.getElem?_insert, RowKey.order_eq_eq_iff]
  exact ite_congr (propext eq_comm) (fun _ => rfl) fun _ => rfl

@[simp] theorem node?_modifyTransaction (s : Storage) (id : TxnId) (f : Transaction → Transaction)
    (key : RowKey) : (s.modifyTransaction id f).node? key = s.node? key := by
  unfold modifyTransaction; split <;> rfl

@[simp] theorem transaction?_insert (s : Storage) (key : RowKey) (n : Node) (id : TxnId) :
    (s.insert key n).transaction? id = s.transaction? id := rfl

theorem transaction?_modifyTransaction (s : Storage) (id other : TxnId)
    (f : Transaction → Transaction) :
    (s.modifyTransaction id f).transaction? other =
      if other = id then (s.transaction? id).map f else s.transaction? other := by
  unfold modifyTransaction
  cases h : s.transaction? id with
  | none => by_cases ho : other = id <;> simp_all
  | some t =>
    simp only [transaction?, Std.ExtTreeMap.getElem?_insert, TxnId.order_eq_eq_iff, Option.map_some]
    exact ite_congr (propext eq_comm) (fun _ => rfl) fun _ => rfl

/-- Opens a transaction. -/
def begin (s : Storage) (id : TxnId) : Storage :=
  { s with transactions := s.transactions.insert id { id } }

/-- The number of open transactions. -/
def active (s : Storage) : Nat := s.transactions.size

/-- Closes one node: it becomes what `close` says, or it is deleted. -/
def closeNode (survives : Node → Bool) (close : Node → Node) (nodes : RowMap Node)
    (key : RowKey) : RowMap Node :=
  match nodes[key]? with
  | some n => if survives n then nodes.insert key (close n) else nodes.erase key
  | none => nodes

/-- Closes an open transaction and the nodes it registered; the result has its record. -/
def close (survives : Node → Bool) (close : Node → Node) (s : Storage) (id : TxnId) :
    Option (Transaction × Storage) :=
  (s.transaction? id).map fun t =>
    (t, ⟨t.dirty.foldl (closeNode survives close) s.nodes, s.transactions.erase id⟩)

/-- Applies the pending changes of an open transaction and closes it. -/
def commit (s : Storage) (id : TxnId) : Option (Transaction × Storage) :=
  s.close Node.survivesCommit Node.commit id

/-- Drops the pending changes of an open transaction and closes it. -/
def rollback (s : Storage) (id : TxnId) : Option (Transaction × Storage) :=
  s.close Node.survivesRollback Node.rollback id

/-- What a transaction, or nobody in particular, can see. -/
def view (s : Storage) (schema : Schema) (txn : Option TxnId) : View :=
  { schema, rows := s.nodes.filterMap fun _ n => n.visible txn }

end Storage

end EntityStore
