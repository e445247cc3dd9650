import EntityStore.Row.Transaction

/-! Row nodes: the committed row with at most one pending change, which belongs to one transaction.

A row is created, committed, updated, committed, removed, and with the last commit it is gone. Until
a change is committed only its owner sees it. All that the owner changes is one pending change. -/

namespace EntityStore

/-- A change that is not committed. -/
inductive PendingChange where
  /-- Attributes that override those of the committed row. -/
  | write (patch : Row)
  | remove
  /-- The row that takes the place of the committed one. -/
  | replace (row : Row)
deriving DecidableEq

/-- A stored row. -/
structure Node where
  /-- The committed row; there is none before its creation is committed. -/
  current : Option Row
  pending : Option PendingChange
  /-- The transaction that holds the pending change. -/
  owner : Option TxnId
deriving DecidableEq

namespace Node

/-- The row that a transaction creates. -/
def created (row : Row) (txn : TxnId) : Node := ⟨none, some (.write row), some txn⟩

/-- A committed row without a pending change. -/
def committed (row : Row) : Node := ⟨some row, none, none⟩

/-- Whether some transaction owns the node. -/
def isDirty (n : Node) : Bool := n.owner.isSome

/-- The committed row with the attributes of a patch. -/
def patched (n : Node) (patch : Row) : Row := Fields.merge (n.current.getD []) patch

/-- The row as a transaction sees it: with its own pending change, without those of others. -/
def visible (n : Node) (txn : Option TxnId) : Option Row :=
  if txn.isSome ∧ n.owner = txn then
    match n.pending with
    | some .remove => none
    | some (.write patch) => some (n.patched patch)
    | some (.replace row) => some row
    | none => n.current
  else n.current

/-- Whether a transaction may own the node: nobody else does. -/
def isFreeFor (n : Node) (txn : TxnId) : Bool := n.owner.all (· = txn)

/-- Makes a transaction the owner, unless another one is. -/
def adopt (n : Node) (txn : TxnId) : Node :=
  if n.isFreeFor txn then { n with owner := some txn } else n

/-- Puts a pending change in the place of the one there is. -/
def setPending (n : Node) (change : PendingChange) : Node := { n with pending := some change }

/-- The pending change that a further patch leads to. -/
def amended (n : Node) (patch : Row) : PendingChange :=
  match n.pending with
  | some (.write earlier) => .write (Fields.merge earlier patch)
  | some (.replace row) => .replace (Fields.merge row patch)
  | _ => .write patch

/-- The node after its pending change was applied. -/
def commit (n : Node) : Node :=
  let current := match n.pending with
    | some (.write patch) => some (n.patched patch)
    | some (.replace row) => some row
    | _ => n.current
  ⟨current, none, none⟩

/-- Whether the row exists after its pending change was applied. -/
def survivesCommit (n : Node) : Bool :=
  match n.pending with
  | some .remove => false
  | some _ => true
  | none => n.current.isSome

/-- The node after its pending change was dropped. -/
def rollback (n : Node) : Node := ⟨n.current, none, none⟩

/-- Whether the row exists after its pending change was dropped. -/
def survivesRollback (n : Node) : Bool := n.current.isSome

end Node

end EntityStore
