import EntityStore.Row.Storage

/-! Row changes: the single changes of rows that transactions make. `Storage.change` is the only way
in which a transaction alters the nodes; whatever a mutation does is a list of row changes. -/

namespace EntityStore

/-- A change of one row by a transaction. -/
inductive RowChange where
  /-- The row exists with these attributes and no others. -/
  | put (row : Row)
  /-- The attributes of the row are overridden. -/
  | merge (patch : Row)
  | delete
deriving DecidableEq

namespace RowChange

/-- What the change counts as. -/
def kind : RowChange → MutationKind
  | put _ => .create
  | merge _ => .update
  | delete => .remove

end RowChange

/-- The node of a row after a transaction changed the row. A row without a node can only be put. -/
def Node.changed (txn : TxnId) : Option Node → RowChange → Option Node
  | none, .put row => some (created row txn)
  | none, _ => none
  | some n, .put row => some ((n.adopt txn).setPending (.replace row))
  | some n, .merge patch => some ((n.adopt txn).setPending (n.amended patch))
  | some n, .delete => some ((n.adopt txn).setPending .remove)

/-- Makes a row change and enters it in the record of its transaction. -/
def Storage.change (s : Storage) (txn : TxnId) (key : RowKey) (c : RowChange) : Storage :=
  match Node.changed txn (s.node? key) c with
  | some n =>
    (s.insert key n).modifyTransaction txn fun t => (t.register key).record c.kind 1
  | none => s

namespace Storage

/-- A row change alters the node of its row and no other node. -/
theorem node?_change (s : Storage) (txn : TxnId) (key other : RowKey) (c : RowChange) :
    (s.change txn key c).node? other =
      if other = key then Node.changed txn (s.node? key) c else s.node? other := by
  unfold change
  cases h : Node.changed txn (s.node? key) c with
  | none =>
    by_cases ho : other = key
    · subst ho
      cases hn : s.node? other with
      | none => simp
      | some n => cases c <;> simp [hn, Node.changed] at h
    · simp [ho]
  | some n => simp [node?_insert]

/-- A row change that has an effect is entered in the record of its transaction and in no other. -/
theorem transaction?_change (s : Storage) (txn other : TxnId) (key : RowKey) (c : RowChange) :
    (s.change txn key c).transaction? other =
      if other = txn ∧ (Node.changed txn (s.node? key) c).isSome then
        (s.transaction? txn).map fun t => (t.register key).record c.kind 1
      else s.transaction? other := by
  unfold change
  cases Node.changed txn (s.node? key) c with
  | none => simp
  | some n => simp [transaction?_modifyTransaction]

end Storage

end EntityStore
