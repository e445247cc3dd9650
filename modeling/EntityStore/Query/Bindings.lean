import EntityStore.Query.Error

/-! Label bindings: the rows bound under `#id` labels while one row is filtered or projected, and
the labels that stay without a row because the relation they stand under leads nowhere. -/

namespace EntityStore

/-- Rows under labels, and the labels that are obscured. -/
structure Bindings where
  rows : Fields Row := []
  /-- Labels below a relation without a target, about which nothing can be disproved. -/
  obscured : List String := []
deriving DecidableEq

namespace Bindings

/-- The row bound under a label. -/
def get? (b : Bindings) (label : String) : Option Row := Fields.get? b.rows label

/-- Whether a label is bound. -/
def contains (b : Bindings) (label : String) : Bool := Fields.contains b.rows label

/-- Whether a label is obscured. -/
def isObscured (b : Bindings) (label : String) : Bool := label ∈ b.obscured

/-- The number of bound labels. -/
def size (b : Bindings) : Nat := b.rows.length

/-- Binds a label, over an earlier binding. -/
def set (b : Bindings) (label : String) (row : Row) : Bindings :=
  { b with rows := Fields.insert b.rows label row }

/-- Binds a label that is not bound yet. -/
def bind (b : Bindings) (label : String) (row : Row) : Except QueryError Bindings :=
  if b.contains label then .error (.duplicateLabel label) else .ok (b.set label row)

/-- Marks a label as obscured. -/
def obscure (b : Bindings) (label : String) : Bindings :=
  if b.isObscured label then b else { b with obscured := b.obscured ++ [label] }

end Bindings

end EntityStore
