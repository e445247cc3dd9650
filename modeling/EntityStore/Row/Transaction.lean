import EntityStore.Row.Key

/-! Transactions: who made a pending change, which rows it touched, and what it counts. -/

namespace EntityStore

/-- The identity of a transaction: a number that tells it from all others, and the name under which
it is shown. -/
structure TxnId where
  serial : Nat
  name : String
deriving DecidableEq

namespace TxnId

/-- Transactions are ordered by number, and by name where numbers agree. -/
def order : TxnId → TxnId → Ordering := compareLex (compareOn TxnId.serial) (compareOn TxnId.name)

instance : Std.TransCmp order := inferInstanceAs (Std.TransCmp (compareLex _ _))

instance : Std.LawfulEqCmp order where
  eq_of_compare {a b} h := by
    obtain ⟨s, n⟩ := a
    obtain ⟨s', n'⟩ := b
    simp only [order, compareLex, compareOn, Ordering.then_eq_eq] at h
    obtain ⟨hs, hn⟩ := h
    rw [Std.LawfulEqCmp.eq_of_compare hs, Std.LawfulEqCmp.eq_of_compare hn]

theorem order_eq_eq_iff {a b : TxnId} : order a b = .eq ↔ a = b := Std.LawfulEqCmp.compare_eq_iff_eq

end TxnId

/-- What a change of a row counts as. -/
inductive MutationKind where
  | create
  | update
  | remove
deriving DecidableEq

/-- What a transaction has done so far. -/
structure Transaction where
  id : TxnId
  create : Nat := 0
  update : Nat := 0
  remove : Nat := 0
  /-- The rows it touched, each once, in the order of the first touch. -/
  dirty : List RowKey := []
deriving DecidableEq

namespace Transaction

/-- Notes that a row was touched. -/
def register (t : Transaction) (key : RowKey) : Transaction :=
  if key ∈ t.dirty then t else { t with dirty := t.dirty ++ [key] }

/-- Counts changed rows. -/
def record (t : Transaction) (kind : MutationKind) (rows : Nat) : Transaction :=
  match kind with
  | .create => { t with create := t.create + rows }
  | .update => { t with update := t.update + rows }
  | .remove => { t with remove := t.remove + rows }

end Transaction

end EntityStore
