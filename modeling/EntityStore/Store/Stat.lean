import EntityStore.Json.Record
import EntityStore.Row.Transaction
import EntityStore.Query.Selection

/-! Statistics: what all committed transactions have changed. -/

namespace EntityStore

/-- Totals over the committed transactions. -/
structure Stat where
  create : Nat := 0
  update : Nat := 0
  remove : Nat := 0
  commit : Nat := 0
deriving DecidableEq

namespace Stat

/-- Adds a committed transaction to the totals. -/
def absorb (s : Stat) (t : Transaction) : Stat :=
  { create := s.create + t.create, update := s.update + t.update, remove := s.remove + t.remove
    commit := s.commit + 1 }

/-- The names of the fields. -/
def fieldNames : List String := ["create", "update", "remove", "commit"]

/-- The statistics that a value gives. -/
def ofJson? (j : Json) : Option Stat := do
  let fields ← j.record? fieldNames
  return {
    create := ← fields.required? "create" Json.nat?
    update := ← fields.required? "update" Json.nat?
    remove := ← fields.required? "remove" Json.nat?
    commit := ← fields.required? "commit" Json.nat? }

/-- The statistics with all their fields. -/
def toJson (s : Stat) : Json :=
  .obj [("create", .ofNat s.create), ("update", .ofNat s.update), ("remove", .ofNat s.remove),
    ("commit", .ofNat s.commit)]

end Stat

end EntityStore
