import Std.Data.ExtTreeMap
import EntityStore.Json.Basic

/-! Row keys, and maps from row keys in the order of entity and id. -/

namespace EntityStore

/-- The address of a row. -/
structure RowKey where
  entity : String
  id : String
deriving DecidableEq

namespace RowKey

/-- Keys are ordered by entity, and by id within one entity. -/
def order : RowKey → RowKey → Ordering := compareLex (compareOn RowKey.entity) (compareOn RowKey.id)

instance : Std.TransCmp order := inferInstanceAs (Std.TransCmp (compareLex _ _))

instance : Std.LawfulEqCmp order where
  eq_of_compare {a b} h := by
    obtain ⟨e, i⟩ := a
    obtain ⟨e', i'⟩ := b
    simp only [order, compareLex, compareOn, Ordering.then_eq_eq] at h
    obtain ⟨he, hi⟩ := h
    rw [Std.LawfulEqCmp.eq_of_compare he, Std.LawfulEqCmp.eq_of_compare hi]

theorem order_eq_eq_iff {a b : RowKey} : order a b = .eq ↔ a = b :=
  Std.LawfulEqCmp.compare_eq_iff_eq

end RowKey

/-- A map from row keys. -/
abbrev RowMap (β : Type) := Std.ExtTreeMap RowKey β RowKey.order

namespace RowMap

variable {β : Type}

/-- The entries of one entity, in the order of their ids. -/
def ofEntity (m : RowMap β) (entity : String) : List (String × β) :=
  (m.toList.filter fun entry => entry.1.entity = entity).map fun entry => (entry.1.id, entry.2)

end RowMap

end EntityStore
