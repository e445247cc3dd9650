import EntityStore.Json.Basic

/-! How values are compared: truth, equality and order.

At top level numbers are compared by value, so `1` equals `1.0`; inside arrays and objects an
integer is never equal to a double (`same`). Sorting uses a total order in which values of
different kinds are ranked by kind, and arrays and objects tie among themselves (`compare`). -/

namespace EntityStore.Json

/-- `null`, `false`, zero and the empty string are false; every other value is true. -/
def truthy : Json → Bool
  | .null => false
  | .bool value => value
  | .num value => value.rank != 0
  | .str text => text != ""
  | .arr _ | .obj _ => true

mutual

/-- Equality without conversions. Objects are compared by name, in any order. -/
def same : Json → Json → Bool
  | .null, .null => true
  | .bool a, .bool b => a == b
  | .num a, .num b => a.same b
  | .str a, .str b => a == b
  | .arr a, .arr b => sameList a b
  | .obj a, .obj b => a.length == b.length && sameFields a b
  | _, _ => false

/-- Two arrays are the same when they agree item by item. -/
def sameList : List Json → List Json → Bool
  | [], [] => true
  | x :: xs, y :: ys => same x y && sameList xs ys
  | _, _ => false

/-- Whether every field is found, with the same value, among the other fields. -/
def sameFields : List (String × Json) → List (String × Json) → Bool
  | [], _ => true
  | (name, x) :: xs, other =>
    (match Fields.get? other name with
      | some y => same x y
      | none => false) && sameFields xs other

end

/-- Equality of two values: numbers by value, everything else as it is. -/
def equal : Json → Json → Bool
  | .num a, .num b => a.rank == b.rank
  | a, b => same a b

/-- The order of two numbers, two strings or two truth values. Other pairs have none. -/
def compareScalar? : Json → Json → Option Ordering
  | .num a, .num b => some (Ord.compare a.rank b.rank)
  | .str a, .str b => some (Ord.compare a b)
  | .bool a, .bool b => some (Ord.compare a.toNat b.toNat)
  | _, _ => none

/-- The rank of a value's kind in the order used for sorting. -/
def kindRank : Json → Nat
  | .null => 0
  | .bool _ => 1
  | .num _ => 2
  | .str _ => 3
  | .arr _ => 4
  | .obj _ => 5

/-- The order used for sorting: by kind first, by value within one kind. -/
def compare (a b : Json) : Ordering :=
  (Ord.compare a.kindRank b.kindRank).then ((compareScalar? a b).getD .eq)

/-- Whether `text` holds `part`, the empty text included. -/
def textHolds (text part : List Char) : Bool :=
  match text with
  | [] => part.isEmpty
  | _ :: rest => part.isPrefixOf text || textHolds rest part

end EntityStore.Json
