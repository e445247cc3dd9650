import EntityStore.Query.Condition
import EntityStore.Query.View

/-! Compiled filters.

A filter object is a conjunction of clauses under an optional label. Clauses hold further filters,
expressions, tests of one attribute, and filters on the row that a pointer leads to. A subquery is
known by its site, which says where in the filter it is written. -/

namespace EntityStore

/-- An order or equality test against a value. -/
inductive Comparison where
  | eq
  | ne
  | gt
  | gte
  | lt
  | lte
deriving DecidableEq

/-- The positions that lead to a part of a filter, innermost first. -/
abbrev Site := List Nat

mutual

/-- A compiled filter on the rows of one entity. -/
inductive Filter where
  /-- A label for the row, whether missing values pass, and the clauses that all have to hold. -/
  | mk (label : Option String) (obscure : Bool) (clauses : List Clause)

/-- A condition on one row. -/
inductive Clause where
  | and (parts : List Filter)
  | or (parts : List Filter)
  | not (part : Filter)
  | expr (e : Expression)
  /-- A text to be found in one of the attributes. -/
  | text (attributes : List String) (search : String)
  /-- Tests that the value of an attribute has to pass. -/
  | attribute (name : String) (tests : List Test)
  /-- A filter on the row that a pointer leads to. -/
  | relation (pointer : Pointer) (part : Filter)

/-- A test of one value. -/
inductive Test where
  | compare (op : Comparison) (operand : Json)
  | between (low high : Json)
  | startsWith (start : String)
  | endsWith (ending : String)
  | includes (operand : Json)
  /-- Whether there is a value other than `null`. -/
  | present (expected : Bool)
  | isIn (candidates : Candidates)
  | notIn (candidates : Candidates)

/-- A set of values, given by their keys. -/
inductive Candidates where
  | literal (keys : List String)
  /-- The values of an attribute over the rows of an entity that pass a filter. A correlated filter
  reads a label that is bound outside of it. -/
  | subquery (site : Site) (entity attr : String) (filter : Filter) (correlated : Bool)

end

namespace Filter

/-- The filter that every row passes. -/
def empty : Filter := .mk none false []

end Filter

namespace Comparison

/-- Whether a value can be compared with a bound and stands to it in one of the given ways. -/
def ordered (accept : Ordering → Bool) (value bound : Json) : Bool :=
  (value.compareScalar? bound).any accept

/-- Whether a value passes the test against an operand. -/
def test (op : Comparison) (value operand : Json) : Bool :=
  match op with
  | eq => value.equal operand
  | ne => !value.equal operand
  | gt => ordered Ordering.isGT value operand
  | gte => ordered Ordering.isGE value operand
  | lt => ordered Ordering.isLT value operand
  | lte => ordered Ordering.isLE value operand

end Comparison

namespace Test

/-- Whether a value is a text that begins with a text. -/
def begins (start : String) (value : Json) : Bool :=
  value.str?.any fun text => start.toList.isPrefixOf text.toList

/-- Whether a value is a text that ends with a text. -/
def ends (ending : String) (value : Json) : Bool :=
  value.str?.any fun text => ending.toList.isSuffixOf text.toList

/-- Whether a value is a text that holds the operand, or an array with an item equal to it. -/
def holds (operand value : Json) : Bool :=
  match value, operand with
  | .str text, .str part => Json.textHolds text.toList part.toList
  | .arr items, operand => items.any (Json.equal · operand)
  | _, _ => false

/-- Whether the test holds of an attribute that the row does not have. -/
def holdsOfAbsent : Test → Bool
  | .present false => true
  | _ => false

end Test

end EntityStore
