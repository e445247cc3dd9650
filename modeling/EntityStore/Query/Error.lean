import EntityStore.Schema.Error
import EntityStore.Json.Printer

/-! What can be wrong with a query: in its form, or while a row is checked or projected. -/

namespace EntityStore

/-- What is wrong with the form of a query. -/
inductive Malformation where
  | filterNotObject (entity : String)
  /-- A label is not a string. -/
  | labelNotString
  /-- `$and` or `$or` without an array. -/
  | expectsArray (key : String)
  | textSearch
  | unsupportedLogical (key : String)
  | filterOnToMany (attr : String)
  | betweenBounds (attr : String)
  | existsFlag (attr : String)
  | unsupportedOperator (name attr : String)
  | stringOperand (name attr : String)
  | candidates (name attr : String)
  /-- A fault in the subquery of `$in` or `$nin`. -/
  | subquery (name attr : String) (fault : Malformation)
  | subqueryEntity
  | subqueryProjection
  | subqueryColumn (entity attr : String)
  | attributeReference
  | labelReference
  | unsupportedExpression (name : String)
  | argumentList (name : String)
  | argumentCount (name : String) (count : Nat)
  | selection
  | sorterNotArray
  | sortItem
  | sortDirection (direction : Json)
  | sortAttribute
  | sortOnToMany (attr : String)
  | projectionNotObject (attr : String)
deriving DecidableEq

/-- An error of a query. -/
inductive QueryError where
  | invalid (fault : Malformation)
  /-- An expression reads a label that its row never binds. -/
  | unresolved (label : String)
  /-- A label is bound twice for one row. -/
  | duplicateLabel (label : String)
  | schema (e : SchemaError)
deriving DecidableEq

/-- The wording of a malformation. -/
def Malformation.message : Malformation → String
  | .filterNotObject entity => s!"filter on {entity} must be an object"
  | .labelNotString => "#id must be a string"
  | .expectsArray key => s!"{key} expects an array"
  | .textSearch => "$text requires a string $search"
  | .unsupportedLogical key => s!"unsupported logical operator {key}"
  | .filterOnToMany attr => s!"one-to-many attribute {attr} cannot be filtered on"
  | .betweenBounds attr => s!"$between on {attr} expects [low, high]"
  | .existsFlag attr => s!"$exists on {attr} expects a bool"
  | .unsupportedOperator name attr => s!"unsupported operator {name} on {attr}"
  | .stringOperand name attr => s!"{name} on {attr} expects a string"
  | .candidates name attr => s!"{name} on {attr} expects an array or a subquery"
  | .subquery name attr fault => s!"{name} on {attr}: {fault.message}"
  | .subqueryEntity => "subquery requires an entity"
  | .subqueryProjection => "subquery must project exactly one attribute"
  | .subqueryColumn entity attr => s!"subquery attribute {entity}.{attr} is not a column"
  | .attributeReference => "malformed #attr reference"
  | .labelReference => "#refId requires a string #refAttr"
  | .unsupportedExpression name => s!"unsupported expression operator {name}"
  | .argumentList name => s!"{name} expects an argument list"
  | .argumentCount name count => s!"{name} given {natText count} arguments"
  | .selection => "malformed selection"
  | .sorterNotArray => "sorter must be an array"
  | .sortItem => "sort item requires $attr"
  | .sortDirection direction => s!"unsupported sort direction {direction.render}"
  | .sortAttribute => "sort $attr must name exactly one attribute"
  | .sortOnToMany attr => s!"cannot sort on one-to-many attribute {attr}"
  | .projectionNotObject attr => s!"projection of {attr} must be an object"

namespace QueryError

/-- The stable code of an error. -/
def code : QueryError → String
  | invalid _ => "QUERY_INVALID"
  | unresolved _ => "QUERY_EXPRESSION_UNRESOLVED"
  | duplicateLabel _ => "QUERY_DUPLICATE_NODE_ID"
  | schema e => e.code

/-- The wording of an error. -/
def message : QueryError → String
  | invalid fault => s!"Invalid query: {fault.message}"
  | unresolved label => s!"Expression unresolved: node '{label}' is never bound"
  | duplicateLabel label => s!"Duplicate node id '{label}'"
  | schema e => e.message

/-- Lifts the result of a schema look-up. -/
def ofSchema {α : Type} : Except SchemaError α → Except QueryError α
  | .ok a => .ok a
  | .error e => .error (.schema e)

end QueryError

end EntityStore
