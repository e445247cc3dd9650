import EntityStore.Query.Operator
import EntityStore.Query.Error

/-! Scalar expressions and their JSON forms.

`{"#attr": "a"}` is an attribute of the row at hand, `{"#refId": "n", "#refAttr": "a"}` an attribute
of the row bound as `n`, `{"$op": [args]}` an operator, and everything else a constant. -/

namespace EntityStore

/-- A scalar expression. -/
inductive Expression where
  | const (value : Json)
  /-- An attribute of the row at hand. -/
  | attr (name : String)
  /-- An attribute of the row bound under a label. -/
  | ref (label attr : String)
  | unary (op : UnaryOp) (arg : Expression)
  | multi (op : MultiOp) (args : List Expression)
deriving Inhabited

namespace Expression

/-- Whether a text is `$expr`, or `$expr` and digits: the key of an expression. -/
def isKey (key : String) : Bool :=
  "$expr".toList.isPrefixOf key.toList && (key.toList.drop 5).all Char.isDigit

/-- Whether a key is written like an operator. -/
def isOperatorKey (key : String) : Bool := key.toList.head? == some '$'

/-- An error in the form of a query. -/
def malformed {α : Type} (fault : Malformation) : Except QueryError α := .error (.invalid fault)

/-- The reference that an object is, or the fault in it, if it has a field of a reference. -/
def reference? (fields : List (String × Json)) : Option (Except QueryError Expression) :=
  match Fields.get? fields "#attr" with
  | some value =>
    match fields, value with
    | [_], .str name => some (.ok (.attr name))
    | _, _ => some (malformed .attributeReference)
  | none =>
    if Fields.contains fields "#refId" then
      match fields.length, Fields.get? fields "#refId", Fields.get? fields "#refAttr" with
      | 2, some (.str label), some (.str name) => some (.ok (.ref label name))
      | _, _, _ => some (malformed .labelReference)
    else none

mutual

/-- Reads an expression. -/
def parse : Json → Except QueryError Expression
  | .obj fields =>
    match reference? fields with
    | some result => result
    | none => parseFields fields
  | value => .ok (.const value)

/-- Reads an object that is no reference: an operator if its only name is one, else a constant. -/
def parseFields : List (String × Json) → Except QueryError Expression
  | [(name, payload)] =>
    match MultiOp.ofName? name with
    | some op =>
      match payload with
      | .arr items =>
        if op.accepts items.length then (parseList items).map (.multi op)
        else malformed (.argumentCount name items.length)
      | _ => malformed (.argumentList name)
    | none =>
      match UnaryOp.ofName? name with
      | some op =>
        let whole := parse payload
        let arg := match payload with
          | .arr [arg] => parse arg
          | _ => whole
        arg.map (.unary op)
      | none =>
        if isOperatorKey name then malformed (.unsupportedExpression name)
        else .ok (.const (.obj [(name, payload)]))
  | fields => .ok (.const (.obj fields))

/-- Reads the arguments of an operator. -/
def parseList : List Json → Except QueryError (List Expression)
  | [] => .ok []
  | x :: xs => do return (← parse x) :: (← parseList xs)

end

end Expression

end EntityStore
