import EntityStore.Json.Compare
import EntityStore.Json.Printer

/-! The operators of expressions. An operator is total on values: where its arguments do not fit, an
arithmetic operator gives `null` and a test gives `false`. -/

namespace EntityStore

/-- An operator with one argument. -/
inductive UnaryOp where
  | not
  | abs
  | round
  | floor
  | ceil
  | length
deriving DecidableEq

namespace UnaryOp

/-- Every unary operator. -/
def all : List UnaryOp := [not, abs, round, floor, ceil, length]

/-- The key of the operator in an expression. -/
def name : UnaryOp → String
  | not => "$not"
  | abs => "$abs"
  | round => "$round"
  | floor => "$floor"
  | ceil => "$ceil"
  | length => "$length"

/-- The operator with a key. -/
def ofName? (name : String) : Option UnaryOp := all.find? (·.name = name)

/-- Applies a function to a number; anything else gives `null`. -/
def numeric (f : Float → Float) (arg : Json) : Json :=
  match arg.float? with
  | some x => .ofFloat (f x)
  | none => .null

/-- The value of the operator. Halves are rounded away from zero, and the length of a text is the
number of its characters. -/
def apply (op : UnaryOp) (arg : Json) : Json :=
  match op with
  | not => .bool (!arg.truthy)
  | abs => numeric Float.abs arg
  | round => numeric Float.round arg
  | floor => numeric Float.floor arg
  | ceil => numeric Float.ceil arg
  | length =>
    match arg with
    | .str text => .ofNat text.length
    | .arr items => .ofNat items.length
    | _ => .null

end UnaryOp

/-- An operator with a list of arguments. -/
inductive MultiOp where
  | eq
  | ne
  | gt
  | gte
  | lt
  | lte
  | and
  | or
  | add
  | subtract
  | multiply
  | divide
  | mod
  | pow
  | concat
  | startsWith
  | endsWith
  | includes
deriving DecidableEq

namespace MultiOp

/-- Every operator with a list of arguments. -/
def all : List MultiOp :=
  [eq, ne, gt, gte, lt, lte, and, or, add, subtract, multiply, divide, mod, pow, concat, startsWith,
    endsWith, includes]

/-- The key of the operator in an expression. -/
def name : MultiOp → String
  | eq => "$eq"
  | ne => "$ne"
  | gt => "$gt"
  | gte => "$gte"
  | lt => "$lt"
  | lte => "$lte"
  | and => "$and"
  | or => "$or"
  | add => "$add"
  | subtract => "$subtract"
  | multiply => "$multiply"
  | divide => "$divide"
  | mod => "$mod"
  | pow => "$pow"
  | concat => "$concat"
  | startsWith => "$startsWith"
  | endsWith => "$endsWith"
  | includes => "$includes"

/-- The operator with a key. -/
def ofName? (name : String) : Option MultiOp := all.find? (·.name = name)

/-- Whether the operator takes exactly two arguments; the others take one or more. -/
def isBinary : MultiOp → Bool
  | and | or | add | multiply | concat => false
  | _ => true

/-- Whether an operator takes this number of arguments. -/
def accepts (op : MultiOp) (count : Nat) : Bool :=
  if op.isBinary then count == 2 else count != 0

/-- Combines numbers from left to right; `null` if some argument is no number. -/
def foldNumbers (start : Float) (f : Float → Float → Float) (args : List Json) : Json :=
  match args.mapM Json.float? with
  | some xs => .ofFloat (xs.foldl f start)
  | none => .null

/-- Combines two numbers; `null` if one of them is none or the operation has no result. -/
def binaryNumbers (f : Float → Float → Option Float) (a b : Json) : Json :=
  match a.float?, b.float? with
  | some x, some y => ((f x y).map Json.ofFloat).getD .null
  | _, _ => .null

/-- The text of a value inside a concatenation. -/
def concatText? : Json → Option String
  | .str text => some text
  | .num value => some value.text
  | .bool value => some (if value then "true" else "false")
  | _ => none

/-- The remainder of a division that rounds toward zero. -/
def remainder (x y : Float) : Float := ((Dyadic.ofFloat x).remainder (.ofFloat y)).toFloat

/-- Whether two values are ordered in one of the given ways. -/
def ordered (accept : Ordering → Bool) (a b : Json) : Bool :=
  match Json.compareScalar? a b with
  | some o => accept o
  | none => false

/-- Whether both arguments are texts and the first one begins with the second one. -/
def begins : Json → Json → Bool
  | .str text, .str start => start.toList.isPrefixOf text.toList
  | _, _ => false

/-- Whether both arguments are texts and the first one ends with the second one. -/
def ends : Json → Json → Bool
  | .str text, .str ending => ending.toList.isSuffixOf text.toList
  | _, _ => false

/-- Whether the first argument is a text that holds the second one, or an array with an item equal
to it. -/
def holds : Json → Json → Bool
  | .str text, .str part => Json.textHolds text.toList part.toList
  | .arr items, value => items.any (Json.equal · value)
  | _, _ => false

/-- The value of an operator on two arguments. -/
def applyBinary (op : MultiOp) (a b : Json) : Json :=
  match op with
  | eq => .bool (a.equal b)
  | ne => .bool (!a.equal b)
  | gt => .bool (ordered Ordering.isGT a b)
  | gte => .bool (ordered Ordering.isGE a b)
  | lt => .bool (ordered Ordering.isLT a b)
  | lte => .bool (ordered Ordering.isLE a b)
  | subtract => binaryNumbers (fun x y => some (x - y)) a b
  | divide => binaryNumbers (fun x y => if y == 0 then none else some (x / y)) a b
  | mod => binaryNumbers (fun x y => if y == 0 then none else some (remainder x y)) a b
  | pow => binaryNumbers (fun x y => some (Float.pow x y)) a b
  | startsWith => .bool (begins a b)
  | endsWith => .bool (ends a b)
  | includes => .bool (holds a b)
  | _ => .null

/-- The value of an operator on any number of arguments. -/
def apply (op : MultiOp) (args : List Json) : Json :=
  match op, args with
  | and, args => .bool (args.all Json.truthy)
  | or, args => .bool (args.any Json.truthy)
  | add, args => foldNumbers 0 (· + ·) args
  | multiply, args => foldNumbers 1 (· * ·) args
  | concat, args =>
    match args.mapM concatText? with
    | some texts => .str (String.join texts)
    | none => .null
  | op, [a, b] => op.applyBinary a b
  | _, _ => .null

end MultiOp

end EntityStore
