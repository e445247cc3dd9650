import EntityStore.Json.Basic
import EntityStore.Decimal.Notation

/-! The compact text of a value, with the fields of an object in order. Only quotes, backslashes and
characters below U+0020 are escaped. -/

namespace EntityStore

/-- The integer in decimal digits. -/
def intDigits (n : Int) : List Char :=
  if n < 0 then '-' :: Nat.toDigits 10 n.natAbs else Nat.toDigits 10 n.natAbs

/-- A natural number in decimal digits. -/
def natText (n : Nat) : String := String.ofList (Nat.toDigits 10 n)

/-- A code point below `16 ^ 4` as four hexadecimal digits. -/
def hexDigits (n : Nat) : List Char :=
  let ds := Nat.toDigits 16 n
  List.replicate (4 - ds.length) '0' ++ ds

/-- The text of a number: the integer, or the fewest digits of the double. -/
def Number.text : Number → String
  | .int value => String.ofList (intDigits value)
  | .double value => Numeral.json.write value.toFloat

namespace Json

/-- A character inside a string. -/
def escape (c : Char) : List Char :=
  if c = '"' then ['\\', '"']
  else if c = '\\' then ['\\', '\\']
  else if c = '\n' then ['\\', 'n']
  else if c = '\r' then ['\\', 'r']
  else if c = '\t' then ['\\', 't']
  else if c = '\x08' then ['\\', 'b']
  else if c = '\x0c' then ['\\', 'f']
  else if c < ' ' then '\\' :: 'u' :: hexDigits c.toNat
  else [c]

/-- A text in quotes. -/
def quote (text : String) : String := "\"" ++ String.ofList (text.toList.flatMap escape) ++ "\""

mutual

/-- The compact text of a value. -/
def render : Json → String
  | .null => "null"
  | .bool true => "true"
  | .bool false => "false"
  | .num value => value.text
  | .str text => quote text
  | .arr items => "[" ++ ",".intercalate (renderList items) ++ "]"
  | .obj fields => "\x7b" ++ ",".intercalate (renderFields fields) ++ "\x7d"

/-- The texts of the items of an array. -/
def renderList : List Json → List String
  | [] => []
  | x :: xs => render x :: renderList xs

/-- The texts of the fields of an object. -/
def renderFields : List (String × Json) → List String
  | [] => []
  | (name, x) :: xs => (quote name ++ ":" ++ render x) :: renderFields xs

end

/-- The key of a value in a set of candidates: numbers by their double, the rest by their text. Both
zeros have their own key. -/
def memberKey : Json → String
  | .num value => "n:" ++ Numeral.plain.write value.toFloat
  | value => value.render

end Json

end EntityStore
