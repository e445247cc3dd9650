import EntityStore.Json.Number
import EntityStore.Json.Fields

/-! JSON values. The entries of an object are kept in order, because filters and projections are
evaluated in the order in which they are written. -/

namespace EntityStore

/-- A JSON value. -/
inductive Json where
  | null
  | bool (value : Bool)
  | num (value : Number)
  | str (text : String)
  | arr (items : List Json)
  | obj (fields : List (String × Json))
deriving Inhabited

/-- An entity row: a value for each of its attributes. -/
abbrev Row := Fields Json

namespace Json

mutual

/-- Decides structural equality. -/
def decEq : (a b : Json) → Decidable (a = b)
  | .null, .null => isTrue rfl
  | .bool a, .bool b =>
    if h : a = b then isTrue (h ▸ rfl) else isFalse fun e => by cases e; exact h rfl
  | .num a, .num b =>
    if h : a = b then isTrue (h ▸ rfl) else isFalse fun e => by cases e; exact h rfl
  | .str a, .str b =>
    if h : a = b then isTrue (h ▸ rfl) else isFalse fun e => by cases e; exact h rfl
  | .arr a, .arr b =>
    match decEqList a b with
    | isTrue h => isTrue (h ▸ rfl)
    | isFalse h => isFalse fun e => by cases e; exact h rfl
  | .obj a, .obj b =>
    match decEqFields a b with
    | isTrue h => isTrue (h ▸ rfl)
    | isFalse h => isFalse fun e => by cases e; exact h rfl
  | .null, .bool _ | .null, .num _ | .null, .str _ | .null, .arr _ | .null, .obj _
  | .bool _, .null | .bool _, .num _ | .bool _, .str _ | .bool _, .arr _ | .bool _, .obj _
  | .num _, .null | .num _, .bool _ | .num _, .str _ | .num _, .arr _ | .num _, .obj _
  | .str _, .null | .str _, .bool _ | .str _, .num _ | .str _, .arr _ | .str _, .obj _
  | .arr _, .null | .arr _, .bool _ | .arr _, .num _ | .arr _, .str _ | .arr _, .obj _
  | .obj _, .null | .obj _, .bool _ | .obj _, .num _ | .obj _, .str _ | .obj _, .arr _ =>
    isFalse fun e => by cases e

/-- Decides structural equality of two arrays. -/
def decEqList : (a b : List Json) → Decidable (a = b)
  | [], [] => isTrue rfl
  | [], _ :: _ | _ :: _, [] => isFalse fun e => by cases e
  | x :: xs, y :: ys =>
    match decEq x y, decEqList xs ys with
    | isTrue h, isTrue hs => isTrue (h ▸ hs ▸ rfl)
    | isFalse h, _ => isFalse fun e => by cases e; exact h rfl
    | _, isFalse hs => isFalse fun e => by cases e; exact hs rfl

/-- Decides structural equality of two lists of fields. -/
def decEqFields : (a b : List (String × Json)) → Decidable (a = b)
  | [], [] => isTrue rfl
  | [], _ :: _ | _ :: _, [] => isFalse fun e => by cases e
  | (n, x) :: xs, (m, y) :: ys =>
    match decEq x y, decEqFields xs ys with
    | isTrue h, isTrue hs =>
      if hn : n = m then isTrue (hn ▸ h ▸ hs ▸ rfl) else isFalse fun e => by cases e; exact hn rfl
    | isFalse h, _ => isFalse fun e => by cases e; exact h rfl
    | _, isFalse hs => isFalse fun e => by cases e; exact hs rfl

end

instance : DecidableEq Json := decEq

/-- Whether a value is `null`. -/
def isNull : Json → Bool
  | .null => true
  | _ => false

/-- The text of a string. -/
def str? : Json → Option String
  | .str text => some text
  | _ => none

/-- The number of a number, as a double. -/
def float? : Json → Option Float
  | .num value => some value.toFloat
  | _ => none

/-- The fields of an object. -/
def obj? : Json → Option Row
  | .obj fields => some fields
  | _ => none

/-- What an object has under `name`. -/
def field? : Json → String → Option Json
  | .obj fields, name => Fields.get? fields name
  | _, _ => none

/-- A count as a value. -/
def ofNat (n : Nat) : Json := .num (.int n)

/-- A result of arithmetic as a value; `null` where it is infinite or not a number. -/
def ofFloat (x : Float) : Json :=
  match Number.ofFloat? x with
  | some n => .num n
  | none => .null

end Json

end EntityStore
