import EntityStore.Json.Number

/-! Numbers as they are written in JSON text, and the values they stand for.

A double is read by scaling: the digits that fit in 64 bits make a significand, the remaining ones
only move the point, and the significand is multiplied or divided once by a power of ten. The result
may differ from the nearest double in the last place. -/

namespace EntityStore

/-- A number as written: digits before and after the point, and the digits of the exponent. -/
structure NumberLiteral where
  negative : Bool
  whole : List Nat
  fraction : Option (List Nat)
  /-- The sign and the digits of the exponent; `true` is a negative exponent. -/
  exponent : Option (Bool × List Nat)

namespace NumberLiteral

/-- The longest run of digits that keeps the significand in 64 bits, with the digits left over. -/
def significand (start : Nat) : List Nat → Nat × List Nat
  | [] => (start, [])
  | d :: rest =>
    if start * 10 + d < Nat.pow 2 64 then significand (start * 10 + d) rest else (start, d :: rest)

/-- A double with a sign. -/
def signed (negative : Bool) (x : Float) : Option Number :=
  (Double.ofFloat? (if negative then -x else x)).map .double

/-- The double `x * 10 ^ exponent`, scaled by at most `10 ^ 308` at a time; `none` if it is too
large. -/
def scale (x : Float) (exponent : Int) : Option Float :=
  if exponent.natAbs ≤ 308 then
    let power := Float.ofScientific 1 false exponent.natAbs
    if exponent < 0 then some (x / power)
    else if (x * power).isFinite then some (x * power) else none
  else if x == 0 then some x
  else if h : 0 ≤ exponent then none
  else scale (x / Float.ofScientific 1 false 308) (exponent + 308)
termination_by exponent.natAbs
decreasing_by omega

/-- The value of digits in base ten. -/
def decimalValue (digits : List Nat) : Nat := digits.foldl (fun n d => n * 10 + d) 0

/-- The number a literal stands for, or `none` if it is too large for a double. -/
def value? (n : NumberLiteral) : Option Number :=
  let (head, leftOver) := significand 0 n.whole
  match n.fraction, n.exponent, leftOver with
  | none, none, [] =>
    if n.negative then
      if 0 < head ∧ head ≤ Nat.pow 2 63 then some (.int (-(head : Int)))
      else signed true head.toUInt64.toFloat
    else some (.int head)
  | _, _, _ =>
    let (digits, fractionUsed) := match n.fraction with
      | none => (head, 0)
      | some ds => let (s, unused) := significand head ds; (s, ds.length - unused.length)
    let point : Int := (leftOver.length : Int) - fractionUsed
    match n.exponent with
    | none => (scale digits.toUInt64.toFloat point).bind (signed n.negative)
    | some (down, ds) =>
      let e := decimalValue ds
      if Nat.pow 2 31 ≤ e then
        if digits ≠ 0 ∧ down = false then none else signed n.negative 0
      else
        let total := if down then point - e else point + e
        (scale digits.toUInt64.toFloat total).bind (signed n.negative)

/-- The run of digits a text begins with, and the rest. -/
def digits (cs : List Char) : List Nat × List Char :=
  (cs.takeWhile Char.isDigit |>.map fun c => c.toNat - '0'.toNat, cs.dropWhile Char.isDigit)

/-- The exponent of a literal, if `cs` is one or is empty. -/
def exponentOf? (cs : List Char) : Option (Option (Bool × List Nat)) :=
  let checked (down : Bool) (rest : List Char) : Option (Option (Bool × List Nat)) :=
    match digits rest with
    | (d :: ds, []) => some (some (down, d :: ds))
    | _ => none
  match cs with
  | [] => some none
  | c :: rest =>
    if c = 'e' ∨ c = 'E' then
      match rest with
      | '+' :: ds => checked false ds
      | '-' :: ds => checked true ds
      | ds => checked false ds
    else none

/-- Reads a whole text as a number: no leading zeros, and digits on both sides of a point. -/
def ofChars? (cs : List Char) : Option NumberLiteral := do
  let (negative, unsigned) := match cs with
    | '-' :: rest => (true, rest)
    | _ => (false, cs)
  let (whole, rest) := digits unsigned
  guard (whole = [0] ∨ (whole ≠ [] ∧ whole.head? ≠ some 0))
  match rest with
  | '.' :: afterPoint =>
    let (fraction, rest) := digits afterPoint
    guard (fraction ≠ [])
    return ⟨negative, whole, some fraction, ← exponentOf? rest⟩
  | _ => return ⟨negative, whole, none, ← exponentOf? rest⟩

end NumberLiteral

end EntityStore
