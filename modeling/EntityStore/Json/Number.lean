/-! The numbers of a JSON value: integers, and finite doubles in the format of 64 bits.

An integer and a double are different values even where they denote the same number (`1` and
`1.0`); they are compared through the double nearest to the integer. The order is read off the bits
of that double (`Number.rank`), so it is an order of integers and total by construction; both zeros
have one rank. -/

namespace EntityStore

/-- A finite double. -/
structure Double where
  toFloat : Float
  finite : toFloat.isFinite = true
deriving DecidableEq

namespace Double

/-- The double as a value, unless it is infinite or not a number. -/
def ofFloat? (x : Float) : Option Double :=
  if h : x.isFinite = true then some ⟨x, h⟩ else none

end Double

/-- A double taken apart: its sign, and `mantissa * 2 ^ exponent` for its magnitude. -/
structure Dyadic where
  negative : Bool
  mantissa : Nat
  exponent : Int
deriving DecidableEq

namespace Dyadic

/-- A finite double as sign, mantissa and binary exponent. -/
def ofFloat (x : Float) : Dyadic :=
  let bits : Nat := x.toBits.toNat
  let biased : Nat := bits / Nat.pow 2 52 % Nat.pow 2 11
  let fraction : Nat := bits % Nat.pow 2 52
  { negative := decide (Nat.pow 2 63 ≤ bits)
    mantissa := if biased = 0 then fraction else Nat.pow 2 52 + fraction
    exponent := if biased = 0 then -1074 else (biased : Int) - 1075 }

/-- The double nearest to a dyadic number; exact where the number is one. -/
def toFloat (d : Dyadic) : Float :=
  let magnitude := match d.exponent with
    | .ofNat e => Float.ofNat (d.mantissa * Nat.pow 2 e)
    | .negSucc e => Float.ofScientific (d.mantissa * Nat.pow 5 (e + 1)) true (e + 1)
  if d.negative then -magnitude else magnitude

/-- The number as an integer, if it is one. -/
def toInt? (d : Dyadic) : Option Int :=
  let magnitude? : Option Nat := match d.exponent with
    | .ofNat e => some (d.mantissa * Nat.pow 2 e)
    | .negSucc e =>
      if d.mantissa % Nat.pow 2 (e + 1) = 0 then some (d.mantissa / Nat.pow 2 (e + 1)) else none
  magnitude?.map fun n => if d.negative then -(n : Int) else n

/-- The remainder of `a` by `b` with the sign of `a`, without rounding. The divisor is not zero. -/
def remainder (a b : Dyadic) : Dyadic :=
  let exponent := min a.exponent b.exponent
  let scaled (d : Dyadic) : Nat := d.mantissa * Nat.pow 2 (d.exponent - exponent).toNat
  { negative := a.negative, mantissa := scaled a % scaled b, exponent }

end Dyadic

/-- A JSON number. -/
inductive Number where
  /-- A number written without a point or an exponent, small enough for 64 bits. -/
  | int (value : Int)
  /-- Any other number. -/
  | double (value : Double)
deriving DecidableEq

namespace Number

/-- The nearest double. -/
def toFloat : Number → Float
  | .int value => Float.ofInt value
  | .double value => value.toFloat

/-- The place of the nearest double among all doubles, as an integer; both zeros are at `0`. -/
def rank (n : Number) : Int :=
  let bits := n.toFloat.toBits.toNat
  if bits < Nat.pow 2 63 then bits else -((bits : Int) - (Nat.pow 2 63 : Nat))

/-- Whether two numbers inside arrays or objects are the same: an integer is never a double. -/
def same : Number → Number → Bool
  | .int a, .int b => a == b
  | .double a, .double b => rank (.double a) == rank (.double b)
  | _, _ => false

/-- A result of arithmetic as a number: an integer where it is whole and below `9 * 10 ^ 15`,
`none` where it is infinite or not a number. -/
def ofFloat? (x : Float) : Option Number :=
  (Double.ofFloat? x).map fun d =>
    match (Dyadic.ofFloat d.toFloat).toInt? with
    | some n => if n.natAbs < 9000000000000000 then .int n else .double d
    | none => .double d

end Number

end EntityStore
