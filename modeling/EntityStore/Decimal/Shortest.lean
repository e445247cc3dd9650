import EntityStore.Json.Number

/-! The fewest decimal digits that read back to a double.

A double stands for the interval of reals that round to it. `shortest` looks for the coarsest grid
of multiples of a power of ten with a point in that interval, and takes the point nearest to the
double. All arithmetic is on natural numbers, scaled so that the double is `4 * mantissa` and the
ends of its interval are whole. -/

namespace EntityStore

/-- The number `significand * 10 ^ exponent`. -/
structure Decimal where
  significand : Nat
  exponent : Int
deriving DecidableEq

namespace Decimal

/-- The reals that round to a double, as multiples of `2 ^ (exponent - 2)`. The interval holds its
ends when the mantissa is even. -/
structure Interval where
  low : Nat
  middle : Nat
  high : Nat
  closed : Bool
  exponent : Int

/-- The interval of a positive double. Below a power of two the doubles are twice as dense. -/
def Interval.of (d : Dyadic) : Interval where
  low := 4 * d.mantissa - if d.mantissa = Nat.pow 2 52 ∧ d.exponent ≠ -1074 then 1 else 2
  middle := 4 * d.mantissa
  high := 4 * d.mantissa + 2
  closed := d.mantissa % 2 == 0
  exponent := d.exponent - 2

/-- The ratio `2 ^ binary / 10 ^ decimal` as a fraction. -/
def gridRatio (binary decimal : Int) : Nat × Nat :=
  (Nat.pow 2 binary.toNat * Nat.pow 10 (-decimal).toNat,
    Nat.pow 2 (-binary).toNat * Nat.pow 10 decimal.toNat)

/-- The point of the grid `10 ^ exponent` that is in the interval and nearest to its middle, if
there is one. Of two equally near points the even one is taken. -/
def onGrid (i : Interval) (exponent : Int) : Option Nat :=
  let (up, down) := gridRatio i.exponent exponent
  let inside (point : Nat) : Bool :=
    if i.closed then i.low * up ≤ point * down && point * down ≤ i.high * up
    else i.low * up < point * down && point * down < i.high * up
  let below := i.middle * up / down
  let above := below + 1
  match decide (0 < below) && inside below, inside above with
  | false, false => none
  | true, false => some below
  | false, true => some above
  | true, true =>
    let toBelow := i.middle * up - below * down
    let toAbove := above * down - i.middle * up
    if toBelow < toAbove then some below
    else if toAbove < toBelow then some above
    else some (if below % 2 = 0 then below else above)

/-- The fewest digits that read back to the magnitude of a finite double. Grids are tried from one
above the double downwards; the one at seventeen digits always has a point. -/
def shortest (d : Dyadic) : Decimal :=
  if d.mantissa = 0 then ⟨0, 0⟩ else
    let top : Int := ((d.mantissa.log2 : Int) + d.exponent + 1) * 30103 / 100000 + 1
    let found := (List.range 21).findSome? fun (step : Nat) =>
      let exponent := top - step
      (onGrid (.of d) exponent).map fun point => (⟨point, exponent⟩ : Decimal)
    found.getD ⟨0, 0⟩

end Decimal

end EntityStore
