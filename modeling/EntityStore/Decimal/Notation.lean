import EntityStore.Decimal.Shortest

/-! How decimal digits are laid out as text: where the point stands, and when an exponent is
written. The decisions of a format are one `Numeral` value; `Numeral.json` and `Numeral.plain` are
the two in use. -/

namespace EntityStore

/-- The layout decisions of a number format. -/
structure Numeral where
  /-- Whether a number whose first digit stands for `10 ^ e` is written without an exponent. -/
  positional : Int → Bool
  /-- Whether a whole number gets `.0`. -/
  pointZero : Bool

namespace Numeral

/-- Doubles in JSON text: positional from `10 ^ -5` up to `10 ^ 15`, always with a point. -/
def json : Numeral := ⟨fun e => -5 ≤ e ∧ e ≤ 15, true⟩

/-- Doubles as keys of a set: never an exponent, and no point in a whole number. -/
def plain : Numeral := ⟨fun _ => true, false⟩

/-- The digits of a decimal without the zeros at its end, and the exponent of the first one. -/
def digits (d : Decimal) : List Char × Int :=
  let all := (Nat.toDigits 10 d.significand)
  let kept := (all.reverse.dropWhile (· == '0')).reverse
  (if kept.isEmpty then ['0'] else kept, d.exponent + all.length - 1)

/-- The magnitude of a number laid out. -/
def magnitude (format : Numeral) (d : Decimal) : List Char :=
  let (ds, e) := if d.significand = 0 then (['0'], 0) else digits d
  let zeros (n : Nat) : List Char := List.replicate n '0'
  if format.positional e then
    match e with
    | .negSucc k => ['0', '.'] ++ zeros k ++ ds
    | .ofNat k =>
      let whole := ds.take (k + 1) ++ zeros (k + 1 - ds.length)
      match ds.drop (k + 1) with
      | [] => whole ++ if format.pointZero then ['.', '0'] else []
      | fraction => whole ++ '.' :: fraction
  else
    let mantissa := match ds with
      | first :: second :: rest => first :: '.' :: second :: rest
      | _ => ds
    let sign := if e < 0 then '-' else '+'
    mantissa ++ 'e' :: sign :: Nat.toDigits 10 e.natAbs

/-- A finite double laid out with the fewest digits that read back. -/
def write (format : Numeral) (x : Float) : String :=
  let d := Dyadic.ofFloat x
  let text := magnitude format (Decimal.shortest d)
  String.ofList (if d.negative then '-' :: text else text)

end Numeral

end EntityStore
