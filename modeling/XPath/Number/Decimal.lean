import XPath.Number.Dyadic

/-!
# Decimal digits of a number

Two ways to write a magnitude in decimals. `shortest` gives the fewest significant digits that
read back as the same double, and of those the nearest; `fixed` rounds the exact value to a given
number of places, a tie going to the even digit.
-/

namespace XPath.Number

/-- The digits of a number without leading zeros, except that zero is `0`. -/
def digitsOf (n : Nat) : List Char := (toString n).toList

/-- A magnitude `digits · 10 ^ exponent`. -/
structure Decimal where
  digits : Nat
  exponent : Int
  deriving DecidableEq, Repr, Inhabited

/-- The numbers that read back as a double lie between `low` and `high`, with the double itself at
`value`, all in units of `2 ^ unit`. The ends belong to them when the mantissa is even. -/
structure Neighbourhood where
  low : Nat
  value : Nat
  high : Nat
  unit : Int
  closed : Bool
  deriving Repr

/-- The neighbourhood of `mantissa · 2 ^ exponent`. Below a power of two doubles lie twice as
dense as above it. -/
def neighbourhood (mantissa : Nat) (exponent : Int) : Neighbourhood :=
  let narrow := mantissa == 1 <<< 52 && exponent > -1074
  ⟨4 * mantissa - (if narrow then 1 else 2), 4 * mantissa, 4 * mantissa + 2, exponent - 2,
    mantissa % 2 == 0⟩

namespace Neighbourhood

/-- Factors that bring multiples of `2 ^ unit` and of `10 ^ grid` to one scale of whole numbers. -/
def factors (h : Neighbourhood) (grid : Int) : Nat × Nat :=
  (Nat.pow 10 (-grid).toNat <<< h.unit.toNat, Nat.pow 10 grid.toNat <<< (-h.unit).toNat)

def reads (h : Neighbourhood) (grid : Int) (n : Nat) : Bool :=
  let (binary, decimal) := h.factors grid
  if h.closed then h.low * binary ≤ n * decimal && n * decimal ≤ h.high * binary
  else h.low * binary < n * decimal && n * decimal < h.high * binary

/-- The last point of the grid `10 ^ grid` that is not above the value. -/
def below (h : Neighbourhood) (grid : Int) : Nat :=
  let (binary, decimal) := h.factors grid
  h.value * binary / decimal

/-- The point of the grid that is nearest to the value, of those that read back as it; a tie goes
to the larger one. -/
def nearest? (h : Neighbourhood) (grid : Int) : Option Nat :=
  let (binary, decimal) := h.factors grid
  let n := h.below grid
  match n != 0 && h.reads grid n, h.reads grid (n + 1) with
  | true, true => some (if 2 * h.value * binary < (2 * n + 1) * decimal then n else n + 1)
  | true, false => some n
  | false, true => some (n + 1)
  | false, false => none

/-- The number of digits before the decimal point of the value, not positive for a value below
one tenth. -/
def magnitude (h : Neighbourhood) : Int :=
  let shift := if h.unit ≥ 0 then 0 else 400
  (digitsOf (h.below (-shift))).length - shift

/-- Tries the grids from one significant digit upwards, where the value has `top` digits before
the point. -/
def search (h : Neighbourhood) (top : Int) : Nat → Nat → Decimal
  | 0, count => ⟨h.below (top - count), top - count⟩
  | fuel + 1, count =>
    match h.nearest? (top - count) with
    | some digits => ⟨digits, top - count⟩
    | none => search h top fuel (count + 1)

end Neighbourhood

/-- The shortest decimal that reads back as `mantissa · 2 ^ exponent`, a positive double.
Seventeen digits always read back. -/
def shortest (mantissa : Nat) (exponent : Int) : Decimal :=
  let h := neighbourhood mantissa exponent
  h.search h.magnitude 17 1

/-- The decimal in positional notation, without an exponent and without needless zeros. -/
def Decimal.positional (d : Decimal) : List Char :=
  let digits := digitsOf d.digits
  if d.exponent ≥ 0 then digits ++ List.replicate d.exponent.toNat '0'
  else
    let places := (-d.exponent).toNat
    let padded := List.replicate (places + 1 - digits.length) '0' ++ digits
    let whole := padded.take (padded.length - places)
    let fraction := (padded.drop (padded.length - places)).reverse.dropWhile (· == '0')
    if fraction.isEmpty then whole else whole ++ '.' :: fraction.reverse

/-- The quotient to the nearest natural number, a tie going to the even one. -/
def roundDiv (num den : Nat) : Nat :=
  let q := num / den
  let twice := 2 * (num % den)
  if twice < den then q
  else if twice > den then q + 1
  else if q % 2 == 0 then q else q + 1

/-- A finite magnitude with exactly `places` digits after the point, and no point for none. -/
def fixed (d : Dyadic) (places : Nat) : List Char :=
  let scaled := roundDiv ((d.mantissa <<< d.exponent.toNat) * Nat.pow 10 places)
    (1 <<< (-d.exponent).toNat)
  let digits := digitsOf scaled
  let padded := List.replicate (places + 1 - digits.length) '0' ++ digits
  let whole := padded.take (padded.length - places)
  if places == 0 then whole else whole ++ '.' :: padded.drop (padded.length - places)

end XPath.Number
