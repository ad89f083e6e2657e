/-!
# Floats as exact numbers

A finite double is a natural number times a power of two, with a sign. Everything that must be
exact (digits, rounding to integers, remainders) is computed on this view in `Nat` and comes back
through `Dyadic.toFloat`, which is exact for every number that a double can hold.
-/

namespace XPath.Number

/-- The number `mantissa · 2 ^ exponent`, with a sign that zero has too. -/
structure Dyadic where
  negative : Bool
  mantissa : Nat
  exponent : Int
  deriving DecidableEq, Repr, Inhabited

/-- The value of a finite double; `none` for infinities and NaN. -/
def Dyadic.ofFloat? (x : Float) : Option Dyadic :=
  let bits : Nat := x.toBits.toNat
  let negative := bits >>> 63 == 1
  let field : Nat := (bits >>> 52) % 2048
  let fraction : Nat := bits % (1 <<< 52)
  if field == 2047 then none
  else if field == 0 then some ⟨negative, fraction, -1074⟩
  else some ⟨negative, fraction + (1 <<< 52), (field : Int) - 1075⟩

/-- The double with the value of `d`, when there is one: at most 53 significant bits and an
exponent in range. -/
def Dyadic.toFloat (d : Dyadic) : Float :=
  let sign : Nat := if d.negative then 1 <<< 63 else 0
  if d.mantissa == 0 then Float.ofBits (UInt64.ofNat sign)
  else
    let width := d.mantissa.log2 + 1
    let top := d.exponent + width - 1
    if top < -1022 then
      let fraction := scale d.mantissa (d.exponent + 1074)
      Float.ofBits (UInt64.ofNat (sign + fraction))
    else
      let fraction := scale d.mantissa (53 - width)
      Float.ofBits (UInt64.ofNat (sign + ((top + 1023).toNat <<< 52) + (fraction - (1 <<< 52))))
where
  scale (m : Nat) (e : Int) : Nat :=
    if e ≥ 0 then m <<< e.toNat else m >>> (-e).toNat

/-- Splits the magnitude into its whole part and whether anything is left over. -/
def Dyadic.whole (d : Dyadic) : Nat × Bool :=
  if d.exponent ≥ 0 then (d.mantissa <<< d.exponent.toNat, false)
  else
    let unit := 1 <<< (-d.exponent).toNat
    (d.mantissa / unit, d.mantissa % unit != 0)

end XPath.Number
