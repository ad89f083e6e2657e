import XPath.Number.Dyadic

/-!
# Rounding and remainder

`floor`, `ceiling` and the remainder of a division, exact and with the sign of zero that the
binary format prescribes, and the rounding of the expression language, where a half goes up.
-/

namespace XPath.Number

def floor (x : Float) : Float :=
  match Dyadic.ofFloat? x with
  | none => x
  | some d =>
    let (n, rest) := d.whole
    if rest then (⟨d.negative, if d.negative then n + 1 else n, 0⟩ : Dyadic).toFloat else x

def ceiling (x : Float) : Float :=
  match Dyadic.ofFloat? x with
  | none => x
  | some d =>
    let (n, rest) := d.whole
    if rest then (⟨d.negative, if d.negative then n else n + 1, 0⟩ : Dyadic).toFloat else x

/-- The nearest integer, a half going towards positive infinity. Values from -0.5 up to 0 give
negative zero. -/
def round (x : Float) : Float :=
  if x.isNaN || x.isInf || x == 0 then x
  else if x > -0.5 && x < 0 then -0.0
  else floor (x + 0.5)

/-- The remainder of the division of `x` by `y` cut off at the point; it has the sign of `x`. -/
def remainder (x y : Float) : Float :=
  match Dyadic.ofFloat? x, Dyadic.ofFloat? y with
  | some a, some b =>
    if b.mantissa == 0 then 0.0 / 0.0
    else
      let low := min a.exponent b.exponent
      let m := a.mantissa <<< (a.exponent - low).toNat
      let n := b.mantissa <<< (b.exponent - low).toNat
      (⟨a.negative, m % n, low⟩ : Dyadic).toFloat
  | some _, none => if y.isNaN then y else x
  | none, _ => 0.0 / 0.0

def toBool (x : Float) : Bool := x != 0 && !x.isNaN

def ofBool (b : Bool) : Float := if b then 1 else 0

end XPath.Number
