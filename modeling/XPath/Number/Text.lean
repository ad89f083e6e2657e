import XPath.Number.Decimal
import XPath.Number.Rounding

/-!
# Numbers as text

The string value of a number and the number that a string denotes. Numbers are written without an
exponent: exactly from 2^53 on, elsewhere with the fewest digits that read back.
-/

namespace XPath.Number

def toText (x : Float) : String :=
  match Dyadic.ofFloat? x with
  | none => if x.isNaN then "NaN" else if x > 0 then "Infinity" else "-Infinity"
  | some d =>
    if d.mantissa == 0 then "0"
    else
      let sign := if d.negative then "-" else ""
      let whole := d.whole.1
      let digits := if whole ≥ 1 <<< 53 then digitsOf whole
        else (shortest d.mantissa d.exponent).positional
      sign ++ String.ofList digits

def natOfDigits (ds : List Char) : Nat :=
  ds.foldl (fun n c => 10 * n + (c.toNat - '0'.toNat)) 0

/-- The double nearest to `mantissa · 10 ^ exponent`. Magnitudes beyond the range of doubles are
settled before any power is computed. -/
def ofDecimal (negative : Bool) (mantissa : Nat) (exponent : Int) : Float :=
  let size := (digitsOf mantissa).length + exponent
  let magnitude : Float :=
    if mantissa == 0 || size < -330 then 0
    else if size > 310 then 1.0 / 0.0
    else if exponent ≥ 0 then Float.ofScientific mantissa false exponent.toNat
    else Float.ofScientific mantissa true (-exponent).toNat
  if negative then -magnitude else magnitude

/-- Takes a sign off the front; the answer says whether it is a minus. -/
private def sign : List Char → Bool × List Char
  | '-' :: cs => (true, cs)
  | '+' :: cs => (false, cs)
  | cs => (false, cs)

/-- The exponent after the digits: nothing, or `e` with an optional sign and digits. -/
private def exponent? : List Char → Option Int
  | [] => some 0
  | c :: cs =>
    if c == 'e' || c == 'E' then
      let (negative, digits) := sign cs
      if digits.isEmpty || !digits.all Char.isDigit then none
      else some (if negative then -(natOfDigits digits : Int) else natOfDigits digits)
    else none

/-- A decimal numeral with an optional sign, fraction and exponent; at least one digit must stand
before the exponent. -/
def readDecimal? (cs : List Char) : Option Float :=
  let (negative, cs) := sign cs
  let whole := cs.takeWhile Char.isDigit
  let rest := cs.dropWhile Char.isDigit
  let (fraction, rest) := match rest with
    | '.' :: after => (after.takeWhile Char.isDigit, after.dropWhile Char.isDigit)
    | _ => ([], rest)
  if whole.isEmpty && fraction.isEmpty then none
  else match exponent? rest with
    | some e =>
      some (ofDecimal negative (natOfDigits (whole ++ fraction)) (e - (fraction.length : Int)))
    | none => none

private def trim (cs : List Char) : List Char :=
  let blank := fun (c : Char) => decide (c ≤ ' ')
  ((cs.dropWhile blank).reverse.dropWhile blank).reverse

/-- The number that a string denotes: a decimal numeral, `NaN` or an infinity as they are written,
with white space around it. Any other string is not a number. -/
def ofText (text : String) : Float :=
  let cs := trim text.toList
  let name := String.ofList cs
  if name == "Infinity" || name == "+Infinity" then 1.0 / 0.0
  else if name == "-Infinity" then -1.0 / 0.0
  else (readDecimal? cs).getD (0.0 / 0.0)

end XPath.Number
