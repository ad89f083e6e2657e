import XPath.Error
import XPath.Number.Decimal

/-!
# Decimal formats

A number is formatted by a picture such as `#,##0.00;(#)`. The part before the separator tells
where digits, separators and literal text stand, the part after it gives the literal text for
negative numbers. Which characters mean what is settled by a decimal format.
-/

namespace XPath

structure DecimalFormat where
  decimalSeparator : Char := '.'
  groupingSeparator : Char := ','
  infinity : String := "Infinity"
  minusSign : Char := '-'
  nan : String := "NaN"
  percent : Char := '%'
  perMille : Char := '\u2030'
  zeroDigit : Char := '0'
  digit : Char := '#'
  patternSeparator : Char := ';'
  deriving DecidableEq, Repr, Inhabited

/-- What one part of a picture asks for: the literal text around the number, the least and
greatest counts of digits, the size of the digit groups and the power of ten to show. -/
structure Picture where
  before : List Char
  after : List Char
  minInteger : Nat
  minFraction : Nat
  maxFraction : Nat
  grouping : Option Nat
  multiplier : Float
  deriving Repr, Inhabited

namespace DecimalFormat

variable (f : DecimalFormat)

def isActive (c : Char) : Bool :=
  c == f.digit || c == f.zeroDigit || c == f.decimalSeparator || c == f.groupingSeparator

/-- A percent or per-mille sign in the literal text multiplies the number; the last one counts. -/
def multiplierOf (literal : List Char) : Float :=
  literal.foldl
    (fun m c => if c == f.percent then 100 else if c == f.perMille then 1000 else m) 1

/-- The size of the last group of the integer part, if a separator stands before digits. -/
def groupingOf (integer : List Char) : Option Nat :=
  let tail := integer.reverse.takeWhile (· != f.groupingSeparator)
  if integer.contains f.groupingSeparator && !tail.isEmpty then some tail.length else none

def readPart (part : List Char) : Except PictureFault Picture :=
  let before := part.takeWhile fun c => !f.isActive c
  let rest := part.dropWhile fun c => !f.isActive c
  let body := rest.takeWhile f.isActive
  let after := rest.dropWhile f.isActive
  let integer := body.takeWhile (· != f.decimalSeparator)
  let fraction := (body.dropWhile (· != f.decimalSeparator)).drop 1
  if rest.isEmpty then .error .noDigits
  else if fraction.contains f.decimalSeparator then .error .twoDecimalSeparators
  else if fraction.contains f.groupingSeparator then .error .groupingInFraction
  else .ok
    { before, after
      minInteger := integer.countP (· == f.zeroDigit)
      minFraction := fraction.countP (· == f.zeroDigit)
      maxFraction := fraction.countP fun c => c == f.zeroDigit || c == f.digit
      grouping := f.groupingOf integer
      multiplier := f.multiplierOf (before ++ after) }

def partsOf (picture : List Char) : List (List Char) :=
  match picture with
  | [] => [[]]
  | c :: cs =>
    if c == f.patternSeparator then [] :: partsOf cs
    else match partsOf cs with
      | part :: others => (c :: part) :: others
      | [] => [[c]]

def localDigit (c : Char) : Char :=
  if c.isDigit then
    let code := f.zeroDigit.toNat + (c.toNat - '0'.toNat)
    if code.isValidChar then Char.ofNat code else c
  else c

/-- Puts the grouping separator between groups of `size` digits, counted from the right. -/
def group (size : Nat) (digits : List Char) : List Char :=
  match digits with
  | [] => []
  | [c] => [c]
  | c :: cs =>
    if cs.length % size == 0 then c :: f.groupingSeparator :: group size cs
    else c :: group size cs

/-- Drops zeros from the end of a fraction as long as it has more than `least` digits. -/
def trimFraction (least : Nat) (digits : List Char) : List Char :=
  digits.take least ++ ((digits.drop least).reverse.dropWhile (· == '0')).reverse

/-- The digits of a rounded magnitude as the picture wants them: integer part and fraction. -/
def layout (p : Picture) (rounded : List Char) : List Char × List Char :=
  let fraction := trimFraction p.minFraction ((rounded.dropWhile (· != '.')).drop 1)
  let significant := (rounded.takeWhile (· != '.')).dropWhile (· == '0')
  let integer := List.replicate (p.minInteger - significant.length) '0' ++ significant
  if integer.isEmpty && fraction.isEmpty then (['0'], []) else (integer, fraction)

def body (p : Picture) (rounded : List Char) : List Char :=
  let (integer, fraction) := layout p rounded
  let digits := integer.map f.localDigit
  let grouped := match p.grouping with
    | some size => f.group size digits
    | none => digits
  if fraction.isEmpty then grouped
  else grouped ++ f.decimalSeparator :: fraction.map f.localDigit

/-- The literal text before and after a number: that of the second part for a negative one, or a
minus sign if there is no second part. -/
def surroundings (p : Picture) (negative : Bool) (other : Option (List Char)) :
    Except PictureFault (List Char × List Char) :=
  match negative, other with
  | true, some part => (f.readPart part).map fun q => (q.before, q.after)
  | true, none => .ok (f.minusSign :: p.before, p.after)
  | false, _ => .ok (p.before, p.after)

def formatParts (value : Float) (parts : List (List Char)) : Except PictureFault (List Char) := do
  let first := parts.head?.getD []
  if parts.length > 2 then throw .tooManyParts
  let p ← f.readPart first
  if value.isNaN then return f.nan.toList
  let (before, after) ← f.surroundings p (decide (value < 0)) parts[1]?
  match Number.Dyadic.ofFloat? (value.abs * p.multiplier) with
  | none => return before ++ f.infinity.toList ++ after
  | some magnitude => return before ++ f.body p (Number.fixed magnitude p.maxFraction) ++ after

def format (value : Float) (picture : String) : Except Error String :=
  match f.formatParts value (f.partsOf picture.toList) with
  | .ok text => .ok (String.ofList text)
  | .error fault => .error (.evaluation (.badPicture picture fault))

end DecimalFormat

end XPath
