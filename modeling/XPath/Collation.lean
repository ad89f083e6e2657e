import XPath.Number.Text
import XPath.Text.CaseMap

/-!
# Collations

How sort keys are compared: by code point, ignoring case until it has to decide, by the rules of
English, or as numbers; each of them also in reverse.
-/

namespace XPath

/-- The value of a sort key, made ready for comparison. -/
inductive SortValue
  | text (s : String)
  | number (x : Float)
  deriving Inhabited

inductive Comparer
  | codepoint
  | caseOrder (lowerFirst : Bool)
  | english (lowerFirst : Bool)
  | numeric
  | descending (c : Comparer)
  deriving DecidableEq, Repr, Inhabited

namespace Collation

def compareChars (a b : Char) : Ordering := Ord.compare a.toNat b.toNat

/-- Lexicographic order; a text comes before its continuations. -/
def compareLists : List Char → List Char → Ordering
  | [], [] => .eq
  | [], _ :: _ => .lt
  | _ :: _, [] => .gt
  | a :: as, b :: bs => (compareChars a b).then (compareLists as bs)

def caseless (a b : List Char) : Ordering := compareLists (a.map Text.toLower) (b.map Text.toLower)

/-- Decides between texts that differ in case only: at the first difference the text with the
preferred case comes first. -/
def caseTiebreak (lowerFirst : Bool) : List Char → List Char → Ordering
  | x :: xs, y :: ys =>
    if x == y then caseTiebreak lowerFirst xs ys
    else if (if lowerFirst then Text.isLowercase x else Text.isUppercase x) then .lt
    else .gt
  | _, _ => .eq

def baseLetters : List Char :=
  "AAAAAAACEEEEIIII[NOOOOO*OUUUUY]Saaaaaaaceeeeiiii\x7bnooooo*ouuuuy\x7dy".toList

/-- A letter of Latin-1 without its accent. -/
def unaccented (c : Char) : Char :=
  if 0xC0 ≤ c.toNat && c.toNat ≤ 0xFF then (baseLetters[c.toNat - 0xC0]?).getD c else c

/-- Numbers in order, and after them what is not a number. -/
def compareNumbers (x y : Float) : Ordering :=
  match x.isNaN, y.isNaN with
  | true, true => .eq
  | true, false => .gt
  | false, true => .lt
  | false, false => if x < y then .lt else if y < x then .gt else .eq

end Collation

namespace Comparer

def prepare : Comparer → String → SortValue
  | numeric, s => .number (Number.ofText s)
  | descending c, s => c.prepare s
  | _, s => .text s

/-- Compares two texts; a numeric comparer does not tell texts apart. -/
def compareTexts : Comparer → List Char → List Char → Ordering
  | codepoint, a, b => Collation.compareLists a b
  | caseOrder lowerFirst, a, b =>
    (Collation.caseless a b).then (Collation.caseTiebreak lowerFirst a b)
  | english lowerFirst, a, b =>
    (Collation.caseless (a.map Collation.unaccented) (b.map Collation.unaccented)).then
      ((Collation.caseless a b).then (Collation.caseTiebreak lowerFirst a b))
  | numeric, _, _ => .eq
  | descending c, a, b => (c.compareTexts a b).swap

/-- Compares two numbers; only a numeric comparer tells them apart. -/
def compareNumbers : Comparer → Float → Float → Ordering
  | numeric, x, y => Collation.compareNumbers x y
  | descending c, x, y => (c.compareNumbers x y).swap
  | _, _, _ => .eq

/-- Compares two prepared values. A text and a number are not told apart. -/
def compare (c : Comparer) : SortValue → SortValue → Ordering
  | .text a, .text b => c.compareTexts a.toList b.toList
  | .number x, .number y => c.compareNumbers x y
  | _, _ => .eq

end Comparer

end XPath
