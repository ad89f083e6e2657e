import XPath.Lexer
import XPath.Number.Rounding

/-!
# Functions on strings

The string functions of the library whose rule needs more than one step. Positions count
characters from one.
-/

namespace XPath.Text

/-- The characters at the positions from `start` (rounded) on, and before `start` plus `length`
(both rounded) if there is a length. A bound that is not a number selects nothing. -/
def substring (text : String) (start : Float) (length : Option Float) : String :=
  let first := Number.round start
  let inside (position : Float) : Bool :=
    decide (first ≤ position) && (match length with
      | none => true
      | some l => decide (position < first + Number.round l))
  String.ofList
    ((text.toList.zipIdx 1).filterMap fun (c, i) => if inside (Float.ofNat i) then some c else none)

def wordsOf (cs : List Char) : List (List Char) :=
  (cs.splitBy fun a b => isSpace a == isSpace b).filter fun word => !word.any isSpace

def words (text : String) : List String := (wordsOf text.toList).map String.ofList

def normalizeSpace (text : String) : String := " ".intercalate (words text)

/-- Replaces each character of `source` by the one at the same place in `target`, and drops it if
`target` is too short. The first of several equal characters of `source` counts. -/
def translate (text source target : String) : String :=
  let goal := target.toList
  String.ofList (text.toList.filterMap fun c =>
    match source.toList.findIdx? (· == c) with
    | some i => goal[i]?
    | none => some c)

def splitAt? (sep : List Char) : List Char → Option (List Char × List Char)
  | [] => if sep.isEmpty then some ([], []) else none
  | c :: cs =>
    if sep.isPrefixOf (c :: cs) then some ([], (c :: cs).drop sep.length)
    else (splitAt? sep cs).map fun (front, back) => (c :: front, back)

/-- The text before the first occurrence of `sep`, empty if there is none. -/
def before (text sep : String) : String :=
  ((splitAt? sep.toList text.toList).map fun (front, _) => String.ofList front).getD ""

/-- The text after the first occurrence of `sep`, empty if there is none. -/
def after (text sep : String) : String :=
  ((splitAt? sep.toList text.toList).map fun (_, back) => String.ofList back).getD ""

def contains (text sep : String) : Bool := (splitAt? sep.toList text.toList).isSome

def startsWith (text front : String) : Bool := front.toList.isPrefixOf text.toList

end XPath.Text
