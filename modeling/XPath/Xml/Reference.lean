import XPath.Xml.Scan

/-!
# References

A reference stands for a character, by its number or one of five names, or for the text of an
entity that the document declares.
-/

namespace XPath.Xml

inductive Reference
  | character (c : Char)
  | entity (name : String)
  deriving DecidableEq, Repr

def predefinedEntities : List (String × Char) :=
  [("quot", '"'), ("amp", '&'), ("apos", '\''), ("lt", '<'), ("gt", '>')]

/-- The character with a number of 32 bits. A number that no character has stands for U+FFFD. -/
def characterOf? (n : Nat) : Option Char :=
  let c := if n.isValidChar then Char.ofNat n else '\uFFFD'
  if n ≤ 0xFFFFFFFF && isLegal c then some c else none

/-- The number that digits spell in a base; there must be some. -/
def numberOf? (base : Nat) (digits : List Char) : Option Nat :=
  let digit (c : Char) : Nat :=
    if c.isDigit then c.toNat - '0'.toNat else c.toLower.toNat - 'a'.toNat + 10
  if digits.isEmpty then none else some (digits.foldl (fun n c => base * n + digit c) 0)

def isHexDigit (c : Char) : Bool := c.isDigit || ('a' ≤ c.toLower && c.toLower ≤ 'f')

def characterNumber : Scan Nat := do
  if ← Scan.takes "x" then liftM (numberOf? 16 (← Scan.run isHexDigit))
  else liftM (numberOf? 10 (← Scan.run Char.isDigit))

def reference : Scan Reference := do
  let r ←
    if ← Scan.takes "#" then pure (.character (← liftM (characterOf? (← characterNumber))))
    else
      let name ← Scan.name
      match predefinedEntities.lookup name with
      | some c => pure (.character c)
      | none => pure (.entity name)
  Scan.expect ";"
  return r

/-- A piece of text: a character as it stands, or a reference. -/
inductive Piece
  | plain (c : Char)
  | reference (r : Reference)
  deriving DecidableEq, Repr

namespace Piece

def ofTextWithin : Nat → List Char → Option (List Piece)
  | _, [] => some []
  | 0, _ :: _ => none
  | fuel + 1, c :: cs =>
    if c == '&' then do
      let (r, rest) ← StateT.run Xml.reference cs
      return .reference r :: (← ofTextWithin fuel rest)
    else do return .plain c :: (← ofTextWithin fuel cs)

def ofText (cs : List Char) : Option (List Piece) := ofTextWithin cs.length cs

end Piece

end XPath.Xml
