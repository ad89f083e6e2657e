import XPath.Xml.Name

/-!
# Reading the text of a document

A scan takes characters from the front of a text and yields a result, or finds the text
malformed. No cause is kept: a malformed document is refused as a whole.
-/

namespace XPath.Xml

/-- Takes characters from the front of a text; `none` if it is malformed. -/
abbrev Scan (α : Type) := StateT (List Char) Option α

/-- Splits a text where `stops` holds of what follows. A character that no document may hold is
refused, also where the text stops. -/
def splitLegal (stops : List Char → Bool) : List Char → Option (List Char × List Char)
  | [] => some ([], [])
  | c :: cs =>
    if !isLegal c then none
    else if stops (c :: cs) then some ([], c :: cs)
    else (splitLegal stops cs).map fun (front, back) => (c :: front, back)

namespace Scan

def atEnd : Scan Bool := return (← get).isEmpty

def remaining : Scan Nat := return (← get).length

def sees (mark : String) : Scan Bool := return mark.toList.isPrefixOf (← get)

def seesSpace : Scan Bool := return (← get).head?.any isSpace

def takes (mark : String) : Scan Bool := do
  let cs ← get
  let found := mark.toList.isPrefixOf cs
  if found then set (cs.drop mark.length)
  return found

def expect (mark : String) : Scan Unit := do
  if !(← takes mark) then failure

def run (p : Char → Bool) : Scan (List Char) := do
  let cs ← get
  set (cs.dropWhile p)
  return cs.takeWhile p

def spaces : Scan Unit := modify (·.dropWhile isSpace)

def someSpace : Scan Unit := do
  if ← seesSpace then spaces else failure

/-- The characters before `stops` holds of the text, all of them such as a document may hold. -/
def legalUntil (stops : List Char → Bool) : Scan (List Char) := do
  match splitLegal stops (← get) with
  | some (front, back) => set back; return front
  | none => failure

def before (mark : String) : Scan (List Char) := do
  let cs ← legalUntil mark.toList.isPrefixOf
  expect mark
  return cs

def name : Scan String := do
  match ← get with
  | c :: cs =>
    if !isNameStart c then failure
    set (cs.dropWhile isNameChar)
    return String.ofList (c :: cs.takeWhile isNameChar)
  | [] => failure

def writtenName : Scan WrittenName := do
  let part := run fun c => isNameChar c && c != ':'
  let front ← part
  let (namePrefix, localPart) ← if ← takes ":" then pure (front, ← part) else pure ([], front)
  if namePrefix.head?.all isNameStart && localPart.head?.any isNameStart then
    return ⟨String.ofList namePrefix, String.ofList localPart⟩
  else failure

def quote : Scan Char := do
  if ← takes "'" then return '\'' else expect "\""; return '"'

def literal : Scan (List Char) := do
  let q ← quote
  let cs ← run (· != q)
  expect q.toString
  return cs

/-- Name, equals sign and value of an attribute. The value is as written, without `<`. -/
def assignment : Scan (WrittenName × List Char) := do
  let name ← writtenName
  spaces
  expect "="
  spaces
  let q ← quote
  let value ← legalUntil fun cs => cs.head?.any fun c => c == q || c == '<'
  expect q.toString
  return (name, value)

end Scan

end XPath.Xml
