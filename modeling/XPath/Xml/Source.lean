import XPath.Xml.Markup

/-!
# The parts of a document

A document has a prolog, in which it may declare entities, one outermost element, and comments and
processing instructions before and behind it. Those of the document type declaration count too.
-/

namespace XPath.Xml

/-- The entities that a document declares, in order, and its markup. -/
structure Source where
  entities : List (String × List Char)
  items : List Markup
  deriving Repr, Inhabited

inductive Declaration
  | entity (name : String) (value : List Char)
  | item (m : Markup)
  /-- A declaration without effect on the tree. -/
  | other
  deriving Repr

namespace Source

/-- The entity's text; the first declaration of a name counts. -/
def entity? (s : Source) (name : String) : Option (List Char) := s.entities.lookup name

/-- At most `fuel` comments and processing instructions, with white space between them. -/
def readMiscellany : Nat → Scan (List Markup)
  | 0 => return []
  | fuel + 1 => do
    Scan.spaces
    if ← Scan.takes "<!--" then
      let m ← Markup.readComment
      return m :: (← readMiscellany fuel)
    else if ← Scan.takes "<?" then
      let m ← Markup.readInstruction
      return m :: (← readMiscellany fuel)
    else return []

def miscellany : Scan (List Markup) := do readMiscellany ((← Scan.remaining) + 1)

def versionSeparator : Scan Unit := do
  if ← Scan.seesSpace then Scan.spaces
  else if !((← Scan.sees "?>") || (← Scan.atEnd)) then failure

def versionDeclaration : Scan Unit := do
  if ← Scan.sees "<?xml " then
    Scan.expect "<?xml "
    Scan.spaces
    if !(← Scan.sees "version") then failure
    let _ ← Scan.assignment
    versionSeparator
    if ← Scan.sees "encoding" then
      let _ ← Scan.assignment
      versionSeparator
    if ← Scan.sees "standalone" then
      let _ ← Scan.assignment
    Scan.spaces
    Scan.expect "?>"

def externalId : Scan Bool := do
  if ← Scan.takes "SYSTEM" then
    Scan.someSpace
    let _ ← Scan.literal
    return true
  else if ← Scan.takes "PUBLIC" then
    Scan.someSpace
    let _ ← Scan.literal
    Scan.someSpace
    let _ ← Scan.literal
    return true
  else return false

def readEntity : Scan Declaration := do
  Scan.someSpace
  let general := !(← Scan.takes "%")
  if !general then Scan.someSpace
  let name ← Scan.name
  Scan.someSpace
  let declaration ←
    if ← externalId then
      if general then
        Scan.spaces
        if ← Scan.takes "NDATA" then
          Scan.someSpace
          let _ ← Scan.name
      pure .other
    else pure (.entity name (← Scan.literal))
  Scan.spaces
  Scan.expect ">"
  return declaration

def readOther : Scan Declaration := do
  let _ ← Scan.run (· != '>')
  Scan.expect ">"
  return .other

/-- At most `fuel` declarations between brackets, with the end of the document type declaration. -/
def readDeclarations : Nat → Scan (List Declaration)
  | 0 => failure
  | fuel + 1 => do
    Scan.spaces
    if ← Scan.takes "]" then
      Scan.spaces
      Scan.expect ">"
      return []
    let d ←
      if ← Scan.takes "<!ENTITY" then readEntity
      else if ← Scan.takes "<!--" then pure (.item (← Markup.readComment))
      else if ← Scan.takes "<?" then pure (.item (← Markup.readInstruction))
      else if ← Scan.takes "<!ELEMENT" then readOther
      else if ← Scan.takes "<!ATTLIST" then readOther
      else if ← Scan.takes "<!NOTATION" then readOther
      else failure
    return d :: (← readDeclarations fuel)

def typeDeclaration : Scan (List Declaration) := do
  if !(← Scan.takes "<!DOCTYPE") then return []
  Scan.someSpace
  let _ ← Scan.name
  Scan.spaces
  let _ ← externalId
  Scan.spaces
  if ← Scan.takes ">" then return []
  Scan.expect "["
  readDeclarations ((← Scan.remaining) + 1)

def outermost : Scan (List Markup) := do
  Scan.spaces
  if !(← Scan.takes "<") then return []
  let tag ← Markup.readStartTag
  if tag.ending = .opens then return .startTag tag :: (← Markup.readContent)
  else return [.startTag tag]

def document : Scan Source := do
  versionDeclaration
  let before ← miscellany
  let declarations ← typeDeclaration
  let between ← miscellany
  let element ← outermost
  let behind ← miscellany
  if !(← Scan.atEnd) then failure
  let entities := declarations.filterMap fun
    | .entity name value => some (name, value)
    | _ => none
  let inside := declarations.filterMap fun
    | .item m => some m
    | _ => none
  return ⟨entities, before ++ inside ++ between ++ element ++ behind⟩

/-- The parts of the document that a text spells. A byte order mark may open it. -/
def ofText (text : String) : Option Source :=
  document.run' (match text.toList with
    | '\uFEFF' :: cs => cs
    | cs => cs)

end Source

end XPath.Xml
