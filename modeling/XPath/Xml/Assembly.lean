import XPath.Tree.Builder
import XPath.Xml.Namespace
import XPath.Xml.Reference
import XPath.Xml.Source

/-!
# From markup to a tree

Markup is turned into the events that build a document: tags are matched with each other,
names get their namespaces, stretches of text that meet become one node, and a reference to an
entity is replaced by the content that its text spells. Entities may stand in the text of
entities, down to `entityDepth` levels; this bound also ends the recursion.
-/

namespace XPath.Xml

def entityDepth : Nat := 10

/-- How many references the text of one entity may hold, with those of the entities in it. -/
def referenceLimit : Nat := 255

/-- An element whose end tag has not come yet. -/
structure OpenElement where
  name : WrittenName
  scope : List Binding
  deriving DecidableEq, Repr, Inhabited

structure Assembly where
  /-- The events, latest first. -/
  events : List TreeEvent := []
  /-- The open elements, innermost first. -/
  openElements : List OpenElement := []
  /-- The text since the last tag, comment or instruction. -/
  pendingText : Option String := none
  /-- The declarations of the tag that is being read. -/
  declared : List Binding := []
  /-- The attributes of the tag that is being read. -/
  attributes : List (WrittenName × String) := []
  /-- The references met in the entity that is being replaced. -/
  references : Nat := 0
  deriving Inhabited

/-! ### References to entities -/

/-- Whether some entity has been entered, when `left` levels of entities may still be. -/
def isNested (left : Nat) : Bool := left < entityDepth

def countReference (left references : Nat) : Option Nat :=
  if !isNested left then some references
  else if references < referenceLimit then some (references + 1)
  else none

def settleReferences (left references : Nat) : Nat := if isNested left then references else 0

/-! ### Line ends -/

/-- Adds a character to a text, latest first, in which a carriage return stands for a line end,
alone or before a line feed. -/
def pushLineEnd (latest : List Char) (c : Char) (isLast : Bool) : List Char :=
  match latest with
  | '\r' :: before =>
    if isLast && c == '\r' then '\n' :: '\n' :: before
    else if c == '\n' then '\n' :: before
    else c :: '\n' :: before
  | _ => if isLast && c == '\r' then '\n' :: latest else c :: latest

def settleLineEnds : List Char → List Char → List Char
  | latest, [] => latest.reverse
  | latest, c :: cs => settleLineEnds (pushLineEnd latest c cs.isEmpty) cs

def valueSpace (c : Char) : Char := if c == '\n' || c == '\r' || c == '\t' then ' ' else c

def lineFeedFollows : List Piece → Bool
  | .plain '\n' :: _ => true
  | _ => false

/-! ### Values of attributes -/

/-- Adds the pieces of a value to a text, latest first, and counts references. The text of an
entity comes from `expand`. Characters given by number stay as they are, except in entities,
where they may not be `<`. -/
def pushValue (expand : String → List Char → Nat → Option (List Char × Nat)) (nested : Bool) :
    List Piece → List Char → Nat → Option (List Char × Nat)
  | [], latest, references => some (latest, references)
  | .plain c :: rest, latest, references =>
    if c == '\r' && lineFeedFollows rest then pushValue expand nested rest latest references
    else pushValue expand nested rest (valueSpace c :: latest) references
  | .reference (.character c) :: rest, latest, references =>
    if !nested then pushValue expand nested rest (c :: latest) references
    else if c == '<' then none
    else pushValue expand nested rest (valueSpace c :: latest) references
  | .reference (.entity name) :: rest, latest, references => do
    let (latest, references) ← expand name latest references
    pushValue expand nested rest latest references

/-- Adds the value that `cs` spells to a text, with `left` levels of entities to enter. -/
def pushValueText (s : Source) : Nat → List Char → List Char → Nat → Option (List Char × Nat)
  | 0, cs, latest, references => do
    pushValue (fun _ _ _ => none) (isNested 0) (← Piece.ofText cs) latest references
  | left + 1, cs, latest, references => do
    let expand (name : String) (latest : List Char) (references : Nat) := do
      let references ← countReference (left + 1) references
      let (latest, references) ← pushValueText s left (← s.entity? name) latest references
      return (latest, settleReferences (left + 1) references)
    pushValue expand (isNested (left + 1)) (← Piece.ofText cs) latest references

namespace Assembly

/-! ### Steps -/

def addEvent (a : Assembly) (e : TreeEvent) : Assembly := { a with events := e :: a.events }

def endText (a : Assembly) : Assembly :=
  match a.pendingText with
  | some text => { a with pendingText := none, events := .text text :: a.events }
  | none => a

def addText (a : Assembly) (text : String) : Assembly :=
  { a with pendingText := some (a.pendingText.getD "" ++ text) }

def addLatest (a : Assembly) (latest : List Char) : Assembly :=
  if latest.isEmpty then a else a.addText (String.ofList latest.reverse)

def scope (a : Assembly) : List Binding := (a.openElements.head?.map (·.scope)).getD []

def addAttribute (s : Source) (left : Nat) (a : Assembly) (name : WrittenName)
    (written : List Char) : Option Assembly := do
  let (latest, references) ← pushValueText s left written [] a.references
  let value := String.ofList latest.reverse
  let a := { a with references }
  match ← Binding.ofAttribute? a.declared name value with
  | some declared => return { a with declared }
  | none => return { a with attributes := a.attributes ++ [(name, value)] }

/-- The named attributes of a tag. Two of one name are not allowed. -/
def nameAttributes (scope : List Binding) :
    List (WrittenName × String) → Option (List (QName × String))
  | [] => some []
  | (written, value) :: rest => do
    let name ← Binding.attributeName? scope written
    let others ← nameAttributes scope rest
    if others.any fun (other, _) => other.uri == name.uri && other.localPart == name.localPart then
      none
    else return (name, value) :: others

def elementEvents (name : QName) (scope : List Binding) (attributes : List (QName × String)) :
    List TreeEvent :=
  .element name :: scope.map (fun b => .namespaceNode (b.boundPrefix.getD "") b.uri)
    ++ attributes.map fun (name, value) => .attributeNode name value

/-- What the tag that is being read declares and sets, taken out of the assembly. -/
def takeTag (a : Assembly) : Option (List Binding × List (QName × String) × Assembly) := do
  let scope := Binding.extend a.declared a.scope
  let attributes ← nameAttributes scope a.attributes
  return (scope, attributes, { a with declared := [], attributes := [] })

def openElement (a : Assembly) (written : WrittenName) : Option (List Binding × Assembly) := do
  let (scope, attributes, a) ← a.takeTag
  let name ← Binding.elementName? scope written
  return (scope, { a with events := (elementEvents name scope attributes).reverse ++ a.events })

/-- Adds a start tag with `left` levels of entities to enter. A tag that the text breaks off in
makes no element. -/
def addStartTag (s : Source) (left : Nat) (a : Assembly) (tag : StartTag) : Option Assembly := do
  if tag.name.namePrefix == "xmlns" then failure
  let a ← tag.attributes.foldlM (fun a (name, value) => a.addAttribute s left name value) a.endText
  match tag.ending with
  | .brokenOff => return a
  | .closesItself => return (← a.openElement tag.name).2.addEvent .close
  | .opens =>
    let (scope, a) ← a.openElement tag.name
    return { a with openElements := ⟨tag.name, scope⟩ :: a.openElements }

/-- Adds an end tag, which must have the name of the innermost open element. -/
def addEndTag (a : Assembly) (name : WrittenName) : Option Assembly := do
  let (_, _, a) ← a.endText.takeTag
  match a.openElements with
  | e :: outer =>
    if e.name = name then return { a.addEvent .close with openElements := outer } else failure
  | [] => failure

/-- Adds the pieces of a text, behind the characters `latest` of it, latest first. The content of
an entity is added by `expand`. Outside entities a character given by number stays as it is, and so
does the character right behind one, which `kept` tells. -/
def addPieces (expand : String → Assembly → Option Assembly) (nested : Bool) :
    List Piece → List Char → (kept : Bool) → Assembly → Option Assembly
  | [], latest, _, a => some (a.addLatest latest)
  | .plain c :: rest, latest, kept, a =>
    let latest := if kept then c :: latest else pushLineEnd latest c rest.isEmpty
    addPieces expand nested rest latest false a
  | .reference (.character c) :: rest, latest, kept, a =>
    if nested then addPieces expand nested rest (pushLineEnd latest c rest.isEmpty) kept a
    else addPieces expand nested rest (c :: latest) true a
  | .reference (.entity name) :: rest, latest, _, a => do
    addPieces expand nested rest [] false (← expand name (a.addLatest latest))

def add (s : Source) (expand : String → Assembly → Option Assembly) (left : Nat) (a : Assembly) :
    Markup → Option Assembly
  | .startTag tag => a.addStartTag s left tag
  | .endTag name => a.addEndTag name
  | .text cs => do addPieces expand (isNested left) (← Piece.ofText cs) [] false a
  | .verbatim cs => some (a.addText (String.ofList (settleLineEnds [] cs)))
  | .comment text => some (a.endText.addEvent (.comment text))
  | .instruction target data => some (a.endText.addEvent (.processingInstruction target data))

/-- Adds content with `left` levels of entities to enter. The text of an entity may hold an end
tag only behind a start tag of its own. -/
def addContent (s : Source) : Nat → List Markup → Assembly → Option Assembly
  | 0, items, a => items.foldlM (add s (fun _ _ => none) 0) a
  | left + 1, items, a =>
    let expand (name : String) (a : Assembly) : Option Assembly := do
      let references ← countReference (left + 1) a.references
      let inside ← Markup.ofText (← s.entity? name)
      if !Markup.startsWithStartTag inside then failure
      let a ← addContent s left inside { a with references }
      return { a with references := settleReferences (left + 1) a.references }
    items.foldlM (add s expand (left + 1)) a

/-- The events that build a document. All elements must be closed, and there must be one. -/
def events? (s : Source) : Option (List TreeEvent) := do
  let a := (← addContent s entityDepth s.items {}).endText
  let isElement : TreeEvent → Bool
    | .element _ => true
    | _ => false
  if a.openElements.isEmpty && a.events.any isElement then return a.events.reverse else none

end Assembly

end XPath.Xml

namespace XPath

/-- The document with the number `id` in document order that an XML text spells. Its elements are
found by an attribute `id` of any namespace. -/
def Document.ofXml? (id : Nat) (text : String) : Option Document := do
  let events ← Xml.Assembly.events? (← Xml.Source.ofText text)
  return { Document.ofEvents id events with idAttribute := .anyNamespace }

end XPath
