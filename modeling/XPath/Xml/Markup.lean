import XPath.Xml.Scan

/-!
# Markup

The content of an element is a sequence of tags, stretches of text, comments and processing
instructions. Reading them does not yet match tags with each other or replace references.
-/

namespace XPath.Xml

/-- How a start tag ends. One that the text breaks off in has no end. -/
inductive TagEnding
  | opens
  | closesItself
  | brokenOff
  deriving DecidableEq, Repr, Inhabited

/-- An element's tag with its attributes and declarations, their values as written. -/
structure StartTag where
  name : WrittenName
  attributes : List (WrittenName × List Char)
  ending : TagEnding
  deriving DecidableEq, Repr, Inhabited

inductive Markup
  | startTag (tag : StartTag)
  | endTag (name : WrittenName)
  /-- Text in which references count. -/
  | text (cs : List Char)
  /-- Text of a section in which they do not. -/
  | verbatim (cs : List Char)
  | comment (text : String)
  | instruction (target data : String)
  deriving DecidableEq, Repr

namespace Markup

def occursIn (mark : List Char) : List Char → Bool
  | [] => mark.isEmpty
  | c :: cs => mark.isPrefixOf (c :: cs) || occursIn mark cs

def readComment : Scan Markup := do
  let cs ← Scan.before "-->"
  if occursIn ['-', '-'] (cs ++ ['-']) then failure
  return .comment (String.ofList cs)

/-- A processing instruction behind its opening mark. A declaration of the XML version has its
form but is none. -/
def readInstruction : Scan Markup := do
  if ← Scan.sees "xml " then failure
  let target ← Scan.name
  Scan.spaces
  return .instruction target (String.ofList (← Scan.before "?>"))

def readAttributes : Nat → Scan (List (WrittenName × List Char) × TagEnding)
  | 0 => failure
  | fuel + 1 => do
    if ← Scan.atEnd then return ([], .brokenOff)
    let separated ← Scan.seesSpace
    Scan.spaces
    if ← Scan.takes "/>" then return ([], .closesItself)
    if ← Scan.takes ">" then return ([], .opens)
    if !separated then failure
    let assigned ← Scan.assignment
    let (attributes, ending) ← readAttributes fuel
    return (assigned :: attributes, ending)

def readStartTag : Scan StartTag := do
  let name ← Scan.writtenName
  let (attributes, ending) ← readAttributes ((← Scan.remaining) + 1)
  return ⟨name, attributes, ending⟩

def readEndTag : Scan Markup := do
  let name ← Scan.writtenName
  Scan.spaces
  Scan.expect ">"
  return .endTag name

/-- Text up to the next tag. It may not hold the end mark of a verbatim section. -/
def readText : Scan Markup := do
  let cs ← Scan.legalUntil (·.head? == some '<')
  if occursIn [']', ']', '>'] cs then failure
  return .text cs

/-- One item of content; the text is not at its end. -/
def read : Scan Markup := do
  if ← Scan.takes "<!--" then readComment
  else if ← Scan.takes "<![CDATA[" then return .verbatim (← Scan.before "]]>")
  else if ← Scan.takes "<!" then failure
  else if ← Scan.takes "<?" then readInstruction
  else if ← Scan.takes "</" then readEndTag
  else if ← Scan.takes "<" then return .startTag (← readStartTag)
  else readText

def depthAfter (depth : Nat) : Markup → Nat
  | .startTag tag => if tag.ending = .opens then depth + 1 else depth
  | .endTag _ => depth - 1
  | _ => depth

/-- At most `fuel` items of content, read inside `depth` elements. The content ends with the end
tag of the outermost of them, or with the text. -/
def readContentWithin : Nat → Nat → Scan (List Markup)
  | _, 0 => return []
  | 0, _ => return []
  | fuel + 1, depth + 1 => do
    if ← Scan.atEnd then return []
    let item ← read
    return item :: (← readContentWithin fuel (item.depthAfter (depth + 1)))

def readContent : Scan (List Markup) := do readContentWithin (← Scan.remaining) 1

/-- The content that a text spells. What follows an end tag without its start tag is not read. -/
def ofText (cs : List Char) : Option (List Markup) := readContent.run' cs

def isTag : Markup → Bool
  | .startTag _ | .endTag _ => true
  | _ => false

def isEndTag : Markup → Bool
  | .endTag _ => true
  | _ => false

def startsWithStartTag (items : List Markup) : Bool := (items.find? isTag).all (!·.isEndTag)

end Markup

end XPath.Xml
