import XPath.Tree.Basic

/-!
# Building a document from events

A document is built from a list of events: an element opens, nodes are added to the element that
is open, and an element closes. Numbers are given in the order of the events.
-/

namespace XPath

/-- The name that `lexical` spells in the namespace `uri`; an empty URI stands for none. -/
def QName.ofLexical (uri lexical : String) : QName :=
  let namespaceUri := if uri.isEmpty then none else some uri
  match splitColon lexical with
  | some (before, after) => ⟨some before, namespaceUri, after⟩
  | none => ⟨none, namespaceUri, lexical⟩

inductive TreeEvent
  | element (name : QName)
  | attributeNode (name : QName) (value : String)
  | namespaceNode (boundPrefix uri : String)
  | text (value : String)
  | comment (value : String)
  | processingInstruction (target value : String)
  | close
  deriving DecidableEq, Repr, Inhabited

/-- An attribute in no namespace, or in the XML namespace if its name starts with `xml:`. -/
def TreeEvent.plainAttribute (name value : String) : TreeEvent :=
  .attributeNode (.ofLexical (if "xml:".isPrefixOf name then xmlNamespace else "") name) value

/-- The lists in which a record names other nodes. -/
inductive Link
  | children
  | attributes
  | namespaces
  deriving DecidableEq

def Link.enter : Link → Nat → NodeRecord → NodeRecord
  | children, i, r => { r with children := r.children ++ [i] }
  | attributes, i, r => { r with attributes := r.attributes ++ [i] }
  | namespaces, i, r => { r with namespaces := r.namespaces ++ [i] }

/-- The nodes made so far and the numbers of the open elements, innermost first. -/
structure TreeBuilder where
  nodes : Array NodeRecord
  openElements : List Nat
  deriving Repr, Inhabited

namespace TreeBuilder

def start : TreeBuilder := ⟨#[.leaf .root none "" none], []⟩

def current (b : TreeBuilder) : Nat := b.openElements.head?.getD 0

/-- Adds a record below the open element; `link` enters its number into the right list there. -/
def add (b : TreeBuilder) (type : NodeType) (name : Option QName) (value : String)
    (link : Nat → NodeRecord → NodeRecord) : TreeBuilder :=
  let number := b.nodes.size
  { b with
    nodes := (b.nodes.push (.leaf type name value (some b.current))).modify b.current
      (link number) }

/-- A name without prefix and namespace, as targets and declared prefixes are reported. -/
private def bare (name : String) : Option QName := some ⟨none, none, name⟩

/-- Applies one event. Closing does nothing when no element is open. -/
def apply (b : TreeBuilder) : TreeEvent → TreeBuilder
  | .element name =>
    { b.add .element (some name) "" Link.children.enter with
      openElements := b.nodes.size :: b.openElements }
  | .attributeNode name value => b.add .attributeNode (some name) value Link.attributes.enter
  | .namespaceNode boundPrefix uri =>
    b.add .namespaceNode (bare boundPrefix) uri Link.namespaces.enter
  | .text value => b.add .text none value Link.children.enter
  | .comment value => b.add .comment none value Link.children.enter
  | .processingInstruction target value =>
    b.add .processingInstruction (bare target) value Link.children.enter
  | .close => { b with openElements := b.openElements.drop 1 }

end TreeBuilder

def Document.ofEvents (id : Nat) (events : List TreeEvent) : Document :=
  { nodes := (events.foldl TreeBuilder.apply .start).nodes, id }

end XPath
