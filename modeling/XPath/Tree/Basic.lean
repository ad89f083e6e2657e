import XPath.Name

/-!
# Trees of nodes

A document is an array of node records in document order; a node is the number of its document
and its number there. Every question about a node is asked of the forest that holds the
documents. Document order between documents goes by the documents' own ids, which need not
differ, so a node's order key may be shared by nodes of two documents.
-/

namespace XPath

inductive NodeType
  | root
  | element
  | attributeNode
  | text
  | comment
  | processingInstruction
  | namespaceNode
  deriving DecidableEq, Repr, Inhabited

def NodeType.label : NodeType → String
  | root => "Root"
  | element => "Element"
  | attributeNode => "Attribute"
  | text => "Text"
  | comment => "Comment"
  | processingInstruction => "ProcessingInstruction"
  | namespaceNode => "Namespace"

/-- A node of a forest. -/
structure Node where
  document : Nat
  number : Nat
  deriving DecidableEq, Repr, Inhabited

/-- What a document stores of a node: its links are numbers of the same document. -/
structure NodeRecord where
  type : NodeType
  name : Option QName
  value : String
  parent : Option Nat
  children : List Nat
  attributes : List Nat
  namespaces : List Nat
  deriving Repr, Inhabited

def NodeRecord.leaf (type : NodeType) (name : Option QName) (value : String)
    (parent : Option Nat) : NodeRecord :=
  ⟨type, name, value, parent, [], [], []⟩

/-- The attribute by which an element is found in its document. -/
inductive IdAttribute
  /-- The attribute `id` in no namespace. -/
  | unprefixed
  /-- The first attribute with the local part `id`, in whatever namespace. -/
  | anyNamespace
  deriving DecidableEq, Repr, Inhabited

def IdAttribute.accepts (rule : IdAttribute) (name : QName) : Bool :=
  match rule with
  | unprefixed => name.expanded == .unprefixed "id"
  | anyNamespace => name.localPart == "id"

/-- The nodes of a document in document order, the root first. -/
structure Document where
  nodes : Array NodeRecord
  id : Nat
  idAttribute : IdAttribute := .unprefixed
  deriving Repr, Inhabited

/-- The documents that an evaluation can reach. -/
structure Forest where
  documents : Array Document
  deriving Repr, Inhabited

/-- The place of a node in document order. -/
structure OrderKey where
  document : Nat
  sequence : Nat
  deriving DecidableEq, Repr, Inhabited

def OrderKey.compare (a b : OrderKey) : Ordering :=
  (Ord.compare a.document b.document).then (Ord.compare a.sequence b.sequence)

def OrderKey.before (a b : OrderKey) : Bool := OrderKey.compare a b == .lt

namespace Forest

variable (F : Forest)

def document? (n : Node) : Option Document := F.documents[n.document]?

/-- The record of a node; a number that no document holds reads as an empty root. -/
def record (n : Node) : NodeRecord :=
  ((F.document? n).bind (·.nodes[n.number]?)).getD (.leaf .root none "" none)

def size (n : Node) : Nat := ((F.document? n).map (·.nodes.size)).getD 0

def type (n : Node) : NodeType := (F.record n).type

def name? (n : Node) : Option QName := (F.record n).name

def parent? (n : Node) : Option Node := (F.record n).parent.map ({ n with number := · })

def children (n : Node) : List Node := (F.record n).children.map ({ n with number := · })

def attributes (n : Node) : List Node := (F.record n).attributes.map ({ n with number := · })

def namespaces (n : Node) : List Node := (F.record n).namespaces.map ({ n with number := · })

def orderKey (n : Node) : OrderKey :=
  ⟨((F.document? n).map (·.id)).getD 0, n.number⟩

/-- The parent of `n`, its parent and so on, at most `steps` of them. -/
def ancestorsUpTo : Nat → Node → List Node
  | 0, _ => []
  | steps + 1, n =>
    match F.parent? n with
    | none => []
    | some p => p :: ancestorsUpTo steps p

/-- The ancestors of a node, nearest first. A parent has a smaller number than its child. -/
def ancestors (n : Node) : List Node := F.ancestorsUpTo n.number n

def documentRoot (n : Node) : Node := (F.ancestors n).getLast?.getD n

/-- The node `n` and what is below it down to `depth` levels, in document order, without attributes
and namespace nodes. -/
def subtreeTo : Nat → Node → List Node
  | 0, n => [n]
  | depth + 1, n => n :: (F.children n).flatMap (subtreeTo depth)

/-- A node with its descendants in document order. No tree is deeper than it has nodes. -/
def subtree (n : Node) : List Node := F.subtreeTo (F.size n) n

def descendants (n : Node) : List Node := (F.children n).flatMap F.subtree

/-- The string value: for elements and the root the text below them, for others their own. -/
def stringValue (n : Node) : String :=
  match F.type n with
  | .root | .element =>
    String.join (((F.subtree n).filter (F.type · == .text)).map fun t => (F.record t).value)
  | _ => (F.record n).value

def firstAttributeValue? (n : Node) (accepts : QName → Bool) : Option String :=
  ((F.attributes n).find? fun a => (F.name? a).any accepts).map F.stringValue

def attributeValue? (n : Node) (name : ExpandedName) : Option String :=
  F.firstAttributeValue? n (·.expanded == name)

/-- The first element of the document of `n` whose identifying attribute is equal to `id`. -/
def elementById? (n : Node) (id : String) : Option Node :=
  let rule := ((F.document? n).map (·.idAttribute)).getD .unprefixed
  (F.subtree (F.documentRoot n)).find? fun e =>
    F.type e == .element && F.firstAttributeValue? e rule.accepts == some id

/-- Attributes and namespace nodes hang on their element without being its children. -/
def isTreeNode (n : Node) : Bool :=
  match F.type n with
  | .attributeNode | .namespaceNode => false
  | _ => true

def allNodes : List Node :=
  (F.documents.toList.zipIdx).flatMap fun (d, i) => (List.range d.nodes.size).map (⟨i, ·⟩)

/-- The first element of document `d` in document order with the given local name. -/
def elementNamed? (d : Nat) (name : String) : Option Node :=
  (F.subtree ⟨d, 0⟩).find? fun e =>
    F.type e == .element && (F.name? e).any (·.localPart == name)

/-- The nearest declaration of a language on `n` or an ancestor decides: it must be the language
asked for, or have it as its part before the first hyphen. Case does not count. -/
def isInLanguage (wanted : String) (n : Node) : Bool :=
  match (n :: F.ancestors n).findSome? (F.attributeValue? · ⟨xmlNamespace, "lang"⟩) with
  | none => false
  | some declared =>
    same declared wanted ||
      (declared.toList.contains '-' &&
        same (String.ofList (declared.toList.takeWhile (· != '-'))) wanted)
where
  same (a b : String) : Bool := a.toList.map Char.toLower == b.toList.map Char.toLower

end Forest

end XPath
