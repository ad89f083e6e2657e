import XPath.Tree.Basic

/-!
# Axes

The thirteen axes with their properties, and the tests that a step makes on the nodes of its axis.
The properties tell in which order the nodes come and whether one of them can be an ancestor of
another; later steps skip sorting on their word.
-/

namespace XPath

/-- The kind of node that a step requires; `never` is a test that nothing passes. -/
inductive NodeKind
  | node
  | element
  | attributeNode
  | text
  | comment
  | processingInstruction
  | document
  | namespaceNode
  | never
  deriving DecidableEq, Repr, Inhabited

def NodeKind.accepts (k : NodeKind) (t : NodeType) : Bool :=
  match k with
  | node => true
  | element => t == .element
  | attributeNode => t == .attributeNode
  | text => t == .text
  | comment => t == .comment
  | processingInstruction => t == .processingInstruction
  | document => t == .root
  | namespaceNode => t == .namespaceNode
  | never => false

def NodeKind.table : List (NodeKind × String) :=
  [(node, "Node"), (element, "Element"), (attributeNode, "Attribute"), (text, "Text"),
    (comment, "Comment"), (processingInstruction, "ProcessingInstruction"),
    (document, "Document"), (namespaceNode, "Namespace"), (never, "Never")]

def NodeKind.label (k : NodeKind) : String := ((table.find? (·.1 == k)).map (·.2)).getD ""

def NodeKind.ofLabel? (name : String) : Option NodeKind :=
  (table.find? (·.2 == name)).map (·.1)

inductive Axis
  | ancestor
  | ancestorOrSelf
  | attributeAxis
  | child
  | descendant
  | descendantOrSelf
  | following
  | followingSibling
  | namespaceAxis
  | parent
  | preceding
  | precedingSibling
  | selfAxis
  deriving DecidableEq, Repr, Inhabited

namespace Axis

def table : List (Axis × String) :=
  [(ancestor, "ancestor"), (ancestorOrSelf, "ancestor-or-self"), (attributeAxis, "attribute"),
    (child, "child"), (descendant, "descendant"), (descendantOrSelf, "descendant-or-self"),
    (following, "following"), (followingSibling, "following-sibling"),
    (namespaceAxis, "namespace"), (parent, "parent"), (preceding, "preceding"),
    (precedingSibling, "preceding-sibling"), (selfAxis, "self")]

def name (a : Axis) : String := ((table.find? (·.1 == a)).map (·.2)).getD ""

def ofName? (name : String) : Option Axis := (table.find? (·.2 == name)).map (·.1)

theorem ofName?_name (a : Axis) : ofName? a.name = some a := by
  cases a <;> decide

def principalKind : Axis → NodeKind
  | attributeAxis => .attributeNode
  | namespaceAxis => .namespaceNode
  | _ => .element

def isReverseSorted : Axis → Bool
  | ancestor | ancestorOrSelf | preceding | precedingSibling => true
  | _ => false

def isSorted (a : Axis) : Bool := !a.isReverseSorted

/-- No node on the axis is an ancestor of another. -/
def isPeer : Axis → Bool
  | attributeAxis | child | followingSibling | namespaceAxis | parent | precedingSibling
  | selfAxis => true
  | _ => false

def isWithinSubtree : Axis → Bool
  | attributeAxis | child | descendant | descendantOrSelf | namespaceAxis | selfAxis => true
  | _ => false

end Axis

namespace Forest

variable (F : Forest)

def siblingsBefore (n : Node) : List Node :=
  if F.isTreeNode n then
    match F.parent? n with
    | some p =>
      if (F.children p).contains n then (F.children p).takeWhile (· != n) else []
    | none => []
  else []

def siblingsAfter (n : Node) : List Node :=
  if F.isTreeNode n then
    match F.parent? n with
    | some p => ((F.children p).dropWhile (· != n)).drop 1
    | none => []
  else []

end Forest

/-- The name that a step requires. A namespace wildcard holds the resolved URI. -/
inductive NameTest
  | any
  | inNamespace (uri : String)
  | named (name : ExpandedName)
  deriving DecidableEq, Repr, Inhabited

namespace NameTest

def accepts (t : NameTest) (name : Option QName) : Bool :=
  match t with
  | any => true
  | inNamespace uri => name.any (·.namespaceUri == uri)
  | named expected => name.any (·.expanded == expected)

def defaultPriority : NameTest → Float
  | named _ => 0
  | inNamespace _ => -0.25
  | any => -0.5

end NameTest

structure NodeTest where
  kind : NodeKind
  name : NameTest
  deriving DecidableEq, Repr, Inhabited

namespace NodeTest

/-- The test `node()`, which every node passes. -/
def anyNode : NodeTest := ⟨.node, .any⟩

def ofKind (kind : NodeKind) : NodeTest := ⟨kind, .any⟩

def accepts (t : NodeTest) (F : Forest) (n : Node) : Bool :=
  t.kind.accepts (F.type n) && t.name.accepts (F.name? n)

def display (t : NodeTest) : String :=
  match t.kind, t.name with
  | .processingInstruction, .named target =>
    "processing-instruction('" ++ target.localPart ++ "')"
  | .element, name | .attributeNode, name | .namespaceNode, name =>
    match name with
    | .any => "*"
    | .inNamespace uri => "\x7b" ++ uri ++ "\x7d*"
    | .named n => n.display
  | .node, _ => "node()"
  | .text, _ => "text()"
  | .comment, _ => "comment()"
  | .processingInstruction, _ => "processing-instruction()"
  | .document, _ => "/"
  | .never, _ => "empty()"

end NodeTest

end XPath
