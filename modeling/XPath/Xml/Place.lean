import XPath.Tree.Basic

/-!
# Places in a parsed document

A parser that keeps declarations and attributes as lists of their element numbers only the other
nodes, those of the tree. A place is a node of the tree with a slot: the node itself, one of its
declarations or one of its attributes. Its order key packs the rank of the node in its tree with the
offset of the slot.
-/

namespace XPath.Xml

/-- What stands at a node of the tree: the node itself, or a member of one of its lists. -/
inductive Slot
  | node
  | namespaceNode (index : Nat)
  | attributeNode (index : Nat)
  deriving DecidableEq, Repr, Inhabited

structure Place where
  node : Node
  slot : Slot
  deriving DecidableEq, Repr, Inhabited

namespace Place

def ofNode (n : Node) : Place := ⟨n, .node⟩

variable (F : Forest)

/-- The node of the forest that stands there; beyond the end of a list there is none. -/
def resolve? (x : Place) : Option Node :=
  match x.slot with
  | .node => some x.node
  | .namespaceNode i => (F.namespaces x.node)[i]?
  | .attributeNode i => (F.attributes x.node)[i]?

def type (x : Place) : NodeType :=
  match x.slot with
  | .node => F.type x.node
  | .namespaceNode _ => .namespaceNode
  | .attributeNode _ => .attributeNode

def name? (x : Place) : Option QName := (x.resolve? F).bind F.name?

def stringValue (x : Place) : String := ((x.resolve? F).map F.stringValue).getD ""

/-! ### Links -/

def listed (slot : Nat → Slot) (list : Node → List Node) (x : Place) : List Place :=
  match x.slot with
  | .node =>
    if F.type x.node == .element then
      (List.range (list x.node).length).map fun i => ⟨x.node, slot i⟩
    else []
  | _ => []

def namespaces (x : Place) : List Place := x.listed F .namespaceNode F.namespaces

def attributes (x : Place) : List Place := x.listed F .attributeNode F.attributes

def children (x : Place) : List Place :=
  match x.slot with
  | .node => (F.children x.node).map ofNode
  | _ => []

def parent? (x : Place) : Option Place :=
  match x.slot with
  | .node => (F.parent? x.node).map ofNode
  | _ => some (ofNode x.node)

def documentRoot (x : Place) : Place := ofNode ⟨x.node.document, 0⟩

/-- The first element in the order of the numbers whose first attribute with the local part `id`, in
whatever namespace, has the value `value`. -/
def elementById? (x : Place) (value : String) : Option Place :=
  let nodes := (List.range (F.size x.node)).map fun i => { x.node with number := i }
  (nodes.find? fun e =>
    F.type e == .element &&
      F.firstAttributeValue? e IdAttribute.anyNamespace.accepts == some value).map ofNode

/-! ### Order -/

/-- The offset of a slot from its node: declarations come first, then attributes. -/
def offset (x : Place) : Nat :=
  match x.slot with
  | .node => 0
  | .namespaceNode i => 1 + i
  | .attributeNode i => 1 + (F.namespaces x.node).length + i

def pack (rank : UInt32) (offset : Nat) : UInt64 :=
  (rank.toUInt64 <<< 32) ||| UInt64.ofNat offset

/-- The order key of a place; the parser gives each node of the tree its rank among those. -/
def orderKey (rank : Node → UInt32) (x : Place) : OrderKey :=
  ⟨(F.orderKey x.node).document, (pack (rank x.node) (x.offset F)).toNat⟩

def equal (rank : Node → UInt32) (x y : Place) : Bool := x.orderKey F rank == y.orderKey F rank

/-! ### What any tree of nodes can do -/

def firstAttributeValue? (x : Place) (accepts : QName → Bool) : Option String :=
  ((x.attributes F).find? fun a => (a.name? F).any accepts).map (stringValue F)

/-- What is reached from parent to parent in at most `steps` steps. -/
def climb : Nat → Place → Place
  | 0, x => x
  | steps + 1, x =>
    match x.parent? F with
    | some p => climb steps p
    | none => x

/-- The first place that `accepts` among those of a stack and below them. Each step takes one place
from the stack and puts its children there. -/
def search (accepts : Place → Bool) : Nat → List Place → Option Place
  | 0, _ => none
  | _, [] => none
  | steps + 1, x :: stack =>
    if accepts x then some x else search accepts steps (x.children F ++ stack)

/-- The first element from the root of the document on whose identifying attribute is equal to
`value`, found in at most `steps` steps. -/
def searchById? (rule : IdAttribute) (steps : Nat) (x : Place) (value : String) : Option Place :=
  search F (fun e => e.type F == .element && e.firstAttributeValue? F rule.accepts == some value)
    steps [x.documentRoot]

/-- The place, its declarations, its attributes and its children in the same way, down to `depth`
levels. -/
def walkTo : Nat → Place → List Place
  | 0, x => x :: (x.namespaces F ++ x.attributes F)
  | depth + 1, x => x :: (x.namespaces F ++ x.attributes F) ++ (x.children F).flatMap (walkTo depth)

/-- All that a walk from a place comes to. No tree is deeper than it has nodes. -/
def walk (x : Place) : List Place := x.walkTo F (F.size x.node)

end Place

end XPath.Xml
