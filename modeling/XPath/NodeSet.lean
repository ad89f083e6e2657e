import XPath.Enumeration

/-!
# Node-sets

The values of node-set expressions: nothing, one node, a stored list (an extent), or an intent,
which is known by the expression that yields it and lists its nodes when they are asked for. An
intent that yields document order is read as it is; another one is sorted into an extent once and
is fixed from then on.
-/

namespace XPath

/-- A stored list of nodes with what is known of its order. -/
structure Extent where
  nodes : List Node
  sorted : Bool
  reverse : Bool
  deriving DecidableEq, Repr, Inhabited

/-- A node-set given by an expression that needs no context: `display` shows the expression,
`listing` is what it enumerates to. Two intents are the same value only if they have the same
identity. -/
structure Intent where
  display : String
  listing : Except Error Enumeration
  fixed : Bool
  identity : Option Nat
  deriving Inhabited

inductive NodeSet
  | empty
  | singleton (n : Node)
  | extent (e : Extent)
  | intent (i : Intent)
  deriving Inhabited

namespace Extent

def ofNodes (nodes : List Node) (sorted : Bool) : Extent :=
  let trivially := decide (nodes.length < 2)
  ⟨nodes, sorted || trivially, trivially⟩

def ofEnumeration (e : Enumeration) : Except Error Extent :=
  e.nodes.map fun nodes =>
    let trivially := decide (nodes.length < 2)
    ⟨nodes, e.sorted || trivially, e.reverse || trivially⟩

/-- The nodes in document order, each once. A sorted list is taken as it is, a reversed one is
turned around. -/
def sort (F : Forest) (e : Extent) : Extent :=
  if e.sorted then e
  else
    let nodes := if e.reverse then e.nodes.reverse else F.inOrder e.nodes
    ⟨nodes, true, decide (nodes.length < 2)⟩

def enumerate (e : Extent) : Enumeration := .ofNodes e.nodes e.sorted e.reverse

def first? (F : Forest) (e : Extent) : Option Node :=
  if e.sorted then e.nodes.head?
  else if e.reverse then e.nodes.getLast?
  else F.earliest? e.nodes

/-- Looks for a place in `steps` halvings of the list between `base` and `base + size`. -/
def bisect (F : Forest) (nodes : Array Node) (key : OrderKey) : Nat → Nat → Nat → Bool
  | 0, base, _ => nodes[base]?.any fun n => F.orderKey n == key
  | steps + 1, base, size =>
    if size ≤ 1 then nodes[base]?.any fun n => F.orderKey n == key
    else
      let half := size / 2
      let behind := nodes[base + half]?.any fun n => key.before (F.orderKey n)
      bisect F nodes key steps (if behind then base else base + half) (size - half)

def contains (F : Forest) (e : Extent) (n : Node) : Bool :=
  if e.sorted then bisect F e.nodes.toArray (F.orderKey n) e.nodes.length 0 e.nodes.length
  else e.nodes.any fun m => F.orderKey m == F.orderKey n

def toNodeSet (e : Extent) : NodeSet :=
  match e.nodes with
  | [] => .empty
  | [n] => .singleton n
  | _ => .extent e

end Extent

namespace Intent

variable (F : Forest)

def fix (i : Intent) : Except Error Extent := do
  let e ← Extent.ofEnumeration (← i.listing)
  return e.sort F

def isInOrder (i : Intent) : Except Error Bool :=
  if i.fixed then .ok true else i.listing.map (·.sorted)

def enumerate (i : Intent) : Except Error Enumeration := do
  if i.fixed then return (← i.fix F).enumerate
  let raw ← i.listing
  if raw.sorted then return raw
  return (← i.fix F).enumerate

def count (i : Intent) : Except Error Nat := do
  if i.fixed then return (← i.fix F).nodes.length
  let raw ← i.listing
  if raw.sorted then return (← raw.nodes).length
  return (← i.fix F).nodes.length

def isEmpty (i : Intent) : Except Error Bool := do
  if i.fixed then return (← i.fix F).nodes.isEmpty
  return (← firstItem (← i.listing).items).isNone

def first? (i : Intent) : Except Error (Option Node) := do
  if i.fixed then return (← i.fix F).first? F
  let raw ← i.listing
  if raw.sorted then firstItem raw.items
  else return (← i.fix F).first? F

end Intent

namespace NodeSet

variable (F : Forest)

def ofNodes (nodes : List Node) (sorted : Bool) : NodeSet := (Extent.ofNodes nodes sorted).toNodeSet

def enumerate : NodeSet → Except Error Enumeration
  | empty => .ok (.ofOption none)
  | singleton n => .ok (.ofOption (some n))
  | extent e => .ok (e.sort F).enumerate
  | intent i => i.enumerate F

def store : NodeSet → Except Error Enumeration
  | intent i => (i.fix F).map Extent.enumerate
  | s => s.enumerate F

/-- The same nodes in document order. An intent that is in order stays what it is. -/
def sorted (s : NodeSet) : Except Error NodeSet :=
  match s with
  | extent e => .ok (e.sort F).toNodeSet
  | intent i => do
    if ← i.isInOrder then return s
    return (← i.fix F).toNodeSet
  | s => .ok s

def count : NodeSet → Except Error Nat
  | empty => .ok 0
  | singleton _ => .ok 1
  | extent e => .ok (e.sort F).nodes.length
  | intent i => i.count F

def isEmpty : NodeSet → Except Error Bool
  | empty => .ok true
  | singleton _ => .ok false
  | extent e => .ok e.nodes.isEmpty
  | intent i => i.isEmpty F

def first? : NodeSet → Except Error (Option Node)
  | empty => .ok none
  | singleton n => .ok (some n)
  | extent e => .ok (e.first? F)
  | intent i => i.first? F

def contains (s : NodeSet) (n : Node) : Except Error Bool :=
  match s with
  | empty => .ok false
  | singleton m => .ok (m == n)
  | extent e => .ok (e.contains F n)
  | intent i => (i.fix F).map (·.contains F n)

def toList (s : NodeSet) : Except Error (List Node) := do (← s.enumerate F).nodes

def toText (s : NodeSet) : Except Error String := do
  return ((← s.first? F).map F.stringValue).getD ""

def display : NodeSet → String
  | empty => "empty()"
  | _ => "\x7bnode-set\x7d"

end NodeSet

/-- The enumeration in document order, sorted now if its flag does not promise that. -/
def Enumeration.inDocumentOrder (F : Forest) (e : Enumeration) : Except Error Enumeration :=
  if e.sorted then .ok e
  else (Extent.ofEnumeration e).map fun x => (x.sort F).enumerate

def Enumeration.merge (F : Forest) (op : SetOperator) (left right : Enumeration) :
    Except Error Enumeration := do
  let l ← left.inDocumentOrder F
  let r ← right.inDocumentOrder F
  let readings := mergeReadings F op l.readings r.readings
  return { items := itemsOf readings, sorted := true, reverse := false, peer := false,
           size := .unknown, beyond := beyondOf readings }

namespace NodeSet

def combine (F : Forest) (op : SetOperator) (a b : NodeSet) : NodeSet :=
  .intent
    { display := "(" ++ a.display ++ " " ++ op.symbol ++ " " ++ b.display ++ ")"
      listing := do (← a.enumerate F).merge F op (← b.enumerate F)
      fixed := false
      identity := none }

def union (F : Forest) (a b : NodeSet) : NodeSet := combine F .union a b
def intersection (F : Forest) (a b : NodeSet) : NodeSet := combine F .intersect a b
def difference (F : Forest) (a b : NodeSet) : NodeSet := combine F .except a b

/-- Whether two sets are the same value: of one form with the same content, where intents are
told apart by `sameIntent`. -/
def same (sameIntent : Intent → Intent → Bool) : NodeSet → NodeSet → Bool
  | empty, empty => true
  | singleton a, singleton b => a == b
  | extent a, extent b => a.nodes == b.nodes
  | intent a, intent b => sameIntent a b
  | _, _ => false

end NodeSet

def Intent.sameIdentity (a b : Intent) : Bool := a.identity.isSome && a.identity == b.identity

end XPath
