import XPath.DecimalFormat
import XPath.Scope

/-!
# The dynamic context

The focus of an evaluation (context node, position and size), the current node, the values of
variables and the services of the host. The host itself, which every evaluation shares, is the
forest of documents and the functions that it implements.
-/

namespace XPath

/-- Services of the host. Two controllers are the same if their identities are. -/
structure Controller where
  identity : Nat
  /-- The nodes of a document whose key has a value, in any order. -/
  selectByKey : ExpandedName → String → Node → Except Error (List Node)
  /-- The root of the document at an address, relative to a node if one is given. -/
  loadDocument : String → Option Node → Except Error Node
  systemProperty? : ExpandedName → Option String
  /-- The decimal format of a name, or the default one. -/
  decimalFormat? : Option ExpandedName → Option DecimalFormat
  /-- The root of a tree built from a fragment. -/
  materialize : Fragment → Except Error Node

def Controller.bare (identity : Nat) : Controller where
  identity
  selectByKey name _ _ := .error (.evaluation (.undefinedKey name))
  loadDocument href _ := .error (.evaluation (.unavailableDocument href))
  systemProperty? _ := none
  decimalFormat? _ := none
  materialize _ := .error (.evaluation .fragmentNotConvertible)

/-- How `last()` is answered. `pending` marks the answer as not yet read from the list. -/
inductive LastPosition
  | known (n : Nat)
  | unknown
  | pending
  deriving DecidableEq, Repr, Inhabited

structure Context where
  contextNode? : Option Node
  currentNode? : Option Node
  position : Nat
  lastPosition : LastPosition
  bindings : List (ExpandedName × Value)
  controller? : Option Controller

namespace Context

def standalone : Context := ⟨none, none, 1, .known 1, [], none⟩

def ofNode (n : Node) : Context := { standalone with contextNode? := some n, currentNode? := some n }

/-- The context of one item of a node list; all but the focus stays. -/
def forItem (c : Context) (n : Node) (position : Nat) (last : LastPosition) : Context :=
  { c with contextNode? := some n, position, lastPosition := last }

def contextNode (c : Context) : Except Error Node :=
  match c.contextNode? with
  | some n => .ok n
  | none => .error (.evaluation .noContextNode)

def currentNode (c : Context) : Except Error Node :=
  match c.currentNode? with
  | some n => .ok n
  | none => .error (.evaluation .noCurrentNode)

def last (c : Context) : Except Error Nat :=
  match c.lastPosition with
  | .known n => .ok n
  | .unknown => .error (.evaluation .unknownSize)
  | .pending => .error .sizePending

/-- The value of a variable; of several with one name the first counts. -/
def valueOf (c : Context) (name : ExpandedName) : Except Error Value :=
  match c.bindings.find? (·.1 == name) with
  | some (_, v) => .ok v
  | none => .error (.evaluation (.unboundVariable name))

def controller (c : Context) : Except Error Controller :=
  match c.controller? with
  | some k => .ok k
  | none => .error (.evaluation .noController)

end Context

/-- What every evaluation shares: the documents, and the functions of the host by identity. -/
structure Host where
  forest : Forest
  apply : Nat → List Value → Context → Except Error Value

/-- The nodes of a value: its own, or the root of the tree that the controller builds from a
fragment. -/
def Value.toNodeSet (v : Value) (c : Context) : Except Error NodeSet :=
  match v with
  | .nodeSet s => .ok s
  | .fragment f => do
    let k ← c.controller
    return .singleton (← k.materialize f)
  | v => .error (.typeFault (.notANodeSet v.dataType))

end XPath
