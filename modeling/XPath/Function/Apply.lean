import XPath.Engine
import XPath.Text.Strings

/-!
# Calling built-in functions

What each built-in function computes from its arguments. Arguments are evaluated one after the
other, each as what the function wants: a string, a number, a truth value or a node-set.
-/

namespace XPath

/-- The vendor that `system-property()` names. -/
def vendor : String := "treepath"

def vendorAddress : String := "https://crates.io/crates/treepath"

/-- A call at the moment it is evaluated. -/
structure CallFrame where
  engine : Engine
  forest : Forest
  function : Builtin
  args : List Expr
  binding : CallBinding
  context : Context

namespace CallFrame

variable (f : CallFrame)

/-- An argument; calls are made with the arguments that the function requires. -/
def arg (i : Nat) : Expr := f.args[i]?.getD (.string "")

def text (i : Nat) : Except Error String := f.engine.text (f.arg i) f.context

def number (i : Nat) : Except Error Float := f.engine.number (f.arg i) f.context

def truth (i : Nat) : Except Error Bool := f.engine.truth (f.arg i) f.context

def value (i : Nat) : Except Error Value := f.engine.value (f.arg i) f.context

/-- An argument that must be a node-set, or a fragment to be made into one. -/
def nodeSet (i : Nat) : Except Error NodeSet := do
  match ← f.value i with
  | .nodeSet s => return s
  | .fragment x => Value.toNodeSet (.fragment x) f.context
  | v => throw (.typeFault (.argumentNotANodeSet f.function.label v.dataType))

def focus : Except Error Node :=
  match f.binding.node with
  | some n => .ok n
  | none => f.context.contextNode

/-- The first node of the argument, or the default node if there is no argument. -/
def target : Except Error (Option Node) :=
  if f.args.isEmpty then f.focus.map some else do (← f.nodeSet 0).first? f.forest

def ofTarget (g : Node → String) : Except Error Value :=
  f.target.map fun n => .string ((n.map g).getD "")

def textOrFocus : Except Error String :=
  if f.args.isEmpty then f.focus.map f.forest.stringValue else f.text 0

def controller? : Option Controller :=
  match f.binding.controller with
  | .bound k => k
  | .unbound => f.context.controller?

def controller : Except Error Controller :=
  match f.controller? with
  | some k => .ok k
  | none => .error (.evaluation (.needsController f.function.label))

def scope : NameScope := f.binding.scope.getD .empty

/-- The string values of the nodes of an argument, or the argument itself as a string. -/
def texts (i : Nat) : Except Error (List String) := do
  match ← f.value i with
  | .nodeSet s => return (← s.toList f.forest).map f.forest.stringValue
  | v => return [← v.toText f.forest]

def ofNodes (nodes : List Node) : Value :=
  .nodeSet ((Extent.ofNodes nodes false).sort f.forest).toNodeSet

def elementsById : Except Error Value := do
  let document := f.forest.documentRoot (← f.focus)
  let words := (← f.texts 0).flatMap Text.words
  return f.ofNodes (words.filterMap (f.forest.elementById? document))

def nodesByKey : Except Error Value := do
  let name ← f.scope.resolve (← f.text 0)
  let document := f.forest.documentRoot (← f.focus)
  let k ← f.controller
  let found ← (← f.texts 1).mapM fun value => k.selectByKey name value document
  return f.ofNodes found.flatten

/-- The documents at the addresses that the first argument holds. A node's address is relative
to the node unless the second argument holds one. -/
def documents : Except Error Value := do
  let k ← f.controller
  let base ← if f.args.length == 2 then do (← f.nodeSet 1).first? f.forest else pure none
  match ← f.value 0 with
  | .nodeSet s =>
    let enumeration ← s.enumerate f.forest
    return f.ofNodes (← loadAll k base enumeration.items)
  | v => return f.ofNodes [← k.loadDocument (← v.toText f.forest) base]
where
  loadAll (k : Controller) (base : Option Node) : List Item → Except Error (List Node)
    | [] => .ok []
    | .error e :: _ => .error e
    | .ok n :: rest => do
      let root ← k.loadDocument (f.forest.stringValue n) (base.or (some n))
      return root :: (← loadAll k base rest)

def formatNumber : Except Error Value := do
  let x ← f.number 0
  let picture ← f.text 1
  let format ← if f.args.length == 3 then do
      let name ← f.scope.resolve (← f.text 2)
      match f.controller?.bind (·.decimalFormat? (some name)) with
      | some format => pure format
      | none => throw (.evaluation (.unknownFormat name))
    else pure ((f.controller?.bind (·.decimalFormat? none)).getD {})
  return .string (← format.format x picture)

def systemProperty : Except Error Value := do
  let name ← f.scope.resolve (← f.text 0)
  if name.uri == stylesheetNamespace then
    return match name.localPart with
      | "version" => .number 1
      | "vendor" => .string vendor
      | "vendor-url" => .string vendorAddress
      | _ => .string ""
  return .string ((f.controller?.bind (·.systemProperty? name)).getD "")

def sum : Except Error Value := do
  let nodes ← (← f.nodeSet 0).toList f.forest
  return .number (nodes.foldl (fun total n => total + Number.ofText (f.forest.stringValue n)) 0)

def run : Except Error Value := do
  match f.function with
  | .last => return .number (Float.ofNat (← f.context.last))
  | .position => return .number (Float.ofNat f.context.position)
  | .count => return .number (Float.ofNat (← (← f.nodeSet 0).count f.forest))
  | .current => return .nodeSet (.singleton (← f.context.currentNode))
  | .id => f.elementsById
  | .key => f.nodesByKey
  | .document => f.documents
  | .localName => f.ofTarget fun n => ((f.forest.name? n).map (·.localPart)).getD ""
  | .namespaceUri => f.ofTarget fun n => ((f.forest.name? n).map (·.namespaceUri)).getD ""
  | .name => f.ofTarget fun n => ((f.forest.name? n).map (·.display)).getD ""
  | .generateId => f.ofTarget fun n =>
    let key := f.forest.orderKey n
    "d" ++ toString key.document ++ "n" ++ toString key.sequence
  | .not => return .boolean !(← f.truth 0)
  | .true => return .boolean true
  | .false => return .boolean false
  | .boolean => return .boolean (← f.truth 0)
  | .lang =>
    let wanted ← f.text 0
    return .boolean (f.forest.isInLanguage wanted (← f.focus))
  | .number =>
    if f.args.isEmpty then return .number (Number.ofText (f.forest.stringValue (← f.focus)))
    else return .number (← f.number 0)
  | .floor => return .number (Number.floor (← f.number 0))
  | .ceiling => return .number (Number.ceiling (← f.number 0))
  | .round => return .number (Number.round (← f.number 0))
  | .sum => f.sum
  | .string => return .string (← f.textOrFocus)
  | .startsWith => return .boolean (Text.startsWith (← f.text 0) (← f.text 1))
  | .stringLength => return .number (Float.ofNat (← f.textOrFocus).length)
  | .substring =>
    let text ← f.text 0
    let start ← f.number 1
    let length ← if f.args.length == 3 then (f.number 2).map some else pure none
    return .string (Text.substring text start length)
  | .contains => return .boolean (Text.contains (← f.text 0) (← f.text 1))
  | .substringBefore => return .string (Text.before (← f.text 0) (← f.text 1))
  | .substringAfter => return .string (Text.after (← f.text 0) (← f.text 1))
  | .normalizeSpace => return .string (Text.normalizeSpace (← f.textOrFocus))
  | .translate => return .string (Text.translate (← f.text 0) (← f.text 1) (← f.text 2))
  | .concat => return .string (String.join (← f.args.mapM fun e => f.engine.text e f.context))
  | .formatNumber => f.formatNumber
  | .systemProperty => f.systemProperty
  | .functionAvailable =>
    return .boolean (f.scope.functionAvailable (← f.scope.resolve (← f.text 0)))
  | .elementAvailable =>
    return .boolean (f.scope.elementAvailable (← f.scope.resolve (← f.text 0)))
  | .unparsedEntityUri =>
    let _ ← f.text 0
    let _ ← f.focus
    return .string ""

end CallFrame

end XPath
