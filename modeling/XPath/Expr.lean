import XPath.Axis
import XPath.Context

/-!
# Expressions

The expression tree with what can be read off it without evaluating: its static type, the facets
of the context it depends on, and whether it selects at most one node. Expressions that were
evaluated in part hold values, bound nodes and bound controllers in place of what was read.
-/

namespace XPath

/-- Whether a call has taken its controller from a context already. Taking none is a binding too:
the call then has to do without. -/
inductive ControllerBinding
  | unbound
  | bound (controller : Option Controller)

/-- What a call of a built-in function has captured: a node in place of the context node, a
controller, and the names in scope where it was written. -/
structure CallBinding where
  node : Option Node
  controller : ControllerBinding
  scope : Option NameScope

def CallBinding.free : CallBinding := ⟨none, .unbound, none⟩

mutual

inductive Expr
  | literal (value : Value)
  /-- A variable; one with a constant stands for that. -/
  | reference (name : ExpandedName) (display : String) (constant : Option Value)
  | binary (op : BinaryOperator) (lhs rhs : Expr)
  | negate (operand : Expr)
  /-- Compares the one node of `node`, if there is one, with a constant. -/
  | nodeComparison (node : Expr) (op : BinaryOperator) (value : Value)
  | contextNode
  | parentNode
  | root
  /-- The attribute of a name, on the context node or on a bound one. -/
  | attributeNamed (name : ExpandedName) (display : String) (parent : Option Node)
  /-- A step taken from every node of `start`, with predicates that filter in turn. -/
  | path (start : Expr) (axis : Axis) (test : NodeTest) (predicates : List Expr)
  /-- The nodes of `base` that pass a predicate, numbered in document order. -/
  | filter (base predicate : Expr)
  | setOperation (op : SetOperator) (lhs rhs : Expr)
  | call (function : Builtin) (args : List Expr) (binding : CallBinding)
  | extension (name : ExpandedName) (display : String) (function : ExtensionFunction)
      (args : List Expr)
  /-- The nodes of a selection in the order of sort keys. -/
  | sorted (selection : Expr) (keys : List SortKey)
  | template (parts : List TemplatePart)
  /-- An error of the text, raised when the expression is evaluated. -/
  | failure (error : Error)

/-- A sort key: an expression evaluated for each node, and attributes evaluated once that choose
how its values are compared. -/
inductive SortKey
  | mk (key : Expr) (order dataType caseOrder lang : Option Expr)

inductive TemplatePart
  | text (text : String)
  | expr (e : Expr)

end

instance : Inhabited Expr := ⟨.contextNode⟩

namespace SortKey

def key : SortKey → Expr | mk key _ _ _ _ => key
def order : SortKey → Option Expr | mk _ order _ _ _ => order
def dataType : SortKey → Option Expr | mk _ _ dataType _ _ => dataType
def caseOrder : SortKey → Option Expr | mk _ _ _ caseOrder _ => caseOrder
def lang : SortKey → Option Expr | mk _ _ _ _ lang => lang

end SortKey

/-- What a built-in function reads of the context apart from its arguments. -/
def intrinsicDependencies (function : Builtin) (argumentCount : Nat) (binding : CallBinding) :
    Dependencies :=
  let node := if binding.node.isNone then Dependencies.contextNode else .empty
  let controller := match binding.controller with
    | .unbound => Dependencies.controller
    | .bound _ => .empty
  match function with
  | .position => .position
  | .last => .last
  | .current => .currentNode
  | .lang | .id | .unparsedEntityUri => node
  | .key => node ||| controller
  | .document | .formatNumber | .systemProperty => controller
  | f => if f.defaultsToContextNode && argumentCount == 0 then node else .empty

namespace Expr

def number (x : Float) : Expr := literal (.number x)
def string (s : String) : Expr := literal (.string s)
def boolean (b : Bool) : Expr := literal (.boolean b)
def emptyNodeSet : Expr := literal (.nodeSet .empty)

def ofNode (n : Option Node) : Expr :=
  literal (.nodeSet (match n with
    | some n => .singleton n
    | none => .empty))

def isLiteral : Expr → Bool
  | literal _ => true
  | _ => false

def isEmptyNodeSet : Expr → Bool
  | literal (.nodeSet .empty) => true
  | _ => false

/-- Expressions that select at most one node, whatever the context. -/
def isSingleton : Expr → Bool
  | contextNode | parentNode | root | attributeNamed .. => true
  | literal (.nodeSet .empty) | literal (.nodeSet (.singleton _)) => true
  | _ => false

def isNodeSetExpression : Expr → Bool
  | contextNode | parentNode | root | attributeNamed .. | path .. | filter .. | setOperation ..
  | sorted .. => true
  | _ => false

def dataType : Expr → DataType
  | literal v => v.dataType
  | reference _ _ (some v) => v.dataType
  | reference _ _ none => .any
  | binary op _ _ => if op.isArithmetic then .number else .boolean
  | negate _ => .number
  | nodeComparison .. => .boolean
  | call function _ _ => function.dataType
  | extension _ _ function _ => function.dataType
  | template _ => .string
  | failure _ => .any
  | _ => .nodeSet

def isNumeric (e : Expr) : Bool := e.dataType == .number

mutual

/-- The facets of the context that the expression reads. A predicate or sort key contributes only
those that stay fixed while it is evaluated for one node after the other. -/
def dependencies : Expr → Dependencies
  | literal _ => .empty
  | failure _ => .empty
  | reference _ _ (some _) => .empty
  | reference _ _ none => .variableValues
  | binary _ lhs rhs => lhs.dependencies ||| rhs.dependencies
  | negate e => e.dependencies
  | nodeComparison e _ _ => e.dependencies
  | contextNode => .contextNode
  | parentNode => .contextNode
  | root => .contextNode
  | attributeNamed _ _ (some _) => .empty
  | attributeNamed _ _ none => .contextNode
  | path start _ _ predicates =>
    start.dependencies ||| (dependenciesOfList predicates &&& .outer)
  | filter base predicate => base.dependencies ||| (predicate.dependencies &&& .outer)
  | setOperation _ lhs rhs => lhs.dependencies ||| rhs.dependencies
  | call function args binding =>
    intrinsicDependencies function args.length binding ||| dependenciesOfList args
  | extension _ _ function args => function.dependencies ||| dependenciesOfList args
  | sorted selection keys => selection.dependencies ||| dependenciesOfKeys keys
  | template parts => dependenciesOfParts parts

def dependenciesOfList : List Expr → Dependencies
  | [] => .empty
  | e :: rest => e.dependencies ||| dependenciesOfList rest

def dependenciesOfOption : Option Expr → Dependencies
  | none => .empty
  | some e => e.dependencies

def dependenciesOfKey : SortKey → Dependencies
  | .mk key order dataType caseOrder lang =>
    (key.dependencies &&& .outer) ||| dependenciesOfOption order
      ||| dependenciesOfOption dataType ||| dependenciesOfOption caseOrder
      ||| dependenciesOfOption lang

def dependenciesOfKeys : List SortKey → Dependencies
  | [] => .empty
  | k :: rest => dependenciesOfKey k ||| dependenciesOfKeys rest

def dependenciesOfPart : TemplatePart → Dependencies
  | .text _ => .empty
  | .expr e => e.dependencies

def dependenciesOfParts : List TemplatePart → Dependencies
  | [] => .empty
  | p :: rest => dependenciesOfPart p ||| dependenciesOfParts rest

end

/-- The value depends on the position or the size of the list of nodes. -/
def isRelative (e : Expr) : Bool := e.dependencies.intersects (.position ||| .last)

def usesCurrent (e : Expr) : Bool := e.dependencies.contains .currentNode

/-- A predicate that may select by position: its base must be in order for it. -/
def isPositional (e : Expr) : Bool := e.isNumeric || e.dataType == .any || e.isRelative

mutual

def size : Expr → Nat
  | literal _ => 1
  | failure _ => 1
  | reference .. => 1
  | binary _ lhs rhs => 1 + lhs.size + rhs.size
  | negate e => 1 + e.size
  | nodeComparison e _ _ => 1 + e.size
  | contextNode => 1
  | parentNode => 1
  | root => 1
  | attributeNamed .. => 1
  | path start _ _ predicates => 1 + start.size + sizeOfList predicates
  | filter base predicate => 1 + base.size + predicate.size
  | setOperation _ lhs rhs => 1 + lhs.size + rhs.size
  | call _ args _ => 1 + sizeOfList args
  | extension _ _ _ args => 1 + sizeOfList args
  | sorted selection keys => 1 + selection.size + sizeOfKeys keys
  | template parts => 1 + sizeOfParts parts

def sizeOfList : List Expr → Nat
  | [] => 0
  | e :: rest => e.size + sizeOfList rest

def sizeOfOption : Option Expr → Nat
  | none => 0
  | some e => e.size

def sizeOfKey : SortKey → Nat
  | .mk key order dataType caseOrder lang =>
    1 + key.size + sizeOfOption order + sizeOfOption dataType + sizeOfOption caseOrder
      + sizeOfOption lang

def sizeOfKeys : List SortKey → Nat
  | [] => 0
  | k :: rest => sizeOfKey k + sizeOfKeys rest

def sizeOfPart : TemplatePart → Nat
  | .text _ => 1
  | .expr e => 1 + e.size

def sizeOfParts : List TemplatePart → Nat
  | [] => 0
  | p :: rest => sizeOfPart p + sizeOfParts rest

end

end Expr

end XPath
