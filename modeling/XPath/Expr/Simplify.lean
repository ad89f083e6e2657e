import XPath.Function.Apply

/-!
# Simplification

Folds constant parts of an expression, drops predicates that always hold, and replaces paths that
can select nothing by the empty node-set. Parts are simplified before the whole, and every rule
looks at simplified parts only.
-/

namespace XPath.Expr

variable (F : Forest)

def isComparable : Expr → Option Value
  | literal (.string s) => some (.string s)
  | literal (.number x) => some (.number x)
  | _ => none

/-- A comparison of one node with a constant has a form of its own, whichever side the node is
on. -/
def ofComparison (op : BinaryOperator) (lhs rhs : Expr) : Expr :=
  match lhs.isSingleton, rhs.isComparable with
  | true, some v => nodeComparison lhs op v
  | _, _ =>
    match rhs.isSingleton, lhs.isComparable with
    | true, some v => nodeComparison rhs op.inverse v
    | _, _ => binary op lhs rhs

def ofBinary (op : BinaryOperator) (lhs rhs : Expr) : Except Error Expr :=
  if lhs.isLiteral && rhs.isLiteral then
    ((Engine.constants F).binary F op lhs rhs .standalone).map literal
  else if op.isBoolean then
    match lhs with
    | literal v => do
      let known ← v.toBool F
      return match op, known with
        | .and, false => boolean false
        | .or, true => boolean true
        | _, _ => call .boolean [rhs] .free
    | _ => .ok (binary op lhs rhs)
  else if op.isComparison then .ok (ofComparison op lhs rhs)
  else .ok (binary op lhs rhs)

def isImpossible (axis : Axis) (kind : NodeKind) : Bool :=
  kind == .never ||
    (kind != .node &&
      ((axis == .attributeAxis) != (kind == .attributeNode) ||
        (axis == .namespaceAxis) != (kind == .namespaceNode)))

def ofPath (start : Expr) (axis : Axis) (test : NodeTest) (predicates : List Expr) : Expr :=
  if axis == .selfAxis && test.kind == .node && predicates.isEmpty && start.isNodeSetExpression
  then start
  else match start, axis, test, predicates with
    | contextNode, .parent, ⟨.node, _⟩, [] => parentNode
    | contextNode, .attributeAxis, ⟨.attributeNode, .named name⟩, [] =>
      attributeNamed name name.display none
    | _, _, _, _ => path start axis test predicates

def ofFilter (base predicate : Expr) : Except Error Expr :=
  match predicate with
  | literal (.number x) => .ok (filter base (number x))
  | literal v => do if ← v.toBool F then return base else return emptyNodeSet
  | predicate => .ok (filter base predicate)

def ofSetOperation (op : SetOperator) (lhs rhs : Expr) : Expr :=
  match op, lhs.isEmptyNodeSet, rhs.isEmptyNodeSet with
  | .union, true, _ => rhs
  | .union, _, true => lhs
  | .intersect, true, _ | .intersect, _, true => emptyNodeSet
  | .except, true, _ => emptyNodeSet
  | .except, _, true => lhs
  | _, _, _ =>
    match lhs, rhs with
    | literal (.nodeSet a), literal (.nodeSet b) => literal (.nodeSet (.combine F op a b))
    | _, _ => setOperation op lhs rhs

/-- A call over simplified arguments is evaluated when it needs nothing from the context. -/
def ofCall (function : Builtin) (args : List Expr) (binding : CallBinding) : Except Error Expr :=
  match function with
  | .true => .ok (boolean true)
  | .false => .ok (boolean false)
  | _ =>
    if (intrinsicDependencies function args.length binding).isEmpty && args.all isLiteral then
      (CallFrame.run ⟨.constants F, F, function, args, binding, .standalone⟩).map literal
    else .ok (call function args binding)

/-- A comparison of one node with a constant is evaluated when the node is known. -/
def ofNodeComparison (node : Expr) (op : BinaryOperator) (value : Value) : Except Error Expr :=
  if node.isLiteral then
    ((Engine.constants F).compareNode F node op value .standalone).map boolean
  else .ok (nodeComparison node op value)

def ofNegation : Expr → Except Error Expr
  | literal v => (v.toNumber F).map fun x => number (-x)
  | e => .ok (negate e)

def joinTexts : List TemplatePart → List TemplatePart
  | .text a :: rest =>
    match joinTexts rest with
    | .text b :: others => .text (a ++ b) :: others
    | others => .text a :: others
  | p :: rest => p :: joinTexts rest
  | [] => []

/-- A template over simplified parts; one without expressions is a string. -/
def ofTemplate (parts : List TemplatePart) : Expr :=
  match joinTexts parts with
  | [] => string ""
  | [.text text] => string text
  | parts => template parts

def ofSorted (selection : Expr) (keys : List SortKey) : Expr :=
  if selection.isEmptyNodeSet then selection else sorted selection keys

mutual

def simplify : Expr → Except Error Expr
  | reference name display constant =>
    match constant with
    | some v => .ok (literal v)
    | none => .ok (reference name display none)
  | binary op lhs rhs => do ofBinary F op (← lhs.simplify) (← rhs.simplify)
  | negate e => do ofNegation F (← e.simplify)
  | nodeComparison node op v => do ofNodeComparison F (← node.simplify) op v
  | path start axis test predicates => do
    let start ← start.simplify
    if start.isEmptyNodeSet || isImpossible axis test.kind then return emptyNodeSet
    match ← simplifyPredicates predicates with
    | some predicates => return ofPath start axis test predicates
    | none => return emptyNodeSet
  | filter base predicate => do
    let base ← base.simplify
    if base.isEmptyNodeSet then return emptyNodeSet
    ofFilter F base (← predicate.simplify)
  | setOperation op lhs rhs => do return ofSetOperation F op (← lhs.simplify) (← rhs.simplify)
  | call function args binding => do ofCall F function (← simplifyList args) binding
  | extension name display function args => do
    return extension name display function (← simplifyList args)
  | sorted selection keys => do
    let selection ← selection.simplify
    if selection.isEmptyNodeSet then return selection
    return ofSorted selection (← simplifyKeys keys)
  | template parts => do return ofTemplate (← simplifyParts parts)
  | literal v => .ok (literal v)
  | contextNode => .ok contextNode
  | parentNode => .ok parentNode
  | root => .ok root
  | attributeNamed name display parent => .ok (attributeNamed name display parent)
  | failure error => .ok (failure error)

def simplifyList : List Expr → Except Error (List Expr)
  | [] => .ok []
  | e :: rest => do
    let e ← e.simplify
    return e :: (← simplifyList rest)

/-- The predicates of a step without those that always hold; nothing if one never holds. -/
def simplifyPredicates : List Expr → Except Error (Option (List Expr))
  | [] => .ok (some [])
  | e :: rest => do
    match ← e.simplify with
    | literal (.number x) => return (← simplifyPredicates rest).map (number x :: ·)
    | literal v => if ← v.toBool F then simplifyPredicates rest else return none
    | e => return (← simplifyPredicates rest).map (e :: ·)

def simplifyOption : Option Expr → Except Error (Option Expr)
  | none => .ok none
  | some e => do return some (← e.simplify)

def simplifyKey : SortKey → Except Error SortKey
  | .mk key order dataType caseOrder lang => do
    let key ← key.simplify
    let order ← simplifyOption order
    let dataType ← simplifyOption dataType
    let caseOrder ← simplifyOption caseOrder
    return .mk key order dataType caseOrder (← simplifyOption lang)

def simplifyKeys : List SortKey → Except Error (List SortKey)
  | [] => .ok []
  | k :: rest => do
    let k ← simplifyKey k
    return k :: (← simplifyKeys rest)

def simplifyPart : TemplatePart → Except Error TemplatePart
  | .text text => .ok (.text text)
  | .expr e => do
    match ← e.simplify with
    | literal v => return .text (← v.toText F)
    | e => return .expr e

def simplifyParts : List TemplatePart → Except Error (List TemplatePart)
  | [] => .ok []
  | p :: rest => do
    let p ← simplifyPart p
    return p :: (← simplifyParts rest)

end

end XPath.Expr
