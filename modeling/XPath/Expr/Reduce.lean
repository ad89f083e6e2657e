import XPath.Expr.Simplify

/-!
# Partial evaluation

Replaces everything that an expression reads from the facets of a mask by its value in a context.
Inside predicates and sort keys only the facets that stay fixed there are replaced. The result no
longer depends on the facets and is simplified.
-/

namespace XPath.Expr

/-- A fragment that stands where nodes are wanted becomes nodes while the controller that can
build them is at hand. -/
def asNodeSource (c : Context) : Expr → Except Error Expr
  | literal (.fragment f) => do return literal (.nodeSet (← Value.toNodeSet (.fragment f) c))
  | e => .ok e

/-- A call whose arguments are reduced: what the function itself reads is replaced by its value
or captured by the call, which is then simplified. -/
def reduceCall (F : Forest) (mask : Dependencies) (c : Context) (function : Builtin)
    (args : List Expr) (binding : CallBinding) : Except Error Expr := do
  let intrinsic := intrinsicDependencies function args.length binding &&& mask
  match function, intrinsic.contains .position, intrinsic.contains .last,
      intrinsic.contains .currentNode with
  | .position, true, _, _ => return number (Float.ofNat c.position)
  | .last, _, true, _ => return number (Float.ofNat (← c.last))
  | .current, _, _, true => return literal (.nodeSet (.singleton (← c.currentNode)))
  | _, _, _, _ =>
    let node ← if intrinsic.contains .contextNode then c.contextNode.map some
      else pure binding.node
    let controller := if intrinsic.contains .controller then .bound c.controller?
      else binding.controller
    (call function args { binding with node, controller }).simplify F

variable (E : Engine) (h : Host)

mutual

def reduceWith (mask : Dependencies) (c : Context) (e : Expr) : Except Error Expr :=
  if !e.dependencies.intersects mask then .ok e
  else match e with
    | reference name _ _ => (c.valueOf name).map literal
    | binary op lhs rhs => do
      let lhs ← lhs.reduceWith mask c
      let rhs ← rhs.reduceWith mask c
      (binary op lhs rhs).simplify h.forest
    | negate e => do (negate (← e.reduceWith mask c)).simplify h.forest
    | nodeComparison node op v => do
      (nodeComparison (← node.reduceWith mask c) op v).simplify h.forest
    | contextNode => if mask.contains .contextNode then do return ofNode (some (← c.contextNode))
      else .ok e
    | parentNode =>
      if mask.contains .contextNode then do
        return ofNode (h.forest.parent? (← c.contextNode))
      else .ok e
    | root =>
      if mask.contains .contextNode then do
        return ofNode (some (h.forest.documentRoot (← c.contextNode)))
      else .ok e
    | attributeNamed name display _ =>
      if mask.contains .contextNode then do
        return attributeNamed name display (some (← c.contextNode))
      else .ok e
    | path start axis test predicates => do
      let start ← asNodeSource c (← start.reduceWith mask c)
      let predicates ← reduceListWith (mask &&& .outer) c predicates
      (path start axis test predicates).simplify h.forest
    | filter base predicate => do
      let base ← asNodeSource c (← base.reduceWith mask c)
      let predicate ← predicate.reduceWith (mask &&& .outer) c
      (filter base predicate).simplify h.forest
    | setOperation op lhs rhs => do
      let lhs ← asNodeSource c (← lhs.reduceWith mask c)
      let rhs ← asNodeSource c (← rhs.reduceWith mask c)
      (setOperation op lhs rhs).simplify h.forest
    | call function args binding => do
      reduceCall h.forest mask c function (← reduceListWith mask c args) binding
    | extension name display function args =>
      if function.dependencies.intersects mask then do
        let values ← args.mapM fun e => E.value e c
        return literal (← h.apply function.identity values c)
      else do return extension name display function (← reduceListWith mask c args)
    | sorted selection keys => do
      let selection ← selection.reduceWith mask c
      let keys ← reduceKeysWith mask c keys
      (sorted selection keys).simplify h.forest
    | template parts => do (template (← reducePartsWith mask c parts)).simplify h.forest
    | literal _ => .ok e
    | failure _ => .ok e
termination_by structural e

def reduceListWith (mask : Dependencies) (c : Context) (es : List Expr) :
    Except Error (List Expr) :=
  match es with
  | [] => .ok []
  | e :: rest => do
    let e ← e.reduceWith mask c
    return e :: (← reduceListWith mask c rest)
termination_by structural es

def reduceOptionWith (mask : Dependencies) (c : Context) (e : Option Expr) :
    Except Error (Option Expr) :=
  match e with
  | none => .ok none
  | some e => do return some (← e.reduceWith mask c)
termination_by structural e

def reduceKeyWith (mask : Dependencies) (c : Context) (k : SortKey) : Except Error SortKey :=
  match k with
  | .mk key order dataType caseOrder lang => do
    let key ← key.reduceWith (mask &&& .outer) c
    let order ← reduceOptionWith mask c order
    let dataType ← reduceOptionWith mask c dataType
    let caseOrder ← reduceOptionWith mask c caseOrder
    return .mk key order dataType caseOrder (← reduceOptionWith mask c lang)
termination_by structural k

def reduceKeysWith (mask : Dependencies) (c : Context) (ks : List SortKey) :
    Except Error (List SortKey) :=
  match ks with
  | [] => .ok []
  | k :: rest => do
    let k ← reduceKeyWith mask c k
    return k :: (← reduceKeysWith mask c rest)
termination_by structural ks

def reducePartWith (mask : Dependencies) (c : Context) (p : TemplatePart) :
    Except Error TemplatePart :=
  match p with
  | .text text => .ok (.text text)
  | .expr e => do return .expr (← e.reduceWith mask c)
termination_by structural p

def reducePartsWith (mask : Dependencies) (c : Context) (ps : List TemplatePart) :
    Except Error (List TemplatePart) :=
  match ps with
  | [] => .ok []
  | p :: rest => do
    let p ← reducePartWith mask c p
    return p :: (← reducePartsWith mask c rest)
termination_by structural ps

end

end XPath.Expr
