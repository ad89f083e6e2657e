import XPath.Expr.Display
import XPath.Expr.Reduce
import XPath.Selection
import XPath.Sorting

/-!
# Evaluation

The value of an expression in a context. `Engine.next` states the rule for every kind of
expression over an engine for its parts; `engine n` applies the rules `n` deep. An expression that
selects nodes is reduced against the whole context first, so that what is left lists its nodes
without one. An expression with `k` nodes is evaluated at most `2 * k` deep: once to reduce it
and once to list what is left, at each of its levels.
-/

namespace XPath

namespace Engine

variable (E : Engine) (h : Host)

/-- The node that an expression names by its place next to the context node, or next to the node
that is bound in the expression. -/
def oneNode (F : Forest) : Expr → Context → Except Error (Option Node)
  | .contextNode, c => c.contextNode.map some
  | .parentNode, c => c.contextNode.map F.parent?
  | .root, c => c.contextNode.map fun n => some (F.documentRoot n)
  | .attributeNamed name _ bound, c => do
    let parent ← match bound with
      | some n => pure n
      | none => c.contextNode
    return (F.attributes parent).find? fun a => (F.name? a).any (·.expanded == name)
  | _, _ => .ok none

/-- The node-set of an expression that needs no context, listed when it is asked for. -/
def intent (e : Expr) : Except Error Intent :=
  if e.dependencies.isEmpty then
    .ok
      { display := e.display
        listing := E.enumerate e .standalone
        fixed := false
        identity := none }
  else .error (.internalFault (.contextDependentNodeSet e.display e.dependencies.bits))

/-- The nodes of an expression as a value: what is left of the expression once everything it
reads from the context is in it. -/
def nodeSet (e : Expr) (c : Context) : Except Error NodeSet := do
  match ← e.reduceWith E h .all c with
  | .literal (.nodeSet s) => s.sorted h.forest
  | .literal v => v.toNodeSet c
  | e => return .intent (← E.intent e)

def ruleValue (e : Expr) (c : Context) : Except Error Value :=
  match e with
  | .literal v => v.ofConstant h.forest
  | .reference _ _ (some v) => .ok v
  | .reference name _ none => c.valueOf name
  | .binary op lhs rhs => E.binary h.forest op lhs rhs c
  | .negate e => do return .number (-(← E.number e c))
  | .nodeComparison node op v => do return .boolean (← E.compareNode h.forest node op v c)
  | .contextNode | .parentNode | .root | .attributeNamed .. => do
    match ← oneNode h.forest e c with
    | some n => return .nodeSet (.singleton n)
    | none => return .nodeSet .empty
  | .path .. | .filter .. | .setOperation .. | .sorted .. => do
    return .nodeSet (← E.nodeSet h e c)
  | .call function args binding => CallFrame.run ⟨E, h.forest, function, args, binding, c⟩
  | .extension _ _ function args => do
    h.apply function.identity (← args.mapM fun e => E.value e c) c
  | .template parts => do return .string (String.join (← parts.mapM (text · c)))
  | .failure error => .error error
where
  text (p : TemplatePart) (c : Context) : Except Error String :=
    match p with
    | .text text => .ok text
    | .expr e => E.text e c

/-- The nodes that an expression selects, in the order in which they are found. -/
def ruleEnumerate (e : Expr) (c : Context) : Except Error Enumeration :=
  match e with
  | .literal (.nodeSet s) => s.enumerate h.forest
  | .contextNode | .parentNode | .root | .attributeNamed .. =>
    (oneNode h.forest e c).map Enumeration.ofOption
  | .path start axis test predicates => do
    return E.path h.forest (← E.enumerate start c) axis test predicates c start.isSingleton
  | .filter base predicate => do
    if base.isEmptyNodeSet then return .ofOption none
    let nodes ← E.enumerate base c
    let nodes ← if predicate.isPositional then nodes.inDocumentOrder h.forest else pure nodes
    return E.filter h.forest nodes predicate c
  | .setOperation op lhs rhs => do
    let left ← E.enumerate lhs c
    left.merge h.forest op (← E.enumerate rhs c)
  | .sorted selection keys => E.sort h.forest selection keys c
  | e => do (← (← E.ruleValue h e c).toNodeSet c).store h.forest

def ruleFirst (e : Expr) (c : Context) : Except Error (Option Node) := do
  (← E.ruleEnumerate h e c).first? h.forest

/-- The value as a truth value. Of selected nodes only the first is looked for. -/
def ruleTruth (e : Expr) (c : Context) : Except Error Bool :=
  if e.isNodeSetExpression then do
    return (← firstItem (← E.ruleEnumerate h e c).items).isSome
  else do (← E.ruleValue h e c).toBool h.forest

/-- The value as a number; of selected nodes the first one counts. -/
def ruleNumber (e : Expr) (c : Context) : Except Error Float :=
  if e.isNodeSetExpression then do
    match ← E.ruleFirst h e c with
    | some n => return Number.ofText (h.forest.stringValue n)
    | none => return 0.0 / 0.0
  else do (← E.ruleValue h e c).toNumber h.forest

/-- The value as a string; of selected nodes the first one counts. -/
def ruleText (e : Expr) (c : Context) : Except Error String :=
  if e.isNodeSetExpression then do
    return ((← E.ruleFirst h e c).map h.forest.stringValue).getD ""
  else do (← E.ruleValue h e c).toText h.forest

def next : Engine where
  value := E.ruleValue h
  truth := E.ruleTruth h
  number := E.ruleNumber h
  text := E.ruleText h
  first := E.ruleFirst h
  enumerate := E.ruleEnumerate h

end Engine

/-- The engine that applies the rules at most so many levels deep. -/
def Host.engine (h : Host) : Nat → Engine
  | 0 => .exhausted
  | depth + 1 => (h.engine depth).next h

namespace Expr

variable (h : Host)

def engine (e : Expr) : Engine := h.engine (2 * e.size)

def evaluate (e : Expr) (c : Context) : Except Error Value := (e.engine h).value e c

def evaluateAsBool (e : Expr) (c : Context) : Except Error Bool := (e.engine h).truth e c

def evaluateAsNumber (e : Expr) (c : Context) : Except Error Float := (e.engine h).number e c

def evaluateAsText (e : Expr) (c : Context) : Except Error String := (e.engine h).text e c

def selectFirst (e : Expr) (c : Context) : Except Error (Option Node) := (e.engine h).first e c

def enumerate (e : Expr) (c : Context) : Except Error Enumeration := (e.engine h).enumerate e c

/-- The expression with everything that it reads from the facets of a mask replaced by its value
in a context. -/
def reduce (mask : Dependencies) (c : Context) (e : Expr) : Except Error Expr :=
  e.reduceWith (e.engine h) h mask c

end Expr

end XPath
