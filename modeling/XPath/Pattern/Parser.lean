import XPath.Expr.Parser
import XPath.Pattern

/-!
# Reading patterns

The grammar of patterns: alternatives of steps with `/` or `//` between them, which may begin with
`id()` or `key()` of string literals.
-/

namespace XPath.Pattern

open Reader

/-- How a step is tied to the pattern before it. -/
inductive Link
  | parent
  | ancestor
  deriving DecidableEq, Repr

def tie (before : Option (Pattern × Link)) (test : NodeTest) (predicates : List Expr) : Pattern :=
  match before with
  | none => step test predicates
  | some (p, .parent) => location test (some p) none predicates .each
  | some (p, .ancestor) => location test none (some p) predicates .each

def startsStep : TokenKind → Bool
  | .name | .star | .namespaceWildcard | .axis | .atSign | .nodeType => true
  | _ => false

def link? : Reader (Option Link) := do
  match ← kind with
  | .slash =>
    let _ ← advance
    return some .parent
  | .slashSlash =>
    let _ ← advance
    return some .ancestor
  | _ => return none

/-- The test as it holds on the attribute axis, where no node but attributes is met. -/
def onAttributes (test : NodeTest) : NodeTest :=
  match test.kind with
  | .node => .ofKind .attributeNode
  | .attributeNode => test
  | _ => .ofKind .never

variable (s : StaticScope)

/-- A call of `id()` or `key()`. -/
def anchor : Reader Pattern := do
  match (← advance).value with
  | "id" =>
    let value := (← expect .literal).value
    let _ ← expect .rightParen
    return id value
  | "key" =>
    let display := (← expect .literal).value
    let _ ← expect .comma
    let value := (← expect .literal).value
    let _ ← expect .rightParen
    return key (← s.resolve display false) display value
  | _ => fault .functionOfPattern

def stepAxis : Reader Axis := do
  match ← kind with
  | .atSign =>
    let _ ← advance
    return .attributeAxis
  | .axis =>
    match (← advance).value with
    | "child" => return .child
    | "attribute" => return .attributeAxis
    | _ => fault .axisOfPattern
  | _ => return .child

/-- A test with its predicates, which may not ask for the current node. -/
def testAndPredicates : Reader (NodeTest × List Expr) := do
  let axis ← stepAxis
  let test ← Expr.nodeTest s axis.principalKind
  let test := if axis == .attributeAxis then onAttributes test else test
  let predicates ← Expr.predicates (Expr.nested s)
  if predicates.any Expr.usesCurrent then fault .currentInPattern
  return (test, predicates)

def steps : Nat → Option (Pattern × Link) → Reader Pattern
  | 0, _ => throw (.internalFault .depthExceeded)
  | fuel + 1, before => do
    if ← sees .functionName then fault .functionInsidePattern
    let (test, predicates) ← testAndPredicates s
    let pattern := tie before test predicates
    match ← link? with
    | some link => steps fuel (some (pattern, link))
    | none => return pattern

def pathPattern : Reader Pattern := do
  let stepsAfter (before : Option (Pattern × Link)) : Reader Pattern := do
    steps s ((← remaining) + 1) before
  match ← kind with
  | .slash =>
    let _ ← advance
    if startsStep (← kind) then stepsAfter (some (document, .parent)) else return document
  | .slashSlash =>
    let _ ← advance
    stepsAfter (some (document, .ancestor))
  | .functionName =>
    let p ← anchor s
    match ← link? with
    | some link => stepsAfter (some (p, link))
    | none => return p
  | _ => stepsAfter none

def moreAlternatives : Nat → Pattern → Reader Pattern
  | 0, p => pure p
  | fuel + 1, p => do
    if ← sees .union then
      let _ ← advance
      moreAlternatives fuel (union p (← pathPattern s))
    else return p

def alternatives : Reader Pattern := do
  let first ← pathPattern s
  moreAlternatives s ((← remaining) + 1) first

def read (source : String) : Except Error Pattern := (alternatives s).run source

def parse (F : Forest) (source : String) : Except Error Pattern := do
  (← read s source).simplify F

end XPath.Pattern
