import XPath.Cursor
import XPath.Expr.Display
import XPath.Expr.Simplify
import XPath.Scope

/-!
# Reading expressions

The grammar of expressions, loosest operators first. Names are resolved as they are read, so the
first fault from the left is the one reported. Every level takes the reader for whole expressions,
which stand again in brackets, predicates and arguments, as a parameter; `expression n` reads
expressions in which these are nested less than `n` deep, and no text nests deeper than it has
tokens.
-/

namespace XPath.Expr

open Reader

/-- A step of a path: its axis, its test and its predicates. -/
structure Step where
  axis : Axis
  test : NodeTest
  predicates : List Expr

def thenStep (start : Expr) (s : Step) : Expr := path start s.axis s.test s.predicates

/-- The step that `//` abbreviates. -/
def anyDescendant : Step := ⟨.descendantOrSelf, .anyNode, []⟩

/-- What is left of a level of binary operators, with `lhs` read already. An operator takes its
left operand first. -/
def moreOperands (operator? : TokenKind → Option BinaryOperator) (operand : Reader Expr) :
    Nat → Expr → Reader Expr
  | 0, lhs => pure lhs
  | steps + 1, lhs => do
    match operator? (← kind) with
    | none => return lhs
    | some op =>
      let _ ← advance
      moreOperands operator? operand steps (binary op lhs (← operand))

def operatorLevel (operator? : TokenKind → Option BinaryOperator) (operand : Reader Expr) :
    Reader Expr := do
  let lhs ← operand
  moreOperands operator? operand ((← remaining) + 1) lhs

def orOperator? : TokenKind → Option BinaryOperator
  | .or => some .or
  | _ => none

def andOperator? : TokenKind → Option BinaryOperator
  | .and => some .and
  | _ => none

def equalityOperator? : TokenKind → Option BinaryOperator
  | .equals => some .equals
  | .notEquals => some .notEquals
  | _ => none

def relationalOperator? : TokenKind → Option BinaryOperator
  | .lessThan => some .lessThan
  | .lessThanOrEqual => some .lessThanOrEqual
  | .greaterThan => some .greaterThan
  | .greaterThanOrEqual => some .greaterThanOrEqual
  | _ => none

def additiveOperator? : TokenKind → Option BinaryOperator
  | .plus => some .plus
  | .minus => some .minus
  | _ => none

def multiplicativeOperator? : TokenKind → Option BinaryOperator
  | .multiply => some .multiply
  | .div => some .divide
  | .mod => some .modulo
  | _ => none

def startsStep : TokenKind → Bool
  | .name | .star | .namespaceWildcard | .axis | .atSign | .dot | .dotDot | .nodeType => true
  | _ => false

/-- Operands of `|` that can turn out to be node-sets. -/
def isUnionOperand (e : Expr) : Bool := e.dataType == .nodeSet || e.dataType == .any

def negations (operand : Reader Expr) : Nat → Reader Expr
  | 0 => operand
  | steps + 1 => do
    if ← sees .negate then
      let _ ← advance
      return negate (← negations operand steps)
    else operand

def moreUnion (operand : Reader Expr) : Nat → Expr → Reader Expr
  | 0, lhs => pure lhs
  | steps + 1, lhs => do
    if ← sees .union then
      let _ ← advance
      let rhs ← operand
      match [lhs, rhs].find? fun e => !e.isUnionOperand with
      | some e => fault (.unionOperand e.display)
      | none => moreUnion operand steps (setOperation .union lhs rhs)
    else return lhs

section

variable (s : StaticScope)

/-- The function that a call means. Names without prefix are those of built-in functions. -/
def resolveCall (name : String) (args : List Expr) : Except Error Expr :=
  if name.toList.contains ':' then do
    let expanded ← s.resolve name false
    match s.function? expanded args.length with
    | some f => return extension expanded name f args
    | none => throw (.unknownFunction name)
  else
    match Builtin.ofName? name with
    | none => .error (.unknownFunction name)
    | some f => do
      f.checkArity args.length
      return match f with
        | .true => boolean true
        | .false => boolean false
        | f =>
          call f args
            { CallBinding.free with scope := if f.needsNameScope then some s.nameScope else none }

/-- The test of a step. `principal` is the kind of node that a name selects there. -/
def nodeTest (principal : NodeKind) : Reader NodeTest := do
  match ← kind with
  | .name =>
    let name ← s.resolve (← advance).value (principal == .element)
    return ⟨principal, .named name⟩
  | .namespaceWildcard => return ⟨principal, .inNamespace (← s.namespaceUri (← advance).value)⟩
  | .star =>
    let _ ← advance
    return .ofKind principal
  | .nodeType =>
    let test ← match (← advance).value with
      | "node" => pure .anyNode
      | "text" => pure (.ofKind .text)
      | "comment" => pure (.ofKind .comment)
      | _ =>
        if ← sees .literal then do
          pure ⟨.processingInstruction, .named (.unprefixed (← advance).value)⟩
        else pure (.ofKind .processingInstruction)
    let _ ← expect .rightParen
    return test
  | _ => faultHere .notAStep

def variableReference : Reader Expr := do
  let token ← expect .name
  let binding ← s.bindVariable (← s.resolve token.value false) token.value
  return reference binding.name binding.display binding.constant

variable (inner : Reader Expr)

def predicateList : Nat → Reader (List Expr)
  | 0 => pure []
  | steps + 1 => do
    if ← sees .leftSquare then
      let _ ← advance
      let e ← inner
      let _ ← expect .rightSquare
      return e :: (← predicateList steps)
    else return []

def predicates : Reader (List Expr) := do predicateList inner ((← remaining) + 1)

def testedStep (axis : Axis) : Reader Step := do
  let test ← nodeTest s axis.principalKind
  return ⟨axis, test, ← predicates inner⟩

/-- A step of a path. The abbreviations `.` and `..` take no predicates. -/
def step : Reader Step := do
  match ← kind with
  | .dot =>
    let _ ← advance
    return ⟨.selfAxis, .anyNode, []⟩
  | .dotDot =>
    let _ ← advance
    return ⟨.parent, .anyNode, []⟩
  | .atSign =>
    let _ ← advance
    testedStep s inner .attributeAxis
  | .axis =>
    let name := (← advance).value
    match Axis.ofName? name with
    | some axis => testedStep s inner axis
    | none => fault (.unknownAxis name)
  | _ => testedStep s inner .child

def moreSteps : Nat → Expr → Reader Expr
  | 0, start => pure start
  | steps + 1, start => do
    match ← kind with
    | .slash =>
      let _ ← advance
      moreSteps steps (start.thenStep (← step s inner))
    | .slashSlash =>
      let _ ← advance
      moreSteps steps ((start.thenStep anyDescendant).thenStep (← step s inner))
    | _ => return start

def continuePath (start : Expr) : Reader Expr := do
  moreSteps s inner ((← remaining) + 1) start

def relativePath (start : Expr) : Reader Expr := do
  continuePath s inner (start.thenStep (← step s inner))

/-- Arguments behind the first one, up to and including the closing parenthesis. -/
def moreArguments : Nat → Reader (List Expr)
  | 0 => faultHere .expectedArgumentEnd
  | steps + 1 => do
    match ← kind with
    | .comma =>
      let _ ← advance
      let e ← inner
      return e :: (← moreArguments steps)
    | .rightParen =>
      let _ ← advance
      return []
    | _ => faultHere .expectedArgumentEnd

def arguments : Reader (List Expr) := do
  if ← sees .rightParen then
    let _ ← advance
    return []
  else
    let e ← inner
    return e :: (← moreArguments inner ((← remaining) + 1))

def primary : Reader Expr := do
  match ← kind with
  | .dollar =>
    let _ ← advance
    variableReference s
  | .leftParen =>
    let _ ← advance
    let e ← inner
    let _ ← expect .rightParen
    return e
  | .literal => return string (← advance).value
  | .number =>
    let text := (← advance).value
    match Number.readDecimal? text.toList with
    | some x => return number x
    | none => fault (.invalidNumber text)
  | .functionName =>
    let name := (← advance).value
    resolveCall s name (← arguments inner)
  | _ => faultHere .notAnOperand

def filtered : Reader Expr := do
  let base ← primary s inner
  return (← predicates inner).foldl filter base

def pathExpression : Reader Expr := do
  match ← kind with
  | .slash =>
    let _ ← advance
    if startsStep (← kind) then relativePath s inner root else return root
  | .slashSlash =>
    let _ ← advance
    relativePath s inner (root.thenStep anyDescendant)
  | k =>
    if startsStep k then relativePath s inner contextNode
    else continuePath s inner (← filtered s inner)

def unionExpression : Reader Expr := do
  let lhs ← pathExpression s inner
  moreUnion (pathExpression s inner) ((← remaining) + 1) lhs

def unaryExpression : Reader Expr := do
  negations (unionExpression s inner) ((← remaining) + 1)

def multiplicativeExpression : Reader Expr :=
  operatorLevel multiplicativeOperator? (unaryExpression s inner)

def additiveExpression : Reader Expr :=
  operatorLevel additiveOperator? (multiplicativeExpression s inner)

def relationalExpression : Reader Expr :=
  operatorLevel relationalOperator? (additiveExpression s inner)

def equalityExpression : Reader Expr :=
  operatorLevel equalityOperator? (relationalExpression s inner)

def andExpression : Reader Expr := operatorLevel andOperator? (equalityExpression s inner)

def orExpression : Reader Expr := operatorLevel orOperator? (andExpression s inner)

end

def expression (s : StaticScope) : Nat → Reader Expr
  | 0 => throw (.internalFault .depthExceeded)
  | depth + 1 => orExpression s (expression s depth)

def nested (s : StaticScope) : Reader Expr := do expression s ((← remaining) + 1)

def read (s : StaticScope) (source : String) : Except Error Expr := (nested s).run source

/-- In a forwards-compatible scope an error of the text is put off until the expression is
evaluated. -/
def deferIn (s : StaticScope) (result : Except Error Expr) : Except Error Expr :=
  match result with
  | .error e => if e.isStatic && s.options.forwardsCompatible then .ok (failure e) else .error e
  | .ok e => .ok e

def parse (s : StaticScope) (F : Forest) (source : String) : Except Error Expr :=
  deferIn s (do (← read s source).simplify F)

end XPath.Expr
