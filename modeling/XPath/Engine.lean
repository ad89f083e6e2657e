import XPath.Expr

/-!
# Evaluating parts of an expression

The rule for each kind of expression evaluates the parts in it through an engine: a record of the
six ways in which an expression can be asked for its value. The rules do not know what the engine
does with a part; the evaluator of whole expressions is the engine that the rules define when they
are handed that engine itself.
-/

namespace XPath

structure Engine where
  value : Expr → Context → Except Error Value
  truth : Expr → Context → Except Error Bool
  number : Expr → Context → Except Error Float
  text : Expr → Context → Except Error String
  first : Expr → Context → Except Error (Option Node)
  enumerate : Expr → Context → Except Error Enumeration

def Engine.exhausted : Engine where
  value _ _ := .error (.internalFault .depthExceeded)
  truth _ _ := .error (.internalFault .depthExceeded)
  number _ _ := .error (.internalFault .depthExceeded)
  text _ _ := .error (.internalFault .depthExceeded)
  first _ _ := .error (.internalFault .depthExceeded)
  enumerate _ _ := .error (.internalFault .depthExceeded)

def Enumeration.first? (F : Forest) (e : Enumeration) : Except Error (Option Node) :=
  if e.sorted then firstItem e.items else e.nodes.map F.earliest?

namespace Value

/-- The value of a constant: a node-set is put in document order. -/
def ofConstant (F : Forest) (v : Value) : Except Error Value :=
  match v with
  | nodeSet s => (s.sorted F).map nodeSet
  | v => .ok v

def enumerate (F : Forest) (v : Value) (c : Context) : Except Error Enumeration :=
  match v with
  | nodeSet s => s.enumerate F
  | v => do (← v.toNodeSet c).store F

end Value

def Engine.constants (F : Forest) : Engine where
  value e _ := withConstant e fun v => v.ofConstant F
  truth e _ := withConstant e fun v => do (← v.ofConstant F).toBool F
  number e _ := withConstant e fun v => do (← v.ofConstant F).toNumber F
  text e _ := withConstant e fun v => do (← v.ofConstant F).toText F
  first e c := withConstant e fun v => do (← v.enumerate F c).first? F
  enumerate e c := withConstant e fun v => v.enumerate F c
where
  withConstant {α : Type} (e : Expr) (use : Value → Except Error α) : Except Error α :=
    match e with
    | .literal v => use v
    | _ => .error (.internalFault .depthExceeded)

/-- The value of a binary operator. The right operand of `and` and `or` is evaluated only if the
left one does not decide. -/
def Engine.binary (E : Engine) (F : Forest) (op : BinaryOperator) (lhs rhs : Expr) (c : Context) :
    Except Error Value := do
  match op with
  | .or => if ← E.truth lhs c then return .boolean true else return .boolean (← E.truth rhs c)
  | .and => if ← E.truth lhs c then return .boolean (← E.truth rhs c) else return .boolean false
  | .plus => return .number ((← E.number lhs c) + (← E.number rhs c))
  | .minus => return .number ((← E.number lhs c) - (← E.number rhs c))
  | .multiply => return .number ((← E.number lhs c) * (← E.number rhs c))
  | .divide => return .number ((← E.number lhs c) / (← E.number rhs c))
  | .modulo => return .number (Number.remainder (← E.number lhs c) (← E.number rhs c))
  | op => return .boolean (← (← E.value lhs c).compare F op (← E.value rhs c))

/-- Compares the text of the one node that `node` selects with a constant; without a node the
comparison is false. -/
def Engine.compareNode (E : Engine) (F : Forest) (node : Expr) (op : BinaryOperator)
    (value : Value) (c : Context) : Except Error Bool := do
  match ← E.first node c with
  | none => return false
  | some n =>
    let text := F.stringValue n
    match value, op with
    | .string s, .equals => return text == s
    | .string s, .notEquals => return text != s
    | .string s, op => return op.compareNumbers (Number.ofText text) (Number.ofText s)
    | .number x, op => return op.compareNumbers (Number.ofText text) x
    | v, op => Value.compare F op (.nodeSet (.singleton n)) v

end XPath
