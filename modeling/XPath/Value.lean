import XPath.Fragment
import XPath.NodeSet
import XPath.Number.Text

/-!
# Values

What an expression evaluates to, with the conversions between the types and the rules of
comparison. A comparison with a node-set holds if it holds for the string or number of one of its
nodes; a relational comparison of two node-sets looks at the extremes of their numbers.
-/

namespace XPath

/-- A value of the host, which expressions only carry around: it converts to its display text,
and the null object to nothing. Objects are told apart by identity. -/
inductive HostObject
  | null
  | object (display : String) (identity : Option Nat)
  deriving DecidableEq, Repr, Inhabited

namespace HostObject

def text : HostObject → String
  | null => ""
  | object display _ => display

def toBool : HostObject → Bool
  | null => false
  | object display _ => !display.isEmpty

def sameIdentity : HostObject → HostObject → Bool
  | null, null => true
  | object _ a, object _ b => a.isSome && a == b
  | _, _ => false

end HostObject

inductive Value
  | boolean (b : Bool)
  | number (x : Float)
  | string (s : String)
  | nodeSet (s : NodeSet)
  | fragment (f : Fragment)
  | object (o : HostObject)
  deriving Inhabited

namespace Value

def dataType : Value → DataType
  | boolean _ => .boolean
  | number _ => .number
  | string _ => .string
  | nodeSet _ | fragment _ => .nodeSet
  | object _ => .object

variable (F : Forest)

def toBool : Value → Except Error Bool
  | boolean b => .ok b
  | number x => .ok (Number.toBool x)
  | string s => .ok (!s.isEmpty)
  | nodeSet s => (s.isEmpty F).map (!·)
  | fragment _ => .ok true
  | object o => .ok o.toBool

def toNumber : Value → Except Error Float
  | boolean b => .ok (Number.ofBool b)
  | number x => .ok x
  | string s => .ok (Number.ofText s)
  | nodeSet s => (s.toText F).map Number.ofText
  | fragment f => .ok (Number.ofText f.text)
  | object .null => .ok (0.0 / 0.0)
  | object o => .ok (Number.ofText o.text)

def toText : Value → Except Error String
  | boolean b => .ok (if b then "true" else "false")
  | number x => .ok (Number.toText x)
  | string s => .ok s
  | nodeSet s => s.toText F
  | fragment f => .ok f.text
  | object o => .ok o.text

/-- How a value is shown inside an expression. A string is put between the quotes that it does
not contain, double ones by preference. -/
def display : Value → String
  | string s => quote s
  | number x => Number.toText x
  | boolean b => if b then "true()" else "false()"
  | nodeSet s => s.display
  | fragment _ => "\x7bfragment\x7d"
  | object o => "\x7bobject " ++ o.text ++ "\x7d"
where
  quote (s : String) : String :=
    if s.toList.contains '"' then "'" ++ s ++ "'" else "\"" ++ s ++ "\""

/-- Whether two values are the same, where intents and host objects are told apart by the given
relations. A number that is not a number differs from itself. -/
def same (sameIntent : Intent → Intent → Bool) (sameObject : HostObject → HostObject → Bool) :
    Value → Value → Bool
  | boolean a, boolean b => a == b
  | number a, number b => a == b
  | string a, string b => a == b
  | nodeSet a, nodeSet b => a.same sameIntent b
  | fragment a, fragment b => a.events == b.events
  | object a, object b => sameObject a b
  | _, _ => false

/-- Equality (or inequality, if not `equal`) of a fragment and a value that is no node-set. -/
def fragmentEquals (f : Fragment) (other : Value) (equal : Bool) : Except Error Bool :=
  match other with
  | number x => .ok ((Number.ofText f.text == x) == equal)
  | boolean b => .ok (b == equal)
  | v => (v.toText F).map fun s => (f.text == s) == equal

/-- Equality (or inequality, if not `equal`) of a node-set and any value. -/
def nodeSetEquals (s : NodeSet) (other : Value) (equal : Bool) : Except Error Bool :=
  match other with
  | nodeSet t =>
    if equal then do
      let left ← s.toList F
      let texts := left.map F.stringValue
      anyItem (fun n => texts.contains (F.stringValue n)) (← t.enumerate F).items
    else do
      let right ← t.toList F
      let texts := right.map F.stringValue
      anyItem (fun n => texts.any (· != F.stringValue n)) (← s.enumerate F).items
  | number x => do
    anyItem (fun n => (Number.ofText (F.stringValue n) == x) == equal) (← s.enumerate F).items
  | boolean b => (s.isEmpty F).map fun none => ((!none) == b) == equal
  | v => do
    let text ← v.toText F
    anyItem (fun n => (F.stringValue n == text) == equal) (← s.enumerate F).items

/-- The least and the greatest number of the nodes, starting from infinities; a node that is not
a number moves neither. Nothing for an empty set. -/
def numericRange (s : NodeSet) : Except Error (Option (Float × Float)) := do
  let nodes ← s.toList F
  if nodes.isEmpty then return none
  return some (nodes.foldl
    (fun (low, high) n =>
      let x := Number.ofText (F.stringValue n)
      (if x < low then x else low, if x > high then x else high))
    (1.0 / 0.0, -1.0 / 0.0))

def compareNodeSet (s : NodeSet) (op : BinaryOperator) (other : Value) : Except Error Bool :=
  match other with
  | nodeSet t => do
    match ← numericRange F s with
    | none => return false
    | some (low, high) =>
      match ← numericRange F t with
      | none => return false
      | some (otherLow, otherHigh) =>
        return match op with
          | .lessThan | .lessThanOrEqual => op.compareNumbers low otherHigh
          | .greaterThan | .greaterThanOrEqual => op.compareNumbers high otherLow
          | _ => false
  | boolean b =>
    (s.isEmpty F).map fun none => op.compareNumbers (Number.ofBool !none) (Number.ofBool b)
  | v => do
    let y ← v.toNumber F
    anyItem (fun n => op.compareNumbers (Number.ofText (F.stringValue n)) y)
      (← s.enumerate F).items

/-- Equality of values that are neither node-sets nor fragments: as booleans if one is a boolean,
else as numbers if one is a number, else as strings. -/
def scalarEquals (a b : Value) : Except Error Bool :=
  match a, b with
  | boolean _, _ | _, boolean _ => do return (← a.toBool F) == (← b.toBool F)
  | number _, _ | _, number _ => do return (← a.toNumber F) == (← b.toNumber F)
  | _, _ => do return (← a.toText F) == (← b.toText F)

/-- Equality of two values, or inequality if not `equal`. -/
def equals (a b : Value) (equal : Bool) : Except Error Bool :=
  match a, b with
  | nodeSet s, _ => nodeSetEquals F s b equal
  | _, nodeSet s => nodeSetEquals F s a equal
  | fragment f, _ => fragmentEquals F f b equal
  | _, fragment f => fragmentEquals F f a equal
  | _, _ => (scalarEquals F a b).map (· == equal)

/-- The comparison of two values by an operator. An operator that compares nothing is false on
numbers. -/
def compare (op : BinaryOperator) (a b : Value) : Except Error Bool :=
  match op with
  | .equals => equals F a b true
  | .notEquals => equals F a b false
  | _ =>
    match a, b with
    | nodeSet s, _ => compareNodeSet F s op b
    | _, nodeSet s => compareNodeSet F s op.inverse a
    | _, _ => do return op.compareNumbers (← a.toNumber F) (← b.toNumber F)

end Value

end XPath
