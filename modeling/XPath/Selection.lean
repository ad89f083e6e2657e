import XPath.Engine
import XPath.Lookahead
import XPath.Traversal

/-!
# Selecting nodes

The enumerations of steps, predicates and paths. A predicate is tested for one node after the
other, each with its own position. The length of the list answers `last()`: it is known from the
start, or the rest of the list is read when the predicate asks for it.
-/

namespace XPath

def axisEnumeration (F : Forest) (axis : Axis) (n : Node) (test : Option NodeTest) : Enumeration :=
  { items := ((F.walk axis n).filter fun m => test.all (·.accepts F m)).map .ok
    sorted := axis.isSorted
    reverse := axis.isReverseSorted
    peer := axis.isPeer
    size := .unknown }

/-- How the value of a predicate selects: a constant number by position, a number by position, a
value of another type by its truth value, and a value of unknown type by either. -/
inductive PredicateKind
  | constant (position : Float)
  | positional
  | boolean
  | either
  deriving Inhabited

def Expr.predicateKind : Expr → PredicateKind
  | .literal (.number x) => .constant x
  | e =>
    match e.dataType with
    | .number => .positional
    | .any | .object => .either
    | _ => .boolean

/-- A constant position is reached by the items: nothing behind it is read. -/
def PredicateKind.isReached (k : PredicateKind) (items : List Item) : Bool :=
  match k with
  | .constant x =>
    let count := (items.filter (·.isOk)).length
    count != 0 && Float.ofNat count ≥ x
  | _ => false

def Engine.passes (E : Engine) (F : Forest) (predicate : Expr) (c : Context) :
    Except Error Bool := do
  let position := Float.ofNat c.position
  match predicate.predicateKind with
  | .constant x => return position == x
  | .positional => return (← E.number predicate c) == position
  | .boolean => E.truth predicate c
  | .either =>
    match ← E.value predicate c with
    | .number x => return x == position
    | v => v.toBool F

/-- The item itself if it passes, nothing if it does not, and the error if there is one. -/
def keepIf (n : Node) : Except Error Bool → List Item
  | .ok true => [.ok n]
  | .ok false => []
  | .error e => [.error e]

/-- The items that pass a predicate, from position `position + 1` on. A constant position ends the
scan once it is reached. When the list is read ahead for `last()` and an error turns up there, the
node under test fails with that error and reading resumes behind it: until then items are
`skipped`. -/
def filterItems (E : Engine) (F : Forest) (predicate : Expr) (c : Context) (size : ListSize) :
    Nat → Bool → List Item → List Item
  | _, _, [] => []
  | position, false, .error e :: rest =>
    .error e :: filterItems E F predicate c size position false rest
  | position, true, .error _ :: rest => filterItems E F predicate c size position false rest
  | position, true, .ok _ :: rest => filterItems E F predicate c size position true rest
  | position, false, .ok n :: rest =>
    let here := position + 1
    let test (last : LastPosition) := E.passes F predicate (c.forItem n here last)
    match predicate.predicateKind with
    | .constant x =>
      keepIf n (test .unknown) ++
        (if Float.ofNat here ≥ x then []
        else filterItems E F predicate c size here false rest)
    | _ =>
      match size with
      | .known total =>
        keepIf n (test (.known total)) ++ filterItems E F predicate c size here false rest
      | .unknown => keepIf n (test .unknown) ++ filterItems E F predicate c size here false rest
      | .ahead =>
        match collect rest with
        | .ok nodes =>
          keepIf n (test (.known (here + nodes.length)))
            ++ filterItems E F predicate c size here false rest
        | .error failure =>
          match test .pending with
          | .error .sizePending =>
            .error failure :: filterItems E F predicate c size here true rest
          | result => keepIf n result ++ filterItems E F predicate c size here false rest

/-- Whether reading ahead gets to the end of the list: the predicate asks for the length at an item
with no error behind it. The arguments are those of `filterItems`. -/
def readsToEnd (E : Engine) (F : Forest) (predicate : Expr) (c : Context) :
    Nat → Bool → List Item → Bool
  | _, _, [] => false
  | position, _, .error _ :: rest => readsToEnd E F predicate c position false rest
  | position, true, .ok _ :: rest => readsToEnd E F predicate c position true rest
  | position, false, .ok n :: rest =>
    let here := position + 1
    match E.passes F predicate (c.forItem n here .pending) with
    | .error .sizePending => rest.all (·.isOk) || readsToEnd E F predicate c here true rest
    | _ => readsToEnd E F predicate c here false rest

/-- The nodes of `base` that pass a predicate. The list is read ahead only for a predicate that
depends on its length. Once that has met the end, the scan goes on behind it. -/
def Engine.filter (E : Engine) (F : Forest) (base : Enumeration) (predicate : Expr) (c : Context) :
    Enumeration :=
  let size :=
    if base.size = .unknown && predicate.dependencies.contains .last then .ahead else base.size
  let passing := filterItems E F predicate c size 0 false base.items
  if predicate.predicateKind.isReached base.items then
    { base with items := passing, size := .unknown, beyond := [] }
  else if size = .ahead && !base.beyond.isEmpty && readsToEnd E F predicate c 0 false base.items then
    { base with
      items := passing ++ (base.beyond.takeWhile (·.isSome)).filterMap (·.map .error)
      size := .unknown
      beyond := (base.beyond.dropWhile (·.isSome)).drop 1 }
  else { base with items := passing, size := .unknown }

/-- The nodes that a step selects from one node: the axis, then each predicate in turn. -/
def Engine.step (E : Engine) (F : Forest) (axis : Axis) (test : NodeTest)
    (predicates : List Expr) (c : Context) (n : Node) : Enumeration :=
  predicates.foldl (fun base p => E.filter F base p c) (axisEnumeration F axis n (some test))

/-- The nodes that a step selects from every node of `base`, one list after the other.
`oneOrigin` says that there is at most one node to start from. -/
def Engine.path (E : Engine) (F : Forest) (base : Enumeration) (axis : Axis) (test : NodeTest)
    (predicates : List Expr) (c : Context) (oneOrigin : Bool) : Enumeration :=
  { items := base.items.flatMap fun
      | .error e => [.error e]
      | .ok n => (E.step F axis test predicates c n).items
    sorted := (base.sorted && base.peer && axis.isWithinSubtree) || (oneOrigin && axis.isSorted)
    reverse := oneOrigin && axis.isReverseSorted
    peer := base.peer && axis.isPeer
    size := .unknown
    beyond := base.beyond }

end XPath
