import XPath.Expr.Display
import XPath.Expr.Simplify

/-!
# Match patterns

A pattern decides of one node whether it belongs to a set of nodes, looking upwards from the node
instead of downwards from a context. Simplification replaces tests without constraints by simpler
patterns and settles how the predicates of a step are checked.
-/

namespace XPath

inductive PredicateCheck
  /-- Each on its own, with the node as the only one of its list. -/
  | each
  /-- The predicate is `[1]`, on elements: no sibling before the node passes the test. -/
  | firstElement
  /-- The node must be among those that the expression selects from it. -/
  | among (e : Expr)

inductive Pattern
  /-- The root of a document, written `/`. -/
  | document
  /-- Every node of a kind. -/
  | nodeKind (kind : NodeKind)
  /-- Every node that can be a child, written `node()`. -/
  | anyChild
  /-- Every node that passes a test. -/
  | named (test : NodeTest)
  /-- The element with an id. -/
  | id (value : String)
  /-- The nodes whose key has a value. -/
  | key (name : ExpandedName) (display value : String)
  /-- The nodes that pass a test, whose parent and some ancestor match patterns if these are
  given, and that pass the predicates. -/
  | location (test : NodeTest) (parent ancestor : Option Pattern) (predicates : List Expr)
      (check : PredicateCheck)
  | union (a b : Pattern)

instance : Inhabited Pattern := ⟨.document⟩

namespace Pattern

def never : Pattern := nodeKind .never

def step (test : NodeTest) (predicates : List Expr) : Pattern :=
  location test none none predicates .each

def defaultPriority : Pattern → Float
  | nodeKind _ | anyChild => -0.5
  | named test => test.name.defaultPriority
  | _ => 0.5

/-- The kind that all matching nodes are of, or `node` if they can be of several. -/
def resultKind : Pattern → NodeKind
  | document => .document
  | nodeKind k => k
  | anyChild => .node
  | named test => test.kind
  | id _ | key .. => .element
  | location test .. => test.kind
  | union a b => if a.resultKind == b.resultKind then a.resultKind else .node

/-- A test as a pattern shows it: with `@` if it is for attributes. -/
def displayTest (t : NodeTest) : String :=
  (if t.kind == .attributeNode then "@" else "") ++ t.display

mutual

def display : Pattern → String
  | document => "/"
  | nodeKind k => displayTest (.ofKind k)
  | anyChild => "node()"
  | named test => displayTest test
  | id value => "id('" ++ value ++ "')"
  | key _ display value => "key('" ++ display ++ "', '" ++ value ++ "')"
  | location test parent ancestor predicates _ =>
    (match displayParent parent with
      | some front => front
      | none => displayAncestor ancestor)
    ++ displayTest test ++ Expr.displayPredicates predicates
  | union a b => a.display ++ " | " ++ b.display

def displayParent : Option Pattern → Option String
  | none => none
  | some document => some "/"
  | some p => some (p.display ++ "/")

def displayAncestor : Option Pattern → String
  | none => ""
  | some document => "//"
  | some p => p.display ++ "//"

end

def isPositional (predicates : List Expr) : Bool := predicates.any Expr.isPositional

/-- How the predicates of a step are checked: `[1]` on an element by its siblings before it, and
predicates that look at the position by the path that selects from the parent. -/
def checkFor (test : NodeTest) (predicates : List Expr) : PredicateCheck :=
  match test.kind, predicates with
  | .element, [.literal (.number x)] => if x == 1 then .firstElement else positional
  | _, _ => positional
where
  positional : PredicateCheck :=
    if isPositional predicates then
      .among (.path .parentNode (if test.kind == .attributeNode then .attributeAxis else .child)
        test predicates)
    else .each

def ofParts (test : NodeTest) (parent ancestor : Option Pattern) (predicates : List Expr) :
    Pattern :=
  if test.kind == .never then never
  else match parent, ancestor, predicates with
    | none, none, [] =>
      match test.name, test.kind with
      | .any, .node => anyChild
      | .any, k => nodeKind k
      | _, _ => named test
    | _, _, _ => location test parent ancestor predicates (checkFor test predicates)

variable (F : Forest)

mutual

def simplify : Pattern → Except Error Pattern
  | location test parent ancestor predicates _ => do
    let parent ← simplifyOption parent
    let ancestor ← simplifyOption ancestor
    match ← Expr.simplifyPredicates F predicates with
    | some predicates => return ofParts test parent ancestor predicates
    | none => return never
  | union a b => do return union (← a.simplify) (← b.simplify)
  | document => .ok document
  | nodeKind k => .ok (nodeKind k)
  | anyChild => .ok anyChild
  | named test => .ok (named test)
  | id value => .ok (id value)
  | key name display value => .ok (key name display value)

def simplifyOption : Option Pattern → Except Error (Option Pattern)
  | none => .ok none
  | some p => do return some (← p.simplify)

end

end Pattern

end XPath
