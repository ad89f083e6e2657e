import XPath.Expr

/-!
# Equality of expressions

Two expressions are the same if they are built the same way from the same constants. Numbers are
compared as numbers, so a literal that is not a number differs from itself; lazy node-sets, host
objects, controllers and host functions are the same only if they are one and the same thing.
-/

namespace XPath

/-- How things with an identity of their own are told apart. -/
structure Sameness where
  intent : Intent → Intent → Bool
  object : HostObject → HostObject → Bool

namespace Sameness

/-- By their recorded identities; what has none is unlike anything else. -/
def byIdentity : Sameness := ⟨Intent.sameIdentity, HostObject.sameIdentity⟩

/-- For an expression compared with itself: each thing meets itself. -/
def reflexive : Sameness := ⟨fun _ _ => true, fun _ _ => true⟩

def value (s : Sameness) (a b : Value) : Bool := a.same s.intent s.object b

end Sameness

def ControllerBinding.same : ControllerBinding → ControllerBinding → Bool
  | unbound, unbound => true
  | bound none, bound none => true
  | bound (some a), bound (some b) => a.identity == b.identity
  | _, _ => false

def CallBinding.same (a b : CallBinding) : Bool :=
  a.node == b.node && a.controller.same b.controller && a.scope == b.scope

def sameOption {α : Type} (same : α → α → Bool) : Option α → Option α → Bool
  | none, none => true
  | some a, some b => same a b
  | _, _ => false

namespace Expr

variable (s : Sameness)

mutual

def same : Expr → Expr → Bool
  | literal a, literal b => s.value a b
  | reference n d c, reference n' d' c' => n == n' && d == d' && sameOption s.value c c'
  | binary op a b, binary op' a' b' => op == op' && same a a' && same b b'
  | negate a, negate a' => same a a'
  | nodeComparison a op v, nodeComparison a' op' v' => same a a' && op == op' && s.value v v'
  | contextNode, contextNode => true
  | parentNode, parentNode => true
  | root, root => true
  | attributeNamed n d p, attributeNamed n' d' p' => n == n' && d == d' && p == p'
  | path a axis test ps, path a' axis' test' ps' =>
    same a a' && axis == axis' && test == test' && sameList ps ps'
  | filter a p, filter a' p' => same a a' && same p p'
  | setOperation op a b, setOperation op' a' b' => op == op' && same a a' && same b b'
  | call f args binding, call f' args' binding' =>
    f == f' && sameList args args' && binding.same binding'
  | extension n _ f args, extension n' _ f' args' =>
    n == n' && f.identity == f'.identity && sameList args args'
  | sorted a keys, sorted a' keys' => same a a' && sameKeys keys keys'
  | template parts, template parts' => sameParts parts parts'
  | failure e, failure e' => e.message == e'.message
  | _, _ => false
termination_by structural x => x

def sameList : List Expr → List Expr → Bool
  | [], [] => true
  | a :: as, b :: bs => same a b && sameList as bs
  | _, _ => false
termination_by structural x => x

def sameOptional : Option Expr → Option Expr → Bool
  | none, none => true
  | some a, some b => same a b
  | _, _ => false
termination_by structural x => x

def sameKey : SortKey → SortKey → Bool
  | .mk k o d c l, .mk k' o' d' c' l' =>
    same k k' && sameOptional o o' && sameOptional d d' && sameOptional c c' && sameOptional l l'
termination_by structural x => x

def sameKeys : List SortKey → List SortKey → Bool
  | [], [] => true
  | a :: as, b :: bs => sameKey a b && sameKeys as bs
  | _, _ => false
termination_by structural x => x

def samePart : TemplatePart → TemplatePart → Bool
  | .text a, .text b => a == b
  | .expr a, .expr b => same a b
  | _, _ => false
termination_by structural x => x

def sameParts : List TemplatePart → List TemplatePart → Bool
  | [], [] => true
  | a :: as, b :: bs => samePart a b && sameParts as bs
  | _, _ => false
termination_by structural x => x

end

end Expr

end XPath
