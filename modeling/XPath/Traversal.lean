import XPath.Axis

/-!
# Walking along an axis

A walk gives the nodes on an axis one after the other: from a list, from a stack of sibling lists
whose next node is followed by its children, or upwards from parent to parent.
-/

namespace XPath

inductive Traversal
  | list (nodes : List Node)
  /-- The siblings still to come with what is below them, level by level, the innermost level first.
  The origin comes before them if it is pending. -/
  | preorder (stack : List (List Node)) (pendingSelf : Option Node)
  | ancestors (next : Option Node)
  deriving DecidableEq, Repr, Inhabited

namespace Forest

variable (F : Forest)

/-- The node `n` behind all that is below it down to `depth` levels, against document order. -/
def reversePreorderTo : Nat → Node → List Node
  | 0, n => [n]
  | depth + 1, n => (F.children n).reverse.flatMap (reversePreorderTo depth) ++ [n]

/-- The subtrees of the siblings before a node and before each of its ancestors, nearest first. An
attribute has the same ones as its element. -/
def precedingWalk (n : Node) : List Node :=
  let origin := if F.isTreeNode n then some n else F.parent? n
  match origin with
  | some m => (m :: F.ancestors m).flatMap fun a =>
      (F.siblingsBefore a).reverse.flatMap fun s => F.reversePreorderTo (F.size s) s
  | none => []

/-- The siblings after a node and after each of its ancestors. For an attribute the content of its
element comes first. -/
def followingStack (n : Node) : List (List Node) :=
  if F.isTreeNode n then (n :: F.ancestors n).map F.siblingsAfter
  else match F.parent? n with
    | some p => F.children p :: (p :: F.ancestors p).map F.siblingsAfter
    | none => []

/-- The next node of the innermost level that is not at its end. Its children become a level. -/
def nextInStack : List (List Node) → Option (Node × List (List Node))
  | [] => none
  | [] :: stack => nextInStack stack
  | (n :: level) :: stack => some (n, F.children n :: level :: stack)

end Forest

namespace Traversal

variable (F : Forest)

def start (axis : Axis) (n : Node) : Traversal :=
  match axis with
  | .child => list (F.children n)
  | .attributeAxis => list (F.attributes n)
  | .namespaceAxis => list (F.namespaces n)
  | .selfAxis => list [n]
  | .parent => list (F.parent? n).toList
  | .followingSibling => list (F.siblingsAfter n)
  | .precedingSibling => list (F.siblingsBefore n).reverse
  | .preceding => list (F.precedingWalk n)
  | .descendant => preorder [F.children n] none
  | .descendantOrSelf => preorder [F.children n] (some n)
  | .following => preorder (F.followingStack n) none
  | .ancestor => ancestors (F.parent? n)
  | .ancestorOrSelf => ancestors (some n)

def advance : Traversal → Option (Node × Traversal)
  | list [] => none
  | list (n :: rest) => some (n, list rest)
  | preorder stack (some n) => some (n, preorder stack none)
  | preorder stack none => (F.nextInStack stack).map fun (n, stack) => (n, preorder stack none)
  | ancestors none => none
  | ancestors (some n) => some (n, ancestors (F.parent? n))

def nodes : Nat → Traversal → List Node
  | 0, _ => []
  | steps + 1, t =>
    match t.advance F with
    | none => []
    | some (n, t) => n :: nodes steps t

end Traversal

/-- The nodes on an axis, nearest first. No walk comes to more nodes than the document has. -/
def Forest.walk (F : Forest) (axis : Axis) (n : Node) : List Node :=
  (Traversal.start F axis n).nodes F (F.size n + 1)

end XPath
