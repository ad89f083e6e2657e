import XPath.Error
import XPath.Tree.Basic

/-!
# Enumerations

A list of nodes as an expression yields it: items in order, where an item can be the error that
came up at that point, and flags that promise an order. A reader stops at the first error it
meets, so an error behind the nodes it needs does no harm. An intersection ends with its right
side, though errors may wait on its left; a merge of such a list reads on and meets them.

* `sorted`: strictly ascending document order, so no node twice;
* `reverse`: strictly descending document order;
* `peer`: no node is an ancestor of another.
-/

namespace XPath

/-- A node, or what went wrong in finding it. -/
abbrev Item := Except Error Node

/-- How the length of a list is known before it is read: not at all, from the start, or by
reading ahead. -/
inductive ListSize
  | unknown
  | known (n : Nat)
  | ahead
  deriving DecidableEq, Repr, Inhabited

structure Enumeration where
  items : List Item
  sorted : Bool
  reverse : Bool
  peer : Bool
  size : ListSize
  /-- What a reader meets that goes on behind the end: the end again, or an error. -/
  beyond : List (Option Error) := []
  deriving Inhabited

/-- All nodes of the items, or the first error among them. -/
def collect : List Item → Except Error (List Node)
  | [] => .ok []
  | .error e :: _ => .error e
  | .ok n :: rest => (collect rest).map (n :: ·)

@[simp] theorem collect_map_ok (nodes : List Node) : collect (nodes.map .ok) = .ok nodes := by
  induction nodes with
  | nil => rfl
  | cons n rest ih => simp [collect, ih, Except.map]

/-- The first node of the items, if the first of them is not an error. -/
def firstItem : List Item → Except Error (Option Node)
  | [] => .ok none
  | .error e :: _ => .error e
  | .ok n :: _ => .ok (some n)

/-- Whether some node passes `p`. Nodes behind the first that does are not looked at. -/
def anyItem (p : Node → Bool) : List Item → Except Error Bool
  | [] => .ok false
  | .error e :: _ => .error e
  | .ok n :: rest => if p n then .ok true else anyItem p rest

namespace Enumeration

def ofOption (n : Option Node) : Enumeration :=
  { items := n.toList.map .ok
    sorted := true
    reverse := true
    peer := true
    size := .known n.toList.length }

def ofNodes (nodes : List Node) (sorted reverse : Bool) : Enumeration :=
  { items := nodes.map .ok, sorted, reverse, peer := false, size := .known nodes.length }

def nodes (e : Enumeration) : Except Error (List Node) := collect e.items

def lookahead (e : Enumeration) : Enumeration := { e with size := .ahead }

end Enumeration

namespace Forest

variable (F : Forest)

def compareNodes (a b : Node) : Ordering := (F.orderKey a).compare (F.orderKey b)

def notAfter (a b : Node) : Bool := F.compareNodes a b != .gt

/-- The node `n` and those after it, without those that have the same place as the one before. -/
def dropRepeatsFrom (n : Node) : List Node → List Node
  | [] => [n]
  | m :: rest =>
    if F.orderKey n == F.orderKey m then dropRepeatsFrom n rest else n :: dropRepeatsFrom m rest

/-- The nodes without those that have the same place as the one before. -/
def dropRepeats : List Node → List Node
  | [] => []
  | n :: rest => F.dropRepeatsFrom n rest

/-- The nodes in document order, each place once. -/
def inOrder (nodes : List Node) : List Node := F.dropRepeats (nodes.mergeSort F.notAfter)

/-- The node that comes first in document order, the earlier in the list of two at one place. -/
def earliest? : List Node → Option Node
  | [] => none
  | n :: rest =>
    match earliest? rest with
    | none => some n
    | some m => if F.compareNodes m n == .lt then some m else some n

end Forest

/-- What one reading of a list yields: an item, or the message that the list is at its end. -/
abbrev Reading := Option Item

namespace Enumeration

/-- Everything that reading the list and going on behind its end yields. After these readings
the list stays at its end. -/
def readings (e : Enumeration) : List Reading :=
  e.items.map some ++ none :: e.beyond.map (·.map .error)

def itemsOf : List Reading → List Item
  | some item :: rest => item :: itemsOf rest
  | _ => []

def beyondOf : List Reading → List (Option Error)
  | [] => []
  | some _ :: rest => beyondOf rest
  | none :: rest => rest.map fun
    | some (.error e) => some e
    | _ => none

end Enumeration

/-- The readings of a merge when the left side stays at its end: those of the right side for a
union, and otherwise the end. -/
def mergeRest (op : SetOperator) (right : List Reading) : List Reading :=
  if op = .union then right else []

/-- The readings of a merge when the left side reports its end, and what `rest` makes of the
readings after that. Only a union looks at the right side then. -/
def mergeEnd (op : SetOperator) (rest : List Reading → List Reading) :
    List Reading → List Reading
  | [] => none :: rest []
  | r :: right => if op = .union then r :: rest right else none :: rest (r :: right)

/-- The readings of a merge when the left side yields the node `a`, and what `rest` makes of the
readings after that. When the right side is at its end an intersection drops the node and reports
the end. -/
def mergeHead (F : Forest) (op : SetOperator) (a : Node) (rest : List Reading → List Reading) :
    List Reading → List Reading
  | [] => (if op = .intersect then none else some (.ok a)) :: rest []
  | none :: right => (if op = .intersect then none else some (.ok a)) :: rest right
  | some (.error e) :: right => some (.error e) :: rest right
  | some (.ok b) :: right =>
    match F.compareNodes a b with
    | .lt =>
      if op = .intersect then rest (some (.ok b) :: right)
      else some (.ok a) :: rest (some (.ok b) :: right)
    | .gt =>
      if op = .union then some (.ok b) :: mergeHead F op a rest right
      else mergeHead F op a rest right
    | .eq => if op = .except then rest right else some (.ok a) :: rest right

/-- Combines two lists in document order in one pass. An error of the right side takes the node
with it that waits on the left. -/
def mergeReadings (F : Forest) (op : SetOperator) : List Reading → List Reading → List Reading
  | [], right => mergeRest op right
  | none :: left, right => mergeEnd op (mergeReadings F op left) right
  | some (.error e) :: left, right => some (.error e) :: mergeReadings F op left right
  | some (.ok a) :: left, right => mergeHead F op a (mergeReadings F op left) right

end XPath
