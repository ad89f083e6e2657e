/-!
# Facets of the dynamic context

A mask names the facets of the dynamic context that an expression reads. Two facets are tied to
the item under test (context node with position and size); the others stay fixed while a node
list is filtered.
-/

namespace XPath

structure Dependencies where
  bits : UInt8
  deriving DecidableEq, Repr, Inhabited

namespace Dependencies

def empty : Dependencies := ⟨0⟩
def variableValues : Dependencies := ⟨1⟩
def currentNode : Dependencies := ⟨4⟩
def contextNode : Dependencies := ⟨8⟩
def position : Dependencies := ⟨16⟩
def last : Dependencies := ⟨32⟩
def controller : Dependencies := ⟨64⟩
def all : Dependencies := ⟨255⟩

/-- The facets that stay fixed across the items of a node list: variables, the current node and
the controller. -/
def outer : Dependencies := ⟨69⟩

def union (a b : Dependencies) : Dependencies := ⟨a.bits ||| b.bits⟩
def inter (a b : Dependencies) : Dependencies := ⟨a.bits &&& b.bits⟩
def complement (a : Dependencies) : Dependencies := ⟨~~~a.bits⟩
def without (a b : Dependencies) : Dependencies := ⟨a.bits &&& ~~~b.bits⟩

instance : OrOp Dependencies := ⟨union⟩
instance : AndOp Dependencies := ⟨inter⟩

def isEmpty (a : Dependencies) : Bool := a.bits == 0

def contains (a b : Dependencies) : Bool := a.bits &&& b.bits == b.bits

def intersects (a b : Dependencies) : Bool := a.bits &&& b.bits != 0

end Dependencies

end XPath
