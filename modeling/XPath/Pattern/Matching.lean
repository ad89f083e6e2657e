import XPath.Evaluation
import XPath.Pattern

/-!
# Matching nodes against patterns

Whether a node matches a pattern. The context serves for variables and the controller; predicates
are evaluated with the node itself in focus.
-/

namespace XPath.Pattern

def isChildType : NodeType → Bool
  | .element | .text | .comment | .processingInstruction => true
  | _ => false

def hasEarlierMatch (F : Forest) (test : NodeTest) (n : Node) : Bool :=
  match F.parent? n with
  | none => false
  | some p => ((F.children p).takeWhile (· != n)).any (test.accepts F)

def passesAll (h : Host) (c : Context) : List Expr → Except Error Bool
  | [] => .ok true
  | e :: rest => do if ← e.evaluateAsBool h c then passesAll h c rest else return false

def passes (h : Host) (c : Context) (test : NodeTest) (predicates : List Expr)
    (check : PredicateCheck) (n : Node) : Except Error Bool :=
  let c := c.forItem n 1 (.known 1)
  match check with
  | .firstElement => .ok !(hasEarlierMatch h.forest test n)
  | .among e => do
    match ← e.evaluate h c with
    | .nodeSet s => s.contains h.forest n
    | _ => return false
  | .each => passesAll h c predicates

variable (h : Host) (c : Context)

mutual

def accepts (p : Pattern) (n : Node) : Except Error Bool :=
  match p with
  | document => .ok (h.forest.type n == .root)
  | nodeKind k => .ok (k.accepts (h.forest.type n))
  | anyChild => .ok (isChildType (h.forest.type n))
  | named test => .ok (test.accepts h.forest n)
  | id value =>
    .ok (h.forest.type n == .element && h.forest.elementById? n value == some n)
  | key name _ value => do
    let k ← c.controller
    return (← k.selectByKey name value (h.forest.documentRoot n)).contains n
  | location test parent ancestor predicates check => do
    if !test.accepts h.forest n then return false
    if test.kind == .node && !isChildType (h.forest.type n) then return false
    if !(← acceptsParent parent n) then return false
    if !(← acceptsAncestor ancestor n) then return false
    passes h c test predicates check n
  | union a b => do if ← a.accepts n then return true else b.accepts n
termination_by structural p

def acceptsParent (p : Option Pattern) (n : Node) : Except Error Bool :=
  match p with
  | none => .ok true
  | some p =>
    match h.forest.parent? n with
    | none => .ok false
    | some parent => p.accepts parent
termination_by structural p

def acceptsAncestor (p : Option Pattern) (n : Node) : Except Error Bool :=
  match p with
  | none => .ok true
  | some p => (h.forest.ancestors n).anyM fun a => p.accepts a
termination_by structural p

end

end XPath.Pattern
