import XPath.NodeSet

/-!
# Node-sets under names

A workspace keeps node-sets under names and records which intents were materialised. Copies of an
intent have one identity, so an intent that was materialised through one name is materialised
under all of them. Asking a combined intent for its nodes asks the sets that it combines.
-/

namespace XPath

/-- What a name stands for: a node-set, or a stored list that is kept as it is. -/
inductive Slot
  | set (s : NodeSet)
  | stored (e : Extent)
  deriving Inhabited

/-- What a question needs to know of a node-set: whether its nodes come in order, its nodes in
order, or all of its nodes at once. -/
inductive Access
  | order
  | nodes
  | extent
  deriving DecidableEq, Repr, Inhabited

structure Workspace where
  slots : List (String × Slot)
  /-- The sets that an intent combines. -/
  operands : List (Nat × List NodeSet)
  /-- The intents that were materialised. -/
  fixed : List Nat
  /-- The identity of the next intent that has none. -/
  nextIdentity : Nat
  deriving Inhabited

namespace Workspace

def start (nextIdentity : Nat) : Workspace := ⟨[], [], [], nextIdentity⟩

variable (w : Workspace)

def current (i : Intent) : Intent :=
  { i with fixed := i.fixed || i.identity.any w.fixed.contains }

def slot? (name : String) : Option Slot := w.slots.lookup name

def set (name : String) : NodeSet :=
  match w.slot? name with
  | some (.set (.intent i)) => .intent (w.current i)
  | some (.set s) => s
  | some (.stored e) => .extent e
  | none => .empty

def store (name : String) (e : Extent) : Workspace :=
  { w with slots := (name, .stored e) :: w.slots }

/-- Keeps a set under a name, with an identity if it is an intent. -/
def put (name : String) (s : NodeSet) : Workspace :=
  match s with
  | .intent i =>
    match i.identity with
    | some _ => { w with slots := (name, .set s) :: w.slots }
    | none =>
      { w with
        slots := (name, .set (.intent { i with identity := some w.nextIdentity })) :: w.slots
        nextIdentity := w.nextIdentity + 1 }
  | s => { w with slots := (name, .set s) :: w.slots }

def combine (F : Forest) (name : String) (op : SetOperator) (a b : NodeSet) : Workspace :=
  { w.put name (.combine F op a b) with operands := (w.nextIdentity, [a, b]) :: w.operands }

/-- The intents that are materialised once a set was asked. An intent is materialised when all of
its nodes are needed at once, which is the case also if they have to be sorted. `depth` bounds the
nesting of combinations. -/
def fixedBy (F : Forest) (operands : List (Nat × List NodeSet)) :
    Nat → Access → List Nat → NodeSet → List Nat
  | depth + 1, access, fixed, .intent i =>
    match i.identity with
    | none => fixed
    | some k =>
      if i.fixed || fixed.contains k then fixed
      else
        let fixed := askAll (fixedBy F operands depth .nodes) fixed
          ((operands.lookup k).getD [])
        match i.listing with
        | .error _ => fixed
        | .ok raw =>
          if access == .order || (access == .nodes && raw.sorted) then fixed
          else if raw.nodes.isOk then k :: fixed else fixed
  | _, _, fixed, _ => fixed
where
  /-- Asks one set after the other, up to the first whose nodes cannot be listed. -/
  askAll (ask : List Nat → NodeSet → List Nat) (fixed : List Nat) : List NodeSet → List Nat
    | [] => fixed
    | s :: rest =>
      let fixed := ask fixed s
      match s.enumerate F with
      | .ok _ => askAll ask fixed rest
      | .error _ => fixed

def asked (F : Forest) (access : Access) (s : NodeSet) : Workspace :=
  { w with fixed := fixedBy F w.operands (w.operands.length + 1) access w.fixed s }

end Workspace

end XPath
