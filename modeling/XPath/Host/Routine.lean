import XPath.Context

/-!
# Ready-made functions of the host

Small functions that a host can offer to expressions under any name. Each works on the values of
its arguments and on the context of the call.
-/

namespace XPath

inductive Routine
  | sum
  | join
  | first
  | count
  | position
  | size
  | contextNode
  | currentNode
  | true
  | fragment
  | object
  | null
  | reverse
  | fail
  | failFromThird
  deriving DecidableEq, Repr, Inhabited

namespace Routine

def ofName? (name : String) : Option Routine :=
  [("sum", sum), ("join", join), ("first", first), ("count", count), ("pos", position),
    ("last", size), ("node", contextNode), ("current", currentNode), ("true", true),
    ("frag", fragment), ("obj", object), ("null", null), ("reverse", reverse), ("fail", fail),
    ("fail3", failFromThird)].lookup name

def failure : Error := .reported "boom"

def firstText (F : Forest) (args : List Value) : Except Error String :=
  match args with
  | v :: _ => v.toText F
  | [] => .ok ""

def run (r : Routine) (F : Forest) (args : List Value) (c : Context) : Except Error Value := do
  match r with
  | sum => return .number ((← args.mapM (·.toNumber F)).foldl (· + ·) 0)
  | join => return .string ("|".intercalate (← args.mapM (·.toText F)))
  | first => return args.head?.getD (.string "")
  | count => return .number (Float.ofNat args.length)
  | position => return .number (Float.ofNat c.position)
  | size => return .number (Float.ofNat (← c.last))
  | contextNode => return .nodeSet (.singleton (← c.contextNode))
  | currentNode => return .nodeSet (.singleton (← c.currentNode))
  | true => return .boolean Bool.true
  | fragment => return .fragment (.ofText (← firstText F args))
  | object => return .object (.object (← firstText F args) none)
  | null => return .object .null
  | reverse =>
    let nodes ← (← (args.head?.getD (.string "")).toNodeSet c).toList F
    return .nodeSet (.ofNodes nodes.reverse false)
  | fail => throw failure
  | failFromThird => if c.position < 3 then return .boolean Bool.true else throw failure

end Routine

def Host.ofRoutines (forest : Forest) (routines : List Routine) : Host where
  forest
  apply identity args c :=
    match routines[identity]? with
    | some r => r.run forest args c
    | none => .error Routine.failure

end XPath
