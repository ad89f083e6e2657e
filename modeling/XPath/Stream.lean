import XPath.Lookahead

/-!
# Reading an enumeration step by step

The state of a list that is being read: what is still to come and how its length is known.
-/

namespace XPath

inductive Stream
  | plain (length : Option Nat) (rest : List Reading)
  | ahead (state : Lookahead)
  deriving Inhabited

namespace Stream

def start (e : Enumeration) : Stream :=
  match e.size with
  | .unknown => plain none e.readings
  | .known n => plain (some n) e.readings
  | .ahead => ahead (.start e)

def next : Stream → Reading × Stream
  | plain length [] => (none, plain length [])
  | plain length (r :: rest) => (r, plain length rest)
  | ahead state =>
    let (r, state) := state.next
    (r, ahead state)

/-- The length of the whole list, if there is a way to know it. -/
def lastPosition : Stream → Option (Except Error Nat) × Stream
  | plain length rest => (length.map .ok, plain length rest)
  | ahead state =>
    let (n, state) := state.lastPosition
    (some n, ahead state)

/-- At most `limit` nodes, up to the end or to an error, which is the last item. -/
def take : Nat → Stream → List Item × Stream
  | 0, s => ([], s)
  | limit + 1, s =>
    match s.next with
    | (none, s) => ([], s)
    | (some (.error e), s) => ([.error e], s)
    | (some (.ok n), s) =>
      let (items, s) := take limit s
      (.ok n :: items, s)

end Stream

end XPath
