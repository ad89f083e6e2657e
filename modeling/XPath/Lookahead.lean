import XPath.Enumeration

/-!
# Reading ahead

A list whose length is asked for while it is being read. Nodes pass straight through until then;
the first question reads the rest into a reservoir and remembers the length. If the rest holds an
error, the question fails with it, and what was read up to the error is lost.
-/

namespace XPath

/-- The readings to come, the nodes read ahead, the count of nodes handed out, and the length once
it is known. -/
structure Lookahead where
  base : List Reading
  reservoir : List Node
  delivered : Nat
  length : Option Nat
  deriving Inhabited

namespace Lookahead

def start (e : Enumeration) : Lookahead := ⟨e.readings, [], 0, none⟩

/-- The next item: from the reservoir while that holds any. -/
def next (s : Lookahead) : Reading × Lookahead :=
  match s.reservoir, s.base with
  | n :: rest, _ => (some (.ok n), { s with reservoir := rest, delivered := s.delivered + 1 })
  | [], some (.ok n) :: rest =>
    (some (.ok n), { s with base := rest, delivered := s.delivered + 1 })
  | [], some (.error e) :: rest => (some (.error e), { s with base := rest })
  | [], none :: rest => (none, { s with base := rest })
  | [], [] => (none, s)

/-- Reads nodes up to the end or the first error, which is read too; the rest is what follows. -/
def drain : List Reading → Except Error (List Node) × List Reading
  | [] => (.ok [], [])
  | none :: rest => (.ok [], rest)
  | some (.error e) :: rest => (.error e, rest)
  | some (.ok n) :: rest =>
    let (nodes, rest) := drain rest
    (nodes.map (n :: ·), rest)

/-- The length of the whole list, read ahead if it is not known yet. -/
def lastPosition (s : Lookahead) : Except Error Nat × Lookahead :=
  match s.length with
  | some n => (.ok n, s)
  | none =>
    match drain s.base with
    | (.error e, rest) => (.error e, { s with base := rest })
    | (.ok nodes, rest) =>
      let n := s.delivered + s.reservoir.length + nodes.length
      (.ok n, { s with base := rest, reservoir := s.reservoir ++ nodes, length := some n })

end Lookahead

end XPath
