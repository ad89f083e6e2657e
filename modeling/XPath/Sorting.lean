import XPath.Collation
import XPath.Engine

/-!
# Sorting nodes by keys

The nodes of a selection in the order of sort keys. Every key is evaluated once for each node,
whose position is its place in document order; equal keys leave nodes in document order.
-/

namespace XPath

def Engine.sortAttribute (E : Engine) (c : Context) (e : Option Expr) (default : String) :
    Except Error String :=
  match e with
  | some e => E.text e c
  | none => .ok default

/-- The comparer for texts: by language if one is given (all languages sort as English), else by
case order if one is given, else by code point. -/
def Engine.textComparer (E : Engine) (c : Context) (lang : Option Expr)
    (lowerFirst : Option Bool) : Except Error Comparer :=
  match lang, lowerFirst with
  | some e, _ => (E.text e c).map fun _ => .english (lowerFirst.getD false)
  | none, some lowerFirst => .ok (.caseOrder lowerFirst)
  | none, none => .ok .codepoint

def Engine.comparer (E : Engine) (c : Context) (k : SortKey) : Except Error Comparer := do
  let order ← E.sortAttribute c k.order "ascending"
  if order != "ascending" && order != "descending" then throw (.evaluation .sortOrder)
  let lowerFirst ← match ← E.sortAttribute c k.caseOrder "#default" with
    | "#default" => pure none
    | "lower-first" => pure (some true)
    | "upper-first" => pure (some false)
    | _ => throw (.evaluation .sortCaseOrder)
  let dataType ← E.sortAttribute c k.dataType "text"
  let comparer ←
    if dataType == "number" then pure Comparer.numeric
    else if dataType == "text" || dataType.toList.contains ':' then
      E.textComparer c k.lang lowerFirst
    else throw (.evaluation .sortDataType)
  return if order == "ascending" then comparer else .descending comparer

def Engine.sortValues (E : Engine) (c : Context) :
    List (SortKey × Comparer) → Except Error (List SortValue)
  | [] => .ok []
  | (k, comparer) :: rest => do
    let value := comparer.prepare (← E.text k.key c)
    return value :: (← sortValues E c rest)

/-- The order of two lists of key values: the first key that tells them apart decides. -/
def compareSortValues : List Comparer → List SortValue → List SortValue → Ordering
  | c :: cs, x :: xs, y :: ys => (c.compare x y).then (compareSortValues cs xs ys)
  | _, _, _ => .eq

/-- Puts `x` into a list, latest first, in front of the first element that it does not come
before. -/
def insertLatest {α : Type} (before : α → α → Bool) (x : α) : List α → List α
  | [] => [x]
  | y :: rest => if before x y then y :: insertLatest before x rest else x :: y :: rest

/-- Sorts a list by inserting its elements one after the other, each behind the last one that it
does not come before. Comparers of texts need not be transitive; for those the outcome depends on
the order of the comparisons, which is part of the rule. -/
def sortByInsertion {α : Type} (before : α → α → Bool) (xs : List α) : List α :=
  (xs.foldl (fun latest x => insertLatest before x latest) []).reverse

def Engine.sort (E : Engine) (F : Forest) (selection : Expr) (keys : List SortKey) (c : Context) :
    Except Error Enumeration := do
  let comparers ← keys.mapM (E.comparer c)
  let base ← E.enumerate selection c
  let nodes ← if base.sorted then base.nodes else do
    pure ((← Extent.ofEnumeration base).sort F).nodes
  let records ← (nodes.zipIdx 1).mapM fun (n, position) => do
    let values ← E.sortValues (c.forItem n position (.known nodes.length)) (keys.zip comparers)
    return (n, values)
  let before (a b : Node × List SortValue) : Bool :=
    (compareSortValues comparers a.2 b.2).then (F.compareNodes a.1 b.1) == .lt
  return .ofNodes ((sortByInsertion before records).map (·.1)) false false

end XPath
