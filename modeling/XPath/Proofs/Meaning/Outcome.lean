import XPath.Proofs.Enumeration.Merge
import XPath.Value

/-!
# Outcomes

An outcome is a value with nothing left to be listed: a node-set is its nodes in document order.
A value means an outcome if it is that outcome as far as it can be listed. What is made of a value
(its truth value, its number, its text, its first node) is then made of the outcome.
-/

namespace XPath

/-- What an expression comes to. -/
inductive Outcome
  | boolean (b : Bool)
  | number (x : Float)
  | string (s : String)
  | nodes (ns : List Node)
  | object (o : HostObject)
  deriving Inhabited

namespace Outcome

def dataType : Outcome → DataType
  | boolean _ => .boolean
  | number _ => .number
  | string _ => .string
  | nodes _ => .nodeSet
  | object _ => .object

def holds : Outcome → Bool
  | boolean b => b
  | number x => Number.toBool x
  | string s => !s.isEmpty
  | nodes ns => !ns.isEmpty
  | object o => o.toBool

/-- The string value; of nodes the first one counts. -/
def text (F : Forest) : Outcome → String
  | boolean b => if b then "true" else "false"
  | number x => Number.toText x
  | string s => s
  | nodes ns => (ns.head?.map F.stringValue).getD ""
  | object o => o.text

/-- The number; of nodes the first one counts. -/
def toNumber (F : Forest) : Outcome → Float
  | boolean b => Number.ofBool b
  | number x => x
  | string s => Number.ofText s
  | nodes ns => Number.ofText (text F (nodes ns))
  | object .null => 0.0 / 0.0
  | object o => Number.ofText o.text

def value : Outcome → Value
  | boolean b => .boolean b
  | number x => .number x
  | string s => .string s
  | nodes ns => .nodeSet (.ofNodes ns true)
  | object o => .object o

def compare (F : Forest) (op : BinaryOperator) (a b : Outcome) : Bool :=
  match Value.compare F op a.value b.value with
  | .ok holds => holds
  | .error _ => false

end Outcome

variable {F : Forest} {s : NodeSet} {v : Value} {w : Outcome} {ns : List Node} {n : Node}

theorem Outcome.eq_nodes_of_dataType (h : w.dataType = .nodeSet) : ∃ ns, w = .nodes ns := by
  cases w with
  | nodes ns => exact ⟨ns, rfl⟩
  | boolean | number | string | object => cases h

/-! ## Node-sets -/

def NodeSet.listing : NodeSet → Except Error Enumeration
  | empty => .ok (.ofOption none)
  | singleton n => .ok (.ofOption (some n))
  | extent e => .ok e.enumerate
  | intent i => i.listing

/-- A node-set means an outcome if that is the nodes which it lists. Of a set that cannot be listed
nothing is said. -/
def NodeSet.Means (F : Forest) (s : NodeSet) (w : Outcome) : Prop :=
  ∀ en, s.listing = .ok en → ∃ ns, w = .nodes ns ∧ en.Lists F ns

namespace NodeSet.Means

theorem of_ok {en : Enumeration} (h : s.Means F w) (hs : s.listing = .ok en) :
    ∃ ns, w = .nodes ns ∧ en.Lists F ns := h en hs

theorem eq_of_empty (h : NodeSet.empty.Means F w) : w = .nodes [] := by
  obtain ⟨ns, rfl, hns⟩ := h _ rfl
  have : ([] : List Node) = ns := hns.nodes_eq rfl rfl
  rw [← this]

theorem eq_of_singleton (h : (NodeSet.singleton n).Means F w) : w = .nodes [n] := by
  obtain ⟨ns, rfl, hns⟩ := h _ rfl
  have : [n] = ns := hns.nodes_eq rfl rfl
  rw [← this]

theorem empty (W : F.WellFormed) : NodeSet.empty.Means F (.nodes []) := by
  rintro en ⟨rfl⟩
  exact ⟨[], rfl, .ofOption W (by simp)⟩

theorem singleton (W : F.WellFormed) (hn : F.Has n) :
    (NodeSet.singleton n).Means F (.nodes [n]) := by
  rintro en ⟨rfl⟩
  exact ⟨[n], rfl, .ofOption W (by simpa using hn)⟩

variable (W : F.WellFormed)

include W

theorem toNodeSet {e : Extent} (h : e.enumerate.Lists F ns) : e.toNodeSet.Means F (.nodes ns) := by
  have hmem := h.mem_iff Enumeration.Lists.nodes_of_enumerate
  unfold Extent.toNodeSet
  split
  · rename_i hnodes
    have hns : ns = [] := by
      refine h.ascending.eq_of_mem_iff Forest.ascending_nil fun n => ?_
      rw [← hmem, hnodes]
    rw [hns]
    exact empty W
  · rename_i n hnodes
    have hns : ns = [n] := by
      refine h.ascending.eq_of_mem_iff (Forest.ascending_singleton F n) fun m => ?_
      rw [← hmem, hnodes]
    rw [hns]
    exact singleton W (h.has n (by simp [hns]))
  · intro en hen
    obtain rfl : e.enumerate = en := Except.ok.inj hen
    exact ⟨ns, rfl, h⟩

theorem fix {i : Intent} {x : Extent} (h : (NodeSet.intent i).Means F w) (hx : i.fix F = .ok x) :
    ∃ ns, w = .nodes ns ∧ x.nodes = ns ∧ x.sorted = true ∧ x.enumerate.Lists F ns := by
  simp only [Intent.fix, bind_eq_ok, pure_eq_ok] at hx
  obtain ⟨en, hen, e, he, rfl⟩ := hx
  obtain ⟨ns, rfl, hns⟩ := h en hen
  obtain ⟨hnodes, hsorted, -⟩ := (hns.ofEnumeration he).sort W
  exact ⟨ns, rfl, hnodes, hsorted, ((hns.ofEnumeration he).enumerate_sort W).1⟩

theorem enumerate {en : Enumeration} (h : s.Means F w) (he : s.enumerate F = .ok en) :
    ∃ ns, w = .nodes ns ∧ en.Lists F ns ∧ en.sorted = true := by
  cases s with
  | empty =>
      obtain ⟨ns, rfl, hns⟩ := h en he
      cases he
      exact ⟨ns, rfl, hns, rfl⟩
  | singleton n =>
      obtain ⟨ns, rfl, hns⟩ := h en he
      cases he
      exact ⟨ns, rfl, hns, rfl⟩
  | extent e =>
      obtain ⟨ns, rfl, hns⟩ := h _ rfl
      cases he
      exact ⟨ns, rfl, hns.enumerate_sort W⟩
  | intent i =>
      simp only [NodeSet.enumerate, Intent.enumerate] at he
      split at he
      · obtain ⟨x, hx, he⟩ := bind_eq_ok.mp he
        obtain ⟨ns, hw, -, hsorted, hns⟩ := h.fix W hx
        cases he
        exact ⟨ns, hw, hns, hsorted⟩
      · obtain ⟨raw, hraw, he⟩ := bind_eq_ok.mp he
        split at he
        · obtain ⟨ns, hw, hns⟩ := h raw hraw
          cases he
          exact ⟨ns, hw, hns, by assumption⟩
        · obtain ⟨x, hx, he⟩ := bind_eq_ok.mp he
          obtain ⟨ns, hw, -, hsorted, hns⟩ := h.fix W hx
          cases he
          exact ⟨ns, hw, hns, hsorted⟩

theorem store {en : Enumeration} (h : s.Means F w) (he : s.store F = .ok en) :
    ∃ ns, w = .nodes ns ∧ en.Lists F ns ∧ en.sorted = true := by
  cases s with
  | intent i =>
      obtain ⟨x, hx, rfl⟩ := map_eq_ok.mp he
      obtain ⟨ns, hw, -, hsorted, hns⟩ := h.fix W hx
      exact ⟨ns, hw, hns, hsorted⟩
  | empty | singleton | extent => exact h.enumerate W he

theorem toList (h : s.Means F w) (hs : s.toList F = .ok ns) : w = .nodes ns := by
  obtain ⟨en, hen, hnodes⟩ := bind_eq_ok.mp hs
  obtain ⟨ms, rfl, hms, hsorted⟩ := h.enumerate W hen
  rw [hms.nodes_eq hsorted hnodes]

theorem sorted {s' : NodeSet} (h : s.Means F w) (hs : s.sorted F = .ok s') : s'.Means F w := by
  cases s with
  | empty | singleton =>
      cases hs
      exact h
  | extent e =>
      obtain ⟨ns, rfl, hns⟩ := h _ rfl
      cases hs
      exact toNodeSet W (hns.enumerate_sort W).1
  | intent i =>
      obtain ⟨inOrder, -, hs⟩ := bind_eq_ok.mp hs
      split at hs
      · cases hs
        exact h
      · obtain ⟨x, hx, hs⟩ := bind_eq_ok.mp hs
        obtain ⟨ns, rfl, -, -, hns⟩ := h.fix W hx
        cases hs
        exact toNodeSet W hns

theorem count {k : Nat} (h : s.Means F w) (hs : s.count F = .ok k) :
    ∃ ns, w = .nodes ns ∧ k = ns.length := by
  cases s with
  | empty =>
      cases hs
      exact ⟨[], h.eq_of_empty, rfl⟩
  | singleton n =>
      cases hs
      exact ⟨[n], h.eq_of_singleton, rfl⟩
  | extent e =>
      obtain ⟨ns, rfl, hns⟩ := h _ rfl
      cases hs
      exact ⟨ns, rfl, congrArg List.length (hns.sort W).1⟩
  | intent i =>
      simp only [NodeSet.count, Intent.count] at hs
      split at hs
      · obtain ⟨x, hx, hs⟩ := bind_eq_ok.mp hs
        obtain ⟨ns, hw, hnodes, -⟩ := h.fix W hx
        cases hs
        exact ⟨ns, hw, congrArg List.length hnodes⟩
      · obtain ⟨raw, hraw, hs⟩ := bind_eq_ok.mp hs
        split at hs
        · obtain ⟨ns, hw, hns⟩ := h raw hraw
          obtain ⟨ms, hms, hs⟩ := bind_eq_ok.mp hs
          cases hs
          exact ⟨ns, hw, congrArg List.length (hns.nodes_eq (by assumption) hms)⟩
        · obtain ⟨x, hx, hs⟩ := bind_eq_ok.mp hs
          obtain ⟨ns, hw, hnodes, -⟩ := h.fix W hx
          cases hs
          exact ⟨ns, hw, congrArg List.length hnodes⟩

theorem isEmpty {b : Bool} (h : s.Means F w) (hs : s.isEmpty F = .ok b) :
    ∃ ns, w = .nodes ns ∧ b = ns.isEmpty := by
  cases s with
  | empty =>
      cases hs
      exact ⟨[], h.eq_of_empty, rfl⟩
  | singleton n =>
      cases hs
      exact ⟨[n], h.eq_of_singleton, rfl⟩
  | extent e =>
      obtain ⟨ns, rfl, hns⟩ := h _ rfl
      have hmem := hns.mem_iff Enumeration.Lists.nodes_of_enumerate
      cases hs
      refine ⟨ns, rfl, ?_⟩
      rw [Bool.eq_iff_iff, List.isEmpty_iff, List.isEmpty_iff, List.eq_nil_iff_forall_not_mem,
        List.eq_nil_iff_forall_not_mem]
      exact forall_congr' fun n => not_congr (hmem n)
  | intent i =>
      simp only [NodeSet.isEmpty, Intent.isEmpty] at hs
      split at hs
      · obtain ⟨x, hx, hs⟩ := bind_eq_ok.mp hs
        obtain ⟨ns, hw, hnodes, -⟩ := h.fix W hx
        cases hs
        exact ⟨ns, hw, congrArg List.isEmpty hnodes⟩
      · obtain ⟨raw, hraw, hs⟩ := bind_eq_ok.mp hs
        obtain ⟨first, hfirst, hs⟩ := bind_eq_ok.mp hs
        obtain ⟨ns, hw, hns⟩ := h raw hraw
        have hsome := hns.covers.firstItem hfirst
        cases hs
        refine ⟨ns, hw, ?_⟩
        cases first <;> simp_all

theorem first? {first : Option Node} (h : s.Means F w) (hs : s.first? F = .ok first) :
    ∃ ns, w = .nodes ns ∧ first = ns.head? := by
  cases s with
  | empty =>
      cases hs
      exact ⟨[], h.eq_of_empty, rfl⟩
  | singleton n =>
      cases hs
      exact ⟨[n], h.eq_of_singleton, rfl⟩
  | extent e =>
      obtain ⟨ns, rfl, hns⟩ := h _ rfl
      cases hs
      exact ⟨ns, rfl, hns.first?_extent⟩
  | intent i =>
      simp only [NodeSet.first?, Intent.first?] at hs
      split at hs
      · obtain ⟨x, hx, hs⟩ := bind_eq_ok.mp hs
        obtain ⟨ns, hw, -, -, hns⟩ := h.fix W hx
        cases hs
        exact ⟨ns, hw, hns.first?_extent⟩
      · obtain ⟨raw, hraw, hs⟩ := bind_eq_ok.mp hs
        split at hs
        · obtain ⟨ns, hw, hns⟩ := h raw hraw
          exact ⟨ns, hw, (hns.sorted (by assumption)).firstItem hs⟩
        · obtain ⟨x, hx, hs⟩ := bind_eq_ok.mp hs
          obtain ⟨ns, hw, -, -, hns⟩ := h.fix W hx
          cases hs
          exact ⟨ns, hw, hns.first?_extent⟩

theorem toText {t : String} (h : s.Means F w) (hs : s.toText F = .ok t) :
    (∃ ns, w = .nodes ns) ∧ t = w.text F := by
  obtain ⟨first, hfirst, hs⟩ := bind_eq_ok.mp hs
  obtain ⟨ns, rfl, rfl⟩ := h.first? W hfirst
  cases hs
  exact ⟨⟨ns, rfl⟩, rfl⟩

end NodeSet.Means

end XPath
