import XPath.Proofs.Meaning.Membership
import XPath.Proofs.NodeSet.Algebra

/-!
# Questions to a node-set

Every question to a node-set takes the shortest way that its form and its flags allow: to the first
node, the last one or the least one, through a binary search or a scan, with the nodes counted as they
come or sorted before. A set that can be listed answers all of them as its list does
(`NodeSet.coherent_of_sound`), because no form of a set makes its flags lie (`NodeSet.Formed.admits`).
-/

namespace XPath

variable {F : Forest} {h : Host} {s t : NodeSet} {i : Intent} {x : Extent} {en : Enumeration}
  {n : Node} {ns : List Node}

/-- The nodes in the order in which a set holds them, sorted neither before nor after. An intent that was
materialised holds what it was materialised to. -/
def NodeSet.held (F : Forest) : NodeSet → Except Error (List Node)
  | .empty => .ok []
  | .singleton n => .ok [n]
  | .extent x => .ok x.nodes
  | .intent i => if i.fixed then (i.fix F).map (·.nodes) else do (← i.listing).nodes

/-- The set answers every question as the list does. -/
structure NodeSet.Coherent (F : Forest) (s : NodeSet) (ns : List Node) : Prop where
  toList : s.toList F = .ok ns
  ascending : F.Ascending ns
  count : s.count F = .ok ns.length
  isEmpty : s.isEmpty F = .ok ns.isEmpty
  first? : s.first? F = .ok ns.head?
  contains : ∀ n, F.Has n → s.contains F n = .ok (decide (n ∈ ns))
  store : ∃ en, s.store F = .ok en ∧ en.nodes = .ok ns
  sorted : ∃ t, s.sorted F = .ok t ∧ t.toList F = .ok ns ∧ t.held F = .ok ns

/-! ## Sets that can be listed -/

@[simp] theorem firstItem_map_ok (ns : List Node) : firstItem (ns.map .ok) = .ok ns.head? := by
  cases ns <;> rfl

/-- A sorted list yields its nodes also in its simplest form. -/
theorem Extent.toList_toNodeSet (hx : x.sorted = true) : x.toNodeSet.toList F = .ok x.nodes := by
  unfold Extent.toNodeSet
  split
  · rename_i hnodes
    rw [hnodes]
    rfl
  · rename_i n hnodes
    rw [hnodes]
    rfl
  · rw [NodeSet.toList, NodeSet.enumerate, ok_bind, Extent.sort, if_pos hx]
    exact Enumeration.Lists.nodes_of_enumerate

theorem Extent.held_toNodeSet (F : Forest) (x : Extent) : x.toNodeSet.held F = .ok x.nodes := by
  unfold Extent.toNodeSet
  split
  · rename_i hnodes
    rw [hnodes]
    rfl
  · rename_i n hnodes
    rw [hnodes]
    rfl
  · rfl

theorem Extent.sorted_sort : (x.sort F).sorted = true := by
  unfold Extent.sort
  split
  · assumption
  · rfl

namespace Intent

/-- An intent lists what it is materialised to, also before that. -/
theorem toList_eq : (NodeSet.intent i).toList F = (i.fix F).map (·.nodes) := by
  rw [NodeSet.toList, NodeSet.enumerate, Intent.enumerate]
  have hfix : (do (← (do return (← i.fix F).enumerate : Except Error Enumeration)).nodes) =
      (i.fix F).map (·.nodes) := by
    cases hx : i.fix F with
    | error e => rfl
    | ok x => exact Enumeration.Lists.nodes_of_enumerate
  split
  · exact hfix
  · cases hraw : i.listing with
    | error e => simp [Intent.fix, hraw, Except.map]
    | ok raw =>
        rw [ok_bind]
        split
        · rename_i hsorted
          rw [Intent.fix, hraw, ok_bind, Extent.ofEnumeration]
          show raw.nodes = _
          cases hms : raw.nodes with
          | error e => rfl
          | ok ms => simp [Except.map, Extent.sort, hsorted, pure, Except.pure, bind, Except.bind]
        · exact hfix

/-- Of an intent that can be listed all is known that a question can need. -/
theorem exists_fix (hns : (NodeSet.intent i).toList F = .ok ns) :
    ∃ raw ms x, i.listing = .ok raw ∧ raw.nodes = .ok ms ∧ i.fix F = .ok x ∧ x.nodes = ns ∧
      x.sorted = true := by
  rw [toList_eq] at hns
  obtain ⟨x, hx, rfl⟩ := map_eq_ok.mp hns
  have hfix := hx
  simp only [Intent.fix, bind_eq_ok, pure_eq_ok] at hx
  obtain ⟨raw, hraw, y, hy, rfl⟩ := hx
  obtain ⟨ms, hms, rfl⟩ := map_eq_ok.mp hy
  exact ⟨raw, ms, _, hraw, hms, hfix, rfl, Extent.sorted_sort⟩

theorem held_of_isInOrder (h : i.isInOrder = .ok true) :
    (NodeSet.intent i).held F = (NodeSet.intent i).toList F := by
  rw [isInOrder] at h
  rw [NodeSet.held]
  split at h
  · rw [if_pos (by assumption), toList_eq]
  · obtain ⟨raw, hraw, hsorted⟩ := map_eq_ok.mp h
    rw [if_neg (by assumption), NodeSet.toList, NodeSet.enumerate, enumerate,
      if_neg (by assumption), hraw, ok_bind, ok_bind, if_pos hsorted]
    rfl

end Intent

namespace NodeSet

theorem exists_count (hns : s.toList F = .ok ns) : ∃ k, s.count F = .ok k := by
  cases s with
  | empty | singleton | extent => exact ⟨_, rfl⟩
  | intent i =>
      obtain ⟨raw, ms, x, hraw, hms, hx, -⟩ := Intent.exists_fix hns
      simp only [count, Intent.count, hraw, hms, hx, ok_bind]
      split
      · exact ⟨_, rfl⟩
      · split <;> exact ⟨_, rfl⟩

theorem exists_isEmpty (hns : s.toList F = .ok ns) : ∃ b, s.isEmpty F = .ok b := by
  cases s with
  | empty | singleton | extent => exact ⟨_, rfl⟩
  | intent i =>
      obtain ⟨raw, ms, x, hraw, hms, hx, -⟩ := Intent.exists_fix hns
      simp only [isEmpty, Intent.isEmpty, hraw, collect_eq_ok.mp hms, hx, ok_bind, firstItem_map_ok]
      split <;> exact ⟨_, rfl⟩

theorem exists_first (hns : s.toList F = .ok ns) : ∃ first, s.first? F = .ok first := by
  cases s with
  | empty | singleton | extent => exact ⟨_, rfl⟩
  | intent i =>
      obtain ⟨raw, ms, x, hraw, hms, hx, -⟩ := Intent.exists_fix hns
      simp only [first?, Intent.first?, hraw, collect_eq_ok.mp hms, hx, ok_bind, firstItem_map_ok]
      split
      · exact ⟨_, rfl⟩
      · split <;> exact ⟨_, rfl⟩

theorem exists_contains (hns : s.toList F = .ok ns) (n : Node) : ∃ b, s.contains F n = .ok b := by
  cases s with
  | empty | singleton | extent => exact ⟨_, rfl⟩
  | intent i =>
      obtain ⟨raw, ms, x, -, -, hx, -⟩ := Intent.exists_fix hns
      exact ⟨_, by rw [contains, hx]; rfl⟩

theorem exists_store (hns : s.toList F = .ok ns) :
    ∃ en, s.store F = .ok en ∧ en.nodes = .ok ns := by
  cases s with
  | empty | singleton | extent => exact bind_eq_ok.mp hns
  | intent i =>
      obtain ⟨raw, ms, x, -, -, hx, rfl, -⟩ := Intent.exists_fix hns
      exact ⟨x.enumerate, by rw [store, hx]; rfl, Enumeration.Lists.nodes_of_enumerate⟩

theorem exists_sorted (hns : s.toList F = .ok ns) :
    ∃ t, s.sorted F = .ok t ∧ t.toList F = .ok ns ∧ t.held F = .ok ns := by
  cases s with
  | empty | singleton =>
      cases hns
      exact ⟨_, rfl, rfl, rfl⟩
  | extent e =>
      have hnodes : Except.ok (e.sort F).nodes = Except.ok ns :=
        Enumeration.Lists.nodes_of_enumerate.symm.trans hns
      refine ⟨_, rfl, ?_, ?_⟩
      · rw [Extent.toList_toNodeSet Extent.sorted_sort, hnodes]
      · rw [Extent.held_toNodeSet, hnodes]
  | intent i =>
      obtain ⟨raw, ms, x, hraw, -, hx, rfl, hsorted⟩ := Intent.exists_fix hns
      have horder : ∃ b, i.isInOrder = .ok b := by
        rw [Intent.isInOrder, hraw]
        split <;> exact ⟨_, rfl⟩
      obtain ⟨b, hb⟩ := horder
      simp only [sorted, hb, hx, ok_bind]
      split
      · rename_i horder
        exact ⟨_, rfl, hns, (Intent.held_of_isInOrder (by rw [hb, horder])).trans hns⟩
      · exact ⟨_, rfl, Extent.toList_toNodeSet hsorted, Extent.held_toNodeSet F x⟩

/-- A set whose flags tell the truth answers every question as its list does. -/
theorem coherent_of_sound (W : F.WellFormed) (hs : (Value.nodeSet s).Sound F)
    (hns : s.toList F = .ok ns) : s.Coherent F ns := by
  have hmeans : s.Means F (.nodes ns) := by
    have hmeans := (hs.denotes W).means
    rwa [NodeSet.Means.toList W hmeans hns] at hmeans
  refine
    { toList := hns
      ascending := ascending_toList W hs hns
      count := ?_
      isEmpty := ?_
      first? := ?_
      contains := fun n hn => ?_
      store := exists_store hns
      sorted := exists_sorted hns }
  · obtain ⟨k, hk⟩ := exists_count hns
    obtain ⟨_, ⟨⟩, rfl⟩ := hmeans.count W hk
    exact hk
  · obtain ⟨b, hb⟩ := exists_isEmpty hns
    obtain ⟨_, ⟨⟩, rfl⟩ := hmeans.isEmpty W hb
    exact hb
  · obtain ⟨first, hfirst⟩ := exists_first hns
    obtain ⟨_, ⟨⟩, rfl⟩ := hmeans.first? W hfirst
    exact hfirst
  · obtain ⟨b, hb⟩ := exists_contains hns n
    obtain ⟨_, ⟨⟩, hmem⟩ := hmeans.contains W hn hb
    rw [hb, ← Bool.decide_coe b]
    simp only [hmem]

/-! ## Forms -/

/-- What nodes of the forest and expressions over them are made into. -/
inductive Formed (h : Host) : NodeSet → Prop
  | empty : Formed h .empty
  | singleton {n : Node} (has : h.forest.Has n) : Formed h (.singleton n)
  | extent {nodes : List Node} {sorted reverse : Bool} (has : ∀ n ∈ nodes, h.forest.Has n)
      (ascending : sorted = true → h.forest.Ascending nodes)
      (descending : reverse = true → h.forest.Descending nodes) :
      Formed h (.extent ⟨nodes, sorted, reverse⟩)
  | intent {e : Expr} {i : Intent} (admitted : (Policy.truthful h.forest).AdmitsExpr e)
      (contextFree : (e.engine h).intent e = .ok i) : Formed h (.intent i)
  | combined {a b : NodeSet} {op : SetOperator} (left : Formed h a) (right : Formed h b) :
      Formed h (.combine h.forest op a b)
  | sorted {s t : NodeSet} (formed : Formed h s) (sorted : s.sorted h.forest = .ok t) : Formed h t
  /-- An intent that was materialised since, or is told apart from others. -/
  | marked {i : Intent} {fixed : Bool} {identity : Option Nat} (formed : Formed h (.intent i)) :
      Formed h (.intent { i with fixed, identity })

theorem Formed.ofNodes {sorted : Bool} (has : ∀ n ∈ ns, h.forest.Has n)
    (ascending : sorted = true → h.forest.Ascending ns) : (NodeSet.ofNodes ns sorted).Formed h := by
  rcases ns with _ | ⟨n, _ | ⟨m, ns⟩⟩
  · exact .empty
  · exact .singleton (has n List.mem_cons_self)
  · have hlong : decide ((n :: m :: ns).length < 2) = false := by simp
    show Formed h (.extent (Extent.ofNodes (n :: m :: ns) sorted))
    rw [Extent.ofNodes, hlong, Bool.or_false]
    exact .extent has ascending fun h => by cases h

theorem Formed.admits (W : h.forest.WellFormed) (hh : h.Truthful) (hs : s.Formed h) :
    (Policy.truthful h.forest).AdmitsSet s := by
  have hP := hh.closed W
  induction hs with
  | empty => exact Policy.admits_empty hP
  | singleton has => exact Policy.admits_singleton hP has
  | @extent nodes sorted reverse has ascending descending =>
      refine Policy.AdmitsListing.stored (P := Policy.truthful h.forest) has
        ⟨⟨?_, ?_, ?_, fun _ hp => (by cases hp), ?_⟩, fun hp => (by cases hp)⟩
      all_goals rw [Enumeration.ofNodes]
      · simpa using has
      · simpa using ascending
      · simpa using descending
      · exact fun k hk => ⟨nodes, rfl, by cases hk; rfl⟩
  | @intent e i admitted contextFree =>
      unfold Engine.intent at contextFree
      split at contextFree
      · cases contextFree
        exact Policy.enumerate_admits hP admitted Policy.admits_standalone
      · cases contextFree
  | combined _ _ ihleft ihright => exact ihleft.combine hP _ ihright
  | sorted _ hsorted ih => exact (ih.sorted hP).of_ok hsorted
  | marked _ ih => exact ih

theorem coherent_of_admits (W : F.WellFormed) (hs : (Policy.truthful F).AdmitsSet s)
    (hns : s.toList F = .ok ns) : s.Coherent F ns :=
  coherent_of_sound W (fun _ hen => (hs.of_ok hen).flags.truthful) hns

end NodeSet

end XPath
