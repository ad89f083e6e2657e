import XPath.Proofs.Meaning.Outcome

/-!
# Values and their outcomes

The conversions of a value, and its comparison with another one, come to what its outcome says
(`Value.Means.toBool`, `toNumber`, `toText`, `compare`). A value that its owner promises to be sound
denotes an outcome of its own type, with all the nodes that it lists before it fails.
-/

namespace XPath

variable {F : Forest} {a b v : Value} {s t : NodeSet} {u w : Outcome} {ns ms : List Node} {n : Node}

namespace Value

/-- A value means an outcome: what it is, or for a node-set the nodes which it lists. -/
def Means (F : Forest) : Value → Outcome → Prop
  | nodeSet s, w => s.Means F w
  | boolean b, w => w = .boolean b
  | number x, w => w = .number x
  | string s, w => w = .string s
  | object o, w => w = .object o
  | fragment _, _ => False

/-- A constant denotes an outcome: it means the outcome and is of its type. -/
structure Denotes (F : Forest) (v : Value) (w : Outcome) : Prop where
  means : v.Means F w
  type : w.dataType = v.dataType
  ascending : ∀ ns, w = .nodes ns → F.Ascending ns

end Value

namespace Value.Means

variable (W : F.WellFormed)

include W

theorem toBool {holds : Bool} (h : v.Means F w) (hv : v.toBool F = .ok holds) :
    holds = w.holds := by
  cases v with
  | nodeSet s =>
      obtain ⟨empty, hempty, rfl⟩ := map_eq_ok.mp hv
      obtain ⟨ns, rfl, rfl⟩ := NodeSet.Means.isEmpty W h hempty
      rfl
  | fragment f => exact h.elim
  | boolean b | number x | string s | object o =>
      obtain rfl := h
      cases hv
      rfl

/-- A value that turned out to be true or false is of the type of its outcome. -/
theorem dataType_of_toBool {holds : Bool} (h : v.Means F w) (hv : v.toBool F = .ok holds) :
    w.dataType = v.dataType := by
  cases v with
  | nodeSet s =>
      obtain ⟨empty, hempty, rfl⟩ := map_eq_ok.mp hv
      obtain ⟨ns, rfl, rfl⟩ := NodeSet.Means.isEmpty W h hempty
      rfl
  | fragment f => exact h.elim
  | boolean b | number x | string s | object o =>
      obtain rfl := h
      rfl

theorem toText {text : String} (h : v.Means F w) (hv : v.toText F = .ok text) :
    text = w.text F := by
  cases v with
  | nodeSet s => exact (NodeSet.Means.toText W h hv).2
  | fragment f => exact h.elim
  | boolean b | number x | string s | object o =>
      obtain rfl := h
      cases hv
      rfl

theorem toNumber {x : Float} (h : v.Means F w) (hv : v.toNumber F = .ok x) : x = w.toNumber F := by
  cases v with
  | nodeSet s =>
      obtain ⟨text, htext, rfl⟩ := map_eq_ok.mp hv
      obtain ⟨⟨ns, rfl⟩, rfl⟩ := NodeSet.Means.toText W h htext
      rfl
  | fragment f => exact h.elim
  | object o =>
      obtain rfl := h
      cases o <;> cases hv <;> rfl
  | boolean b | number x | string s =>
      obtain rfl := h
      cases hv
      rfl

end Value.Means

/-! ## Outcomes as values -/

/-- A stored list in document order is in its simplest form already. -/
@[simp] theorem sorted_value (ns : List Node) :
    (NodeSet.ofNodes ns true).sorted F = .ok (.ofNodes ns true) := by
  match ns with
  | [] | [n] | n :: m :: ns => rfl

@[simp] theorem enumerate_value (ns : List Node) :
    (NodeSet.ofNodes ns true).enumerate F =
      .ok { Enumeration.ofNodes ns true (decide (ns.length < 2)) with
            peer := decide (ns.length < 2) } := by
  match ns with
  | [] | [n] | n :: m :: ns => rfl

@[simp] theorem toList_value (ns : List Node) : (NodeSet.ofNodes ns true).toList F = .ok ns := by
  simp [NodeSet.toList, Enumeration.ofNodes, Enumeration.nodes]

@[simp] theorem isEmpty_value (ns : List Node) :
    (NodeSet.ofNodes ns true).isEmpty F = .ok ns.isEmpty := by
  match ns with
  | [] | [n] | n :: m :: ns => rfl

@[simp] theorem count_value (ns : List Node) :
    (NodeSet.ofNodes ns true).count F = .ok ns.length := by
  match ns with
  | [] | [n] | n :: m :: ns => rfl

@[simp] theorem first?_value (ns : List Node) :
    (NodeSet.ofNodes ns true).first? F = .ok ns.head? := by
  match ns with
  | [] | [n] | n :: m :: ns => rfl

@[simp] theorem anyItem_map_ok (p : Node → Bool) (ns : List Node) :
    anyItem p (ns.map .ok) = .ok (ns.any p) := by
  induction ns with
  | nil => rfl
  | cons n ns ih =>
      rw [List.map_cons, anyItem, ih, List.any_cons]
      cases p n <;> rfl

@[simp] theorem items_ofNodes (ns : List Node) (sorted reverse : Bool) :
    (Enumeration.ofNodes ns sorted reverse).items = ns.map .ok := rfl

@[simp] theorem toText_value (w : Outcome) : w.value.toText F = .ok (w.text F) := by
  cases w with
  | nodes ns =>
      simp only [Outcome.value, Value.toText, NodeSet.toText, first?_value]
      rfl
  | boolean | number | string | object => rfl

@[simp] theorem toNumber_value (w : Outcome) : w.value.toNumber F = .ok (w.toNumber F) := by
  cases w with
  | nodes ns =>
      have htext : (NodeSet.ofNodes ns true).toText F = .ok ((Outcome.nodes ns).text F) :=
        toText_value (.nodes ns)
      simp only [Outcome.value, Value.toNumber, htext]
      rfl
  | object o => cases o <;> rfl
  | boolean | number | string => rfl

@[simp] theorem toBool_value (w : Outcome) : w.value.toBool F = .ok w.holds := by
  cases w with
  | nodes ns =>
      simp only [Outcome.value, Value.toBool, isEmpty_value]
      rfl
  | boolean | number | string | object => rfl

/-! ## Comparison -/

theorem refines_anyItem (W : F.WellFormed) (h : s.Means F w) (p : Node → Bool) {holds : Bool}
    (hs : (do anyItem p (← s.enumerate F).items) = .ok holds) :
    ∃ ns, w = .nodes ns ∧ holds = ns.any p := by
  obtain ⟨en, hen, hs⟩ := bind_eq_ok.mp hs
  obtain ⟨ns, rfl, hns, -⟩ := h.enumerate W hen
  exact ⟨ns, rfl, hns.covers.anyItem hs⟩

theorem refines_nodeSetEquals (W : F.WellFormed) (hs : s.Means F u) (hb : b.Means F w)
    (equal : Bool) {holds : Bool} (h : Value.nodeSetEquals F s b equal = .ok holds) :
    ∃ ns, u = .nodes ns ∧
      Value.nodeSetEquals F (.ofNodes ns true) w.value equal = .ok holds := by
  unfold Value.nodeSetEquals at h ⊢
  cases b with
  | fragment f => exact hb.elim
  | nodeSet t =>
      cases equal with
      | true =>
          obtain ⟨ns, hns, h⟩ := bind_eq_ok.mp h
          obtain rfl := hs.toList W hns
          obtain ⟨ms, rfl, rfl⟩ := refines_anyItem W hb _ h
          exact ⟨ns, rfl, by simp [Outcome.value]⟩
      | false =>
          obtain ⟨ms, hms, h⟩ := bind_eq_ok.mp h
          obtain rfl := NodeSet.Means.toList W hb hms
          obtain ⟨ns, rfl, rfl⟩ := refines_anyItem W hs _ h
          exact ⟨ns, rfl, by simp [Outcome.value]⟩
  | number x =>
      obtain rfl := hb
      obtain ⟨ns, rfl, rfl⟩ := refines_anyItem W hs _ h
      exact ⟨ns, rfl, by simp [Outcome.value]⟩
  | boolean c =>
      obtain rfl := hb
      obtain ⟨empty, hempty, rfl⟩ := map_eq_ok.mp h
      obtain ⟨ns, rfl, rfl⟩ := hs.isEmpty W hempty
      exact ⟨ns, rfl, by simp [Outcome.value, Except.map]⟩
  | string text | object o =>
      obtain rfl := hb
      obtain ⟨text, htext, h⟩ := bind_eq_ok.mp h
      obtain ⟨ns, rfl, rfl⟩ := refines_anyItem W hs _ h
      refine ⟨ns, rfl, ?_⟩
      cases htext
      simp [Outcome.value, Value.toText]

theorem refines_numericRange (W : F.WellFormed) (hs : s.Means F w) {r : Option (Float × Float)}
    (h : Value.numericRange F s = .ok r) :
    ∃ ns, w = .nodes ns ∧ Value.numericRange F (.ofNodes ns true) = .ok r := by
  unfold Value.numericRange at h ⊢
  obtain ⟨ns, hns, h⟩ := bind_eq_ok.mp h
  obtain rfl := hs.toList W hns
  refine ⟨ns, rfl, ?_⟩
  rw [toList_value, ok_bind]
  exact h

theorem eq_nil_of_numericRange (h : Value.numericRange F (.ofNodes ns true) = .ok none) :
    ns = [] := by
  unfold Value.numericRange at h
  rw [toList_value, ok_bind] at h
  split at h
  · exact List.isEmpty_iff.mp (by assumption)
  · cases h

/-- With no nodes on the left a comparison by order is false, whatever is on the right. -/
theorem compareNodeSet_of_empty (W : F.WellFormed) (hs : s.Means F (.nodes []))
    (hb : b.dataType = .nodeSet) (hfragment : b.Means F w) {op : BinaryOperator} {holds : Bool}
    (h : Value.compareNodeSet F s op b = .ok holds) : holds = false := by
  cases b with
  | fragment f => exact hfragment.elim
  | nodeSet t =>
      obtain ⟨r, hr, h⟩ := bind_eq_ok.mp h
      obtain ⟨ns, hnil, hns⟩ := refines_numericRange W hs hr
      cases hnil
      cases hns
      exact (pure_eq_ok.mp h).symm
  | boolean | number | string | object => cases hb

/-- The right side is listed only if the left side has a node. -/
theorem refines_compareNodeSet (W : F.WellFormed) (hs : s.Means F u) (hb : b.Means F w)
    (hlisted : u = .nodes [] → b.dataType ≠ .nodeSet) (op : BinaryOperator) {holds : Bool}
    (h : Value.compareNodeSet F s op b = .ok holds) :
    ∃ ns, u = .nodes ns ∧
      Value.compareNodeSet F (.ofNodes ns true) op w.value = .ok holds := by
  unfold Value.compareNodeSet at h ⊢
  cases b with
  | fragment f => exact hb.elim
  | nodeSet t =>
      obtain ⟨r, hr, h⟩ := bind_eq_ok.mp h
      obtain ⟨ns, rfl, hns⟩ := refines_numericRange W hs hr
      refine ⟨ns, rfl, ?_⟩
      cases r with
      | none =>
          obtain rfl := eq_nil_of_numericRange hns
          exact absurd rfl (hlisted rfl)
      | some range =>
          obtain ⟨r', hr', h⟩ := bind_eq_ok.mp h
          obtain ⟨ms, rfl, hr'⟩ := refines_numericRange W hb hr'
          simp only [Outcome.value, hns, ok_bind, hr']
          exact h
  | boolean c =>
      obtain rfl := hb
      obtain ⟨empty, hempty, rfl⟩ := map_eq_ok.mp h
      obtain ⟨ns, rfl, rfl⟩ := hs.isEmpty W hempty
      exact ⟨ns, rfl, by simp [Outcome.value, Except.map]⟩
  | number y =>
      obtain rfl := hb
      obtain ⟨ns, rfl, rfl⟩ := refines_anyItem W hs _ h
      exact ⟨ns, rfl, by simp [Outcome.value, Value.toNumber]⟩
  | string text | object o =>
      obtain rfl := hb
      obtain ⟨y, hy, h⟩ := bind_eq_ok.mp h
      obtain ⟨ns, rfl, rfl⟩ := refines_anyItem W hs _ h
      exact ⟨ns, rfl, by simp [Outcome.value, hy]⟩

/-- A value that is no node-set is the value of its outcome. -/
theorem Value.Means.value_eq (h : v.Means F w) (hv : v.dataType ≠ .nodeSet) : w.value = v := by
  cases v with
  | nodeSet s => exact absurd rfl hv
  | fragment f => exact absurd rfl hv
  | boolean | number | string | object =>
      obtain rfl := h
      rfl

theorem refines_equals (W : F.WellFormed) (ha : a.Means F u) (hb : b.Means F w) (equal : Bool)
    {holds : Bool} (h : Value.equals F a b equal = .ok holds) :
    Value.equals F u.value w.value equal = .ok holds := by
  cases a with
  | fragment f => exact ha.elim
  | nodeSet s =>
      obtain ⟨ns, rfl, h⟩ := refines_nodeSetEquals W ha hb equal h
      exact h
  | boolean | number | string | object =>
      rw [ha.value_eq (by simp [Value.dataType])]
      cases b with
      | fragment f => exact hb.elim
      | nodeSet t =>
          obtain ⟨ns, rfl, h⟩ := refines_nodeSetEquals W hb ha equal h
          rw [ha.value_eq (by simp [Value.dataType])] at h
          exact h
      | boolean | number | string | object =>
          rw [hb.value_eq (by simp [Value.dataType])]
          exact h

theorem Value.compare_of_order {op : BinaryOperator} (heq : op ≠ .equals) (hne : op ≠ .notEquals)
    (a b : Value) : Value.compare F op a b =
      match a, b with
      | .nodeSet s, _ => Value.compareNodeSet F s op b
      | _, .nodeSet s => Value.compareNodeSet F s op.inverse a
      | _, _ => do return op.compareNumbers (← a.toNumber F) (← b.toNumber F) := by
  cases op <;> first | rfl | contradiction

theorem Outcome.compare_empty {op : BinaryOperator} (heq : op ≠ .equals) (hne : op ≠ .notEquals)
    (ns : List Node) : Outcome.compare F op (.nodes []) (.nodes ns) = false := by
  cases op <;> first | rfl | contradiction

/-- The comparison of two values is the comparison of their outcomes. A comparison by order does not
list the right side if the left side is empty, so then it must be false. -/
theorem Value.Means.compare (W : F.WellFormed) (ha : a.Means F u) (hb : b.Means F w)
    (op : BinaryOperator) (hempty : op ≠ .equals → op ≠ .notEquals → u = .nodes [] →
      b.dataType = .nodeSet → u.compare F op w = false) {holds : Bool}
    (h : Value.compare F op a b = .ok holds) : holds = u.compare F op w := by
  have hrelation (heq : op ≠ .equals) (hne : op ≠ .notEquals)
      (hlisted : u = .nodes [] → b.dataType ≠ .nodeSet) :
      Value.compare F op u.value w.value = .ok holds := by
    rw [Value.compare_of_order heq hne] at h ⊢
    cases a with
    | fragment f => exact ha.elim
    | nodeSet s =>
        obtain ⟨ns, rfl, h⟩ := refines_compareNodeSet W ha hb hlisted op h
        exact h
    | boolean | number | string | object =>
        rw [ha.value_eq (by simp [Value.dataType])]
        cases b with
        | fragment f => exact hb.elim
        | nodeSet t =>
            have hscalar := ha.value_eq (by simp [Value.dataType])
            obtain ⟨ns, rfl, h⟩ := refines_compareNodeSet W hb ha
              (fun _ => by simp [Value.dataType]) op.inverse h
            rw [hscalar] at h
            exact h
        | boolean | number | string | object =>
            rw [hb.value_eq (by simp [Value.dataType])]
            exact h
  by_cases heq : op = .equals
  · subst heq
    rw [Outcome.compare, Value.compare, refines_equals W ha hb true h]
  · by_cases hne : op = .notEquals
    · subst hne
      rw [Outcome.compare, Value.compare, refines_equals W ha hb false h]
    · by_cases hstops : u = .nodes [] ∧ b.dataType = .nodeSet
      · rw [hempty heq hne hstops.1 hstops.2]
        rw [Value.compare_of_order heq hne] at h
        cases a with
        | fragment f => exact ha.elim
        | nodeSet s =>
            exact compareNodeSet_of_empty W (hstops.1 ▸ ha) hstops.2 hb h
        | boolean | number | string | object =>
            have hu := hstops.1 ▸ ha
            cases hu
      · rw [Outcome.compare, hrelation heq hne fun hu hb => hstops ⟨hu, hb⟩]

/-! ## Sound values -/

/-- What an enumeration shows up to its first error bears out its flags. -/
structure Enumeration.Truthful (F : Forest) (en : Enumeration) : Prop where
  has : ∀ n ∈ leading en.items, F.Has n
  sorted : en.sorted = true → F.Ascending (leading en.items)
  reverse : en.reverse = true → F.Descending (leading en.items)
  peers : en.sorted = true → en.peer = true → F.Peers (leading en.items)
  size : ∀ k, en.size = .known k → ∃ ns : List Node, en.items = ns.map .ok ∧ k = ns.length

/-- A value that is no fragment, and that holds nodes of the forest in the order it promises. -/
def Value.Sound (F : Forest) : Value → Prop
  | nodeSet s => ∀ en, s.listing = .ok en → en.Truthful F
  | fragment _ => False
  | _ => True

def NodeSet.members (F : Forest) (s : NodeSet) : List Node :=
  match s.listing with
  | .ok en => F.inOrder (leading en.items)
  | .error _ => []

def Value.outcome (F : Forest) : Value → Outcome
  | boolean b => .boolean b
  | number x => .number x
  | string s => .string s
  | nodeSet s => .nodes (s.members F)
  | fragment f => .string f.text
  | object o => .object o

theorem yields_leading (items : List Item) : Yields items (leading items) := by
  induction items with
  | nil => rfl
  | cons item items ih =>
      cases item with
      | error e => trivial
      | ok n => exact ⟨leading items, rfl, ih⟩

theorem Enumeration.Truthful.lists (W : F.WellFormed) {en : Enumeration} (h : en.Truthful F) :
    en.Lists F (F.inOrder (leading en.items)) where
  ascending := Forest.ascending_inOrder F _
  has n hn := h.has n (Forest.mem_of_mem_inOrder hn)
  covers :=
    { mem := fun n hn => (W.mem_inOrder h.has).mpr hn
      complete := fun ms hms n hn => leading_of_collect hms ▸ Forest.mem_of_mem_inOrder hn }
  sorted hs := by
    rw [Forest.inOrder_of_ascending (h.sorted hs)]
    exact yields_leading _
  reverse := h.reverse
  peers hs hp := by
    rw [Forest.inOrder_of_ascending (h.sorted hs)]
    exact h.peers hs hp
  size hs k hk := by
    obtain ⟨ns, hns, rfl⟩ := h.size k hk
    rw [Forest.inOrder_of_ascending (h.sorted hs), hns, leading_map_ok]

theorem ascending_outcome (v : Value) (h : v.outcome F = .nodes ns) : F.Ascending ns := by
  cases v with
  | nodeSet s =>
      cases h
      unfold NodeSet.members
      split
      · exact Forest.ascending_inOrder F _
      · exact Forest.ascending_nil
  | boolean | number | string | fragment | object => cases h

theorem Value.Sound.denotes (W : F.WellFormed) (h : v.Sound F) : v.Denotes F (v.outcome F) where
  means := by
    cases v with
    | nodeSet s =>
        intro en hen
        refine ⟨_, rfl, ?_⟩
        rw [NodeSet.members, hen]
        exact (h en hen).lists W
    | fragment f => exact h.elim
    | boolean | number | string | object => rfl
  type := by
    cases v with
    | fragment f => exact h.elim
    | boolean | number | string | nodeSet | object => rfl
  ascending _ := ascending_outcome v

theorem denotes_nodeSet (W : F.WellFormed) {en : Enumeration} (h : s.Means F (.nodes ns))
    (hs : s.listing = .ok en) (hms : en.nodes = .ok ms) :
    (Value.nodeSet s).Denotes F ((Value.nodeSet s).outcome F) := by
  obtain ⟨ns', hns, hlists⟩ := h en hs
  cases hns
  have hmem := hlists.mem_iff hms
  have hhas : ∀ n ∈ ms, F.Has n := fun n hn => hlists.has n ((hmem n).mp hn)
  have hmembers : s.members F = ns := by
    rw [NodeSet.members, hs]
    refine (Forest.ascending_inOrder F _).eq_of_mem_iff hlists.ascending fun n => ?_
    rw [leading_of_collect hms, W.mem_inOrder hhas, hmem]
  refine ⟨?_, rfl, fun ns => ascending_outcome _⟩
  rw [Value.outcome, hmembers]
  exact h

/-! ## Nodes as a value -/

theorem nodes_sort_ofNodes (F : Forest) (ns : List Node) :
    ((Extent.ofNodes ns false).sort F).nodes = F.inOrder ns := by
  match ns with
  | [] => exact (Forest.inOrder_of_ascending Forest.ascending_nil).symm
  | [n] => exact (Forest.inOrder_of_ascending (Forest.ascending_singleton F n)).symm
  | n :: m :: ns => rfl

theorem lists_sort_ofNodes (h : ∀ n ∈ ns, F.Has n) :
    ((Extent.ofNodes ns false).sort F).enumerate.Lists F (F.inOrder ns) := by
  have hhas : ∀ n ∈ F.inOrder ns, F.Has n := fun n hn => h n (Forest.mem_of_mem_inOrder hn)
  have hascending := F.ascending_inOrder ns
  rw [← nodes_sort_ofNodes] at hhas hascending ⊢
  match ns with
  | [] => exact .ofNodes hascending hhas fun _ => Nat.zero_lt_two
  | [n] => exact .ofNodes hascending hhas fun _ => Nat.one_lt_two
  | n :: m :: ns => exact .ofNodes hascending hhas of_decide_eq_true

theorem members_toNodeSet {e : Extent} (h : F.Ascending e.nodes) :
    e.toNodeSet.members F = e.nodes := by
  have hinOrder := Forest.inOrder_of_ascending h
  unfold Extent.toNodeSet
  split
  · rename_i hnodes
    rw [hnodes] at hinOrder ⊢
    exact hinOrder
  · rename_i n hnodes
    rw [hnodes] at hinOrder ⊢
    exact hinOrder
  · simpa [NodeSet.members, NodeSet.listing, Extent.enumerate] using hinOrder

theorem outcome_ofNodes (F : Forest) (ns : List Node) :
    (Value.nodeSet ((Extent.ofNodes ns false).sort F).toNodeSet).outcome F =
      .nodes (F.inOrder ns) := by
  have hascending : F.Ascending ((Extent.ofNodes ns false).sort F).nodes := by
    rw [nodes_sort_ofNodes]
    exact F.ascending_inOrder ns
  rw [Value.outcome, members_toNodeSet hascending, nodes_sort_ofNodes]

theorem denotes_ofNodes (W : F.WellFormed) (h : ∀ n ∈ ns, F.Has n) :
    (Value.nodeSet ((Extent.ofNodes ns false).sort F).toNodeSet).Denotes F
      ((Value.nodeSet ((Extent.ofNodes ns false).sort F).toNodeSet).outcome F) where
  means := by
    rw [outcome_ofNodes]
    exact NodeSet.Means.toNodeSet W (lists_sort_ofNodes h)
  type := rfl
  ascending _ := ascending_outcome _

end XPath
