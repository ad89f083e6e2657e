import XPath.Proofs.Evaluation.Answers
import XPath.Proofs.Evaluation.Flags

/-!
# The algebra of node-sets

Union, intersection and difference of two sets that can be listed are the ascending lists of the
nodes in either, in both, and in the first only (`NodeSet.Combined`), whether a set is combined as a
value, as an expression that is listed, or by the simplifier (`Expr.combined_of_quiet`).

A merge reads on behind the end of a side while the other one still has nodes. An intersection ends
with its right side, and errors may wait behind that end. Hence a set that can be listed may have no
union (`Expr.not_combined`): no error may wait where the operator reads on.
-/

namespace XPath

variable {F : Forest} {h : Host} {op : SetOperator} {a b : NodeSet} {as bs ns : List Node}
  {items : List Item} {left right rs : List Reading} {en l r : Enumeration}

open Enumeration (itemsOf)

/-! ## Readings without errors -/

/-- No error comes up before the end. -/
def Listable (rs : List Reading) : Prop := ∀ e, .error e ∉ itemsOf rs

/-- No error comes up, before the end or behind it. -/
def Quiet (rs : List Reading) : Prop := ∀ e, some (.error e) ∉ rs

theorem Quiet.listable (h : Quiet rs) : Listable rs :=
  fun e he => h e (Policy.some_mem_of_mem_itemsOf he)

theorem Quiet.tail {reading : Reading} (h : Quiet (reading :: rs)) : Quiet rs :=
  fun e he => h e (List.mem_cons_of_mem _ he)

theorem Listable.tail {item : Item} (h : Listable (some item :: rs)) : Listable rs :=
  fun e he => h e (List.mem_cons_of_mem _ he)

theorem listable_end : Listable (none :: rs) := fun _ he => absurd he List.not_mem_nil

theorem Listable.node {n : Node} (h : Listable rs) : Listable (some (.ok n) :: rs) := by
  intro e he
  rcases List.mem_cons.mp he with he | he
  · cases he
  · exact h e he

theorem exists_collect (h : ∀ e, .error e ∉ items) : ∃ ns, collect items = .ok ns := by
  induction items with
  | nil => exact ⟨[], rfl⟩
  | cons item items ih =>
      cases item with
      | error e => exact absurd List.mem_cons_self (h e)
      | ok n =>
          obtain ⟨ns, hns⟩ := ih fun e he => h e (List.mem_cons_of_mem _ he)
          exact ⟨n :: ns, by rw [collect, hns]; rfl⟩

theorem itemsOf_readings (en : Enumeration) : itemsOf en.readings = en.items := by
  unfold Enumeration.readings
  induction en.items with
  | nil => rfl
  | cons item items ih => rw [List.map_cons, List.cons_append, itemsOf, ih]

theorem listable_readings (h : en.nodes = .ok ns) : Listable en.readings := by
  intro e he
  rw [itemsOf_readings, collect_eq_ok.mp h] at he
  simp at he

/-- An enumeration behind whose end no error waits. -/
def Enumeration.EndsQuietly (en : Enumeration) : Prop := ∀ e, some e ∉ en.beyond

theorem Enumeration.EndsQuietly.quiet (hen : en.EndsQuietly) (h : en.nodes = .ok ns) :
    Quiet en.readings := by
  intro e he
  rw [readings, collect_eq_ok.mp h] at he
  simp only [List.map_map, List.mem_append, List.mem_map, List.mem_cons] at he
  obtain ⟨_, _, ⟨⟩⟩ | ⟨⟨⟩⟩ | ⟨e', he', heq⟩ := he
  obtain ⟨e, rfl, ⟨⟩⟩ := Option.map_eq_some_iff.mp heq
  exact hen e he'

/-! ## Merges without errors -/

/-- What a merge bears on its right side: an intersection is at its end with that side, the others
read on. -/
def SetOperator.Bears (op : SetOperator) (right : List Reading) : Prop :=
  match op with
  | intersect => Listable right
  | _ => Quiet right

theorem SetOperator.Bears.ne_error {e : Error} (h : op.Bears (some (.error e) :: right)) : False := by
  cases op with
  | intersect => exact h e List.mem_cons_self
  | union | except => exact h e List.mem_cons_self

theorem SetOperator.Bears.behind_node {n : Node} (h : op.Bears (some (.ok n) :: right)) :
    op.Bears right := by
  cases op with
  | intersect => exact Listable.tail h
  | union | except => exact Quiet.tail h

theorem SetOperator.Bears.behind_end (h : op.Bears (none :: right)) (hop : op ≠ .intersect) :
    op.Bears right := by
  cases op with
  | intersect => exact absurd rfl hop
  | union | except => exact Quiet.tail h

theorem SetOperator.bears_nil : op.Bears [] := by
  cases op <;> exact fun _ he => absurd he List.not_mem_nil

/-- What a merge other than a union does with the first node of the left side. -/
theorem listable_mergeHead {n : Node} {rest : List Reading → List Reading} (hop : op ≠ .union)
    (hright : op.Bears right) (hrest : ∀ right, op.Bears right → Listable (rest right)) :
    Listable (mergeHead F op n rest right) := by
  have hend (right) (hb : op ≠ .intersect → op.Bears right) :
      Listable ((if op = .intersect then none else some (.ok n)) :: rest right) := by
    split
    · exact listable_end
    · exact (hrest right (hb (by assumption))).node
  induction right with
  | nil => exact hend [] fun _ => SetOperator.bears_nil
  | cons reading right ih =>
      match reading, hright with
      | none, hright => exact hend right hright.behind_end
      | some (.error e), hright => exact hright.ne_error.elim
      | some (.ok m), hright =>
          rw [mergeHead, if_neg hop]
          split
          · split
            · exact hrest _ hright
            · exact (hrest _ hright).node
          · exact ih hright.behind_node
          · split
            · exact hrest _ hright.behind_node
            · exact (hrest _ hright.behind_node).node

/-- An intersection or a difference comes to its end without an error. -/
theorem listable_mergeReadings (hop : op ≠ .union) (hleft : Listable left)
    (hright : op.Bears right) : Listable (mergeReadings F op left right) := by
  induction left generalizing right with
  | nil =>
      rw [mergeReadings, mergeRest, if_neg hop]
      exact Quiet.listable fun _ => List.not_mem_nil
  | cons reading left ih =>
      rcases reading with _ | e | n
      · rw [mergeReadings]
        cases right with
        | nil => exact listable_end
        | cons r right =>
            rw [mergeEnd, if_neg hop]
            exact listable_end
      · exact absurd List.mem_cons_self (hleft e)
      · exact listable_mergeHead hop hright fun right hright => ih hleft.tail hright

theorem quiet_mergeReadings (hleft : Quiet left) (hright : Quiet right) :
    Quiet (mergeReadings F op left right) := by
  have hok {rs : List Reading} (hrs : Quiet rs) : ∀ item, some item ∈ rs → item.isOk := by
    rintro (e | n) hitem
    · exact absurd hitem (hrs e)
    · rfl
  intro e he
  simpa [Except.isOk, Except.toBool] using
    Policy.mem_mergeReadings (hok hleft) (hok hright) _ he

/-- No error waits behind the end of a list where a merge of the two goes on reading: behind either
end for a union, behind the right one for a difference. -/
def SetOperator.EndsQuietly (op : SetOperator) (left right : Enumeration) : Prop :=
  match op with
  | union => left.EndsQuietly ∧ right.EndsQuietly
  | intersect => True
  | except => right.EndsQuietly

theorem exists_items_mergeReadings (hl : l.nodes = .ok as) (hr : r.nodes = .ok bs)
    (hquiet : op.EndsQuietly l r) :
    ∃ ns, collect (itemsOf (mergeReadings F op l.readings r.readings)) = .ok ns := by
  apply exists_collect
  cases op with
  | union => exact (quiet_mergeReadings (hquiet.1.quiet hl) (hquiet.2.quiet hr)).listable
  | intersect =>
      exact listable_mergeReadings nofun (listable_readings hl) (listable_readings hr)
  | except => exact listable_mergeReadings nofun (listable_readings hl) (hquiet.quiet hr)

/-! ## Combined sets -/

namespace NodeSet

/-- The list has the nodes that an operator takes from two lists, strictly in document order. -/
structure Combined (F : Forest) (op : SetOperator) (as bs ns : List Node) : Prop where
  ascending : F.Ascending ns
  mem : ∀ n, n ∈ ns ↔ op.Takes (n ∈ as) (n ∈ bs)
  places : ∀ key, key ∈ ns.map F.orderKey ↔
    op.Takes (key ∈ as.map F.orderKey) (key ∈ bs.map F.orderKey)

theorem Combined.of_ascending (W : F.WellFormed) (has : ∀ n ∈ as, F.Has n)
    (hbs : ∀ n ∈ bs, F.Has n) (hns : F.Ascending ns)
    (hmem : ∀ n, n ∈ ns ↔ op.Takes (n ∈ as) (n ∈ bs)) : Combined F op as bs ns where
  ascending := hns
  mem := hmem
  places key := by
    -- nodes of the forest that have one place are one node
    have hsame {m n : Node} (hm : m ∈ as) (hn : n ∈ bs) (hkey : F.orderKey m = F.orderKey n) :
        m = n := W.eq_of_orderKey_eq (has m hm) (hbs n hn) hkey
    simp only [List.mem_map]
    cases op <;> grind [SetOperator.Takes]

theorem Combined.eq {ms : List Node} (h : Combined F op as bs ns) (h' : Combined F op as bs ms) :
    ns = ms :=
  h.ascending.eq_of_mem_iff h'.ascending fun n => (h.mem n).trans (h'.mem n).symm

theorem Combined.nil_left (hbs : F.Ascending bs) :
    Combined F op [] bs (if op = .union then bs else []) := by
  cases op with
  | union => exact ⟨hbs, by simp [SetOperator.Takes], by simp [SetOperator.Takes]⟩
  | intersect | except =>
      exact ⟨Forest.ascending_nil, by simp [SetOperator.Takes], by simp [SetOperator.Takes]⟩

theorem Combined.nil_right (has : F.Ascending as) :
    Combined F op as [] (if op = .intersect then [] else as) := by
  cases op with
  | intersect => exact ⟨Forest.ascending_nil, by simp [SetOperator.Takes], by simp [SetOperator.Takes]⟩
  | union | except => exact ⟨has, by simp [SetOperator.Takes], by simp [SetOperator.Takes]⟩

theorem sorted_merge (h : l.merge F op r = .ok en) : en.sorted = true := by
  simp only [Enumeration.merge, bind_eq_ok, pure_eq_ok] at h
  obtain ⟨_, -, _, -, rfl⟩ := h
  rfl

theorem enumerate_combine : (combine F op a b).enumerate F =
    (do (← a.enumerate F).merge F op (← b.enumerate F)) := by
  rw [combine, enumerate, Intent.enumerate]
  cases hl : a.enumerate F with
  | error e => rfl
  | ok l =>
      cases hr : b.enumerate F with
      | error e => rfl
      | ok r =>
          cases hen : l.merge F op r with
          | error e => simp [hen]
          | ok en => simp [hen, sorted_merge hen]

/-- A set that can be listed is read in document order, and yields its nodes. -/
theorem exists_enumerate (W : F.WellFormed) (ha : (Value.nodeSet a).Sound F)
    (has : a.toList F = .ok as) :
    ∃ en, a.enumerate F = .ok en ∧ en.sorted = true ∧ en.nodes = .ok as ∧ en.Lists F as := by
  obtain ⟨en, hen, hnodes⟩ := bind_eq_ok.mp has
  obtain ⟨ns, -, hlists, hsorted⟩ := NodeSet.Means.enumerate W (ha.denotes W).means hen
  obtain rfl := hlists.nodes_eq hsorted hnodes
  exact ⟨en, hen, hsorted, hnodes, hlists⟩

theorem ascending_toList (W : F.WellFormed) (ha : (Value.nodeSet a).Sound F)
    (has : a.toList F = .ok as) : F.Ascending as := by
  obtain ⟨_, -, -, -, hlists⟩ := exists_enumerate W ha has
  exact hlists.ascending

theorem merge_eq (hl : l.sorted = true) (hr : r.sorted = true) : l.merge F op r =
    .ok { items := itemsOf (mergeReadings F op l.readings r.readings), sorted := true,
          reverse := false, peer := false, size := .unknown,
          beyond := Enumeration.beyondOf (mergeReadings F op l.readings r.readings) } := by
  simp [Enumeration.merge, Enumeration.inDocumentOrder, hl, hr]

theorem exists_combined (W : F.WellFormed) (ha : (Value.nodeSet a).Sound F)
    (hb : (Value.nodeSet b).Sound F) (has : a.toList F = .ok as) (hbs : b.toList F = .ok bs)
    (hquiet : ∀ l r, a.enumerate F = .ok l → b.enumerate F = .ok r → op.EndsQuietly l r) :
    ∃ ns, Combined F op as bs ns ∧ (combine F op a b).toList F = .ok ns := by
  obtain ⟨l, hl, hls, hlnodes, hllists⟩ := exists_enumerate W ha has
  obtain ⟨r, hr, hrs, hrnodes, hrlists⟩ := exists_enumerate W hb hbs
  obtain ⟨ns, hns⟩ := exists_items_mergeReadings (F := F) hlnodes hrnodes (hquiet l r hl hr)
  have hmerge : l.merge F op r = .ok _ := merge_eq hls hrs
  have hlists := hllists.merge W hrlists hmerge
  obtain rfl : ns = F.combine op as bs := hlists.nodes_eq rfl hns
  refine ⟨_, .of_ascending W hllists.has hrlists.has hlists.ascending fun n =>
    W.mem_combine hllists.has hrlists.has, ?_⟩
  rw [toList, enumerate_combine, hl, hr, ok_bind, ok_bind, hmerge]
  exact hns

/-! ## Sets of sets -/

theorem sound_combine (W : F.WellFormed) (ha : (Value.nodeSet a).Sound F)
    (hb : (Value.nodeSet b).Sound F) : (Value.nodeSet (combine F op a b)).Sound F := by
  intro en hen
  obtain ⟨l, hl, hen⟩ := bind_eq_ok.mp hen
  obtain ⟨r, hr, hen⟩ := bind_eq_ok.mp hen
  obtain ⟨ns, -, hlists, -⟩ := NodeSet.Means.enumerate W (ha.denotes W).means hl
  obtain ⟨ms, -, hrists, -⟩ := NodeSet.Means.enumerate W (hb.denotes W).means hr
  have hmerge := hlists.merge W hrists hen
  refine hmerge.truthful fun k hk => ?_
  simp only [Enumeration.merge, bind_eq_ok, pure_eq_ok] at hen
  obtain ⟨_, -, _, -, rfl⟩ := hen
  cases hk

theorem sound_singleton (W : F.WellFormed) {n : Node} (hn : F.Has n) :
    (Value.nodeSet (.singleton n)).Sound F := by
  rintro en ⟨rfl⟩
  exact (Enumeration.Leveled.ofOption W (by simpa using hn)).truthful

end NodeSet

/-! ## Set operations of constants -/

namespace Expr

theorem drain_setOperation (c : Context) :
    (setOperation op (literal (.nodeSet a)) (literal (.nodeSet b))).drain h c =
      (NodeSet.combine h.forest op a b).toList h.forest := by
  rw [NodeSet.toList, NodeSet.enumerate_combine]
  rfl

/-- The simplifier combines two constants, or takes a shortcut if one of them is the empty set. -/
theorem exists_simplify_setOperation (has : a.toList F = .ok as) (hbs : b.toList F = .ok bs)
    (hasc : F.Ascending as) (hbsc : F.Ascending bs)
    (hns : (NodeSet.combine F op a b).toList F = .ok ns)
    (hcombined : NodeSet.Combined F op as bs ns) :
    ∃ s, (setOperation op (literal (.nodeSet a)) (literal (.nodeSet b))).simplify F =
      .ok (literal (.nodeSet s)) ∧ s.toList F = .ok ns := by
  have hsimplify : (setOperation op (literal (.nodeSet a)) (literal (.nodeSet b))).simplify F =
      .ok (ofSetOperation F op (literal (.nodeSet a)) (literal (.nodeSet b))) := rfl
  rw [hsimplify]
  cases a with
  | empty =>
      cases has
      obtain rfl := hcombined.eq (.nil_left hbsc)
      cases op with
      | union => exact ⟨b, rfl, hbs⟩
      | intersect | except => exact ⟨.empty, rfl, rfl⟩
  | singleton | extent | intent =>
      cases b with
      | empty =>
          cases hbs
          obtain rfl := hcombined.eq (.nil_right hasc)
          cases op with
          | intersect => exact ⟨.empty, rfl, rfl⟩
          | union | except => exact ⟨_, rfl, has⟩
      | singleton | extent | intent => cases op <;> exact ⟨_, rfl, hns⟩

/-! ## An error behind the end -/

/-- `/descendant-or-self::node()[* or key('k', 'v')]`, which asks for a controller at a node without
elements in it. -/
def failing (start : Expr) : Expr :=
  path start .descendantOrSelf .anyNode
    [binary .or (path contextNode .child ⟨.element, .any⟩ [])
      (call .key [string "k", string "v"] .free)]

/-- The nodes of the expression from the root on. There is no controller, so an error stands in place
of the third one. -/
def failingSet : NodeSet :=
  .intent
    { display := (failing (ofNode (some ⟨0, 0⟩))).display
      listing := (failing (ofNode (some ⟨0, 0⟩))).enumerate nestedHost .standalone
      fixed := false
      identity := none }

example : (failing root).evaluate nestedHost (.ofNode ⟨0, 0⟩) = .ok (.nodeSet failingSet) := by cbv

theorem listing_failingSet : failingSet.listing =
    .ok { items := [.ok ⟨0, 0⟩, .ok ⟨0, 1⟩, .error (.evaluation (.needsController "key"))],
          sorted := true, reverse := false, peer := false, size := .unknown, beyond := [] } := by cbv

theorem sound_failingSet : (Value.nodeSet failingSet).Sound .nested := by
  intro en hen
  cases listing_failingSet.symm.trans hen
  exact
    { has := by decide
      sorted := fun _ => by
        unfold Forest.Ascending Forest.Before
        decide
      reverse := nofun
      peers := nofun
      size := nofun }

/-- Of these nodes the root: the intersection ends with its right side, in front of the error. -/
def rootOnly : NodeSet := .combine .nested .intersect failingSet (.singleton ⟨0, 0⟩)

theorem sound_rootOnly : (Value.nodeSet rootOnly).Sound .nested :=
  NodeSet.sound_combine Forest.wellFormed_nested sound_failingSet
    (NodeSet.sound_singleton Forest.wellFormed_nested (by decide))

theorem toList_rootOnly : rootOnly.toList .nested = .ok [⟨0, 0⟩] := by cbv

/-- The union, intersection and difference of two sets. -/
theorem combined_of_quiet (W : h.forest.WellFormed) (ha : (Value.nodeSet a).Sound h.forest)
    (hb : (Value.nodeSet b).Sound h.forest) (has : a.toList h.forest = .ok as)
    (hbs : b.toList h.forest = .ok bs)
    (hquiet : ∀ l r, a.enumerate h.forest = .ok l → b.enumerate h.forest = .ok r →
      op.EndsQuietly l r) :
    ∃ ns, NodeSet.Combined h.forest op as bs ns ∧
      (NodeSet.combine h.forest op a b).toList h.forest = .ok ns ∧
      (∀ c, (setOperation op (literal (.nodeSet a)) (literal (.nodeSet b))).drain h c = .ok ns) ∧
      ∃ s, (setOperation op (literal (.nodeSet a)) (literal (.nodeSet b))).simplify h.forest =
        .ok (literal (.nodeSet s)) ∧ s.toList h.forest = .ok ns := by
  obtain ⟨ns, hcombined, hns⟩ := NodeSet.exists_combined W ha hb has hbs hquiet
  exact ⟨ns, hcombined, hns, fun c => (drain_setOperation c).trans hns,
    exists_simplify_setOperation has hbs (NodeSet.ascending_toList W ha has)
      (NodeSet.ascending_toList W hb hbs) hns hcombined⟩

theorem combined_rootOnly : ∃ ns, NodeSet.Combined .nested .except [⟨0, 0⟩] [⟨0, 2⟩] ns ∧
    (NodeSet.combine .nested .except rootOnly (.singleton ⟨0, 2⟩)).toList .nested = .ok ns ∧
    (∀ c, (setOperation .except (literal (.nodeSet rootOnly))
      (ofNode (some ⟨0, 2⟩))).drain nestedHost c = .ok ns) ∧
    ∃ s, (setOperation .except (literal (.nodeSet rootOnly)) (ofNode (some ⟨0, 2⟩))).simplify
      .nested = .ok (literal (.nodeSet s)) ∧ s.toList .nested = .ok ns := by
  refine combined_of_quiet (h := nestedHost) Forest.wellFormed_nested sound_rootOnly
    (NodeSet.sound_singleton Forest.wellFormed_nested (by decide)) toList_rootOnly rfl ?_
  rintro l r - ⟨rfl⟩ e
  exact List.not_mem_nil

/-- The union of two sets that can be listed need not be listable: behind the root the merge comes
to the node `x` of the right side, goes on to read the left one and meets the error. -/
theorem not_combined : ¬∀ (h : Host) (op : SetOperator) (a b : NodeSet) (as bs : List Node),
    h.forest.WellFormed → (Value.nodeSet a).Sound h.forest → (Value.nodeSet b).Sound h.forest →
      a.toList h.forest = .ok as → b.toList h.forest = .ok bs →
      ∃ ns, NodeSet.Combined h.forest op as bs ns ∧
        (NodeSet.combine h.forest op a b).toList h.forest = .ok ns := by
  intro hcombined
  have hunion : (NodeSet.combine .nested .union rootOnly (.singleton ⟨0, 2⟩)).toList .nested =
      .error (.evaluation (.needsController "key")) := by cbv
  obtain ⟨ns, -, hns⟩ := hcombined nestedHost .union rootOnly (.singleton ⟨0, 2⟩) _ _
    Forest.wellFormed_nested sound_rootOnly
    (NodeSet.sound_singleton Forest.wellFormed_nested (by decide)) toList_rootOnly rfl
  cases hunion.symm.trans hns

end Expr

end XPath
