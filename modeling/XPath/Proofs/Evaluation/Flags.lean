import XPath.Proofs.Evaluation.Faultless
import XPath.Proofs.Tree.Level

/-!
# Flags tell the truth

What an enumeration promises of its order is what its nodes bear out (`Expr.flags_truthful`). The
promise that no node is an ancestor of another is kept through steps to parents and siblings because
the nodes are even on one level.
-/

namespace XPath

variable {F : Forest} {h : Host} {E : Engine} {e predicate : Expr} {c : Context} {axis : Axis}
  {test : NodeTest} {predicates : List Expr} {en base l r : Enumeration} {x : Extent} {n : Node}
  {ns : List Node} {items : List Item} {op : SetOperator}

/-! ## Items that are read in turn -/

theorem leading_append (xs ys : List Item) :
    (leading (xs ++ ys)).Sublist (leading xs ++ leading ys) := by
  induction xs with
  | nil => exact List.Sublist.refl _
  | cons item xs ih =>
      cases item with
      | error e => exact List.nil_sublist _
      | ok n => exact ih.cons_cons n

/-- What is read from one node after the other comes in the order of those nodes. -/
theorem leading_flatMap (f : Node → List Item) (items : List Item) :
    (leading (items.flatMap fun | .error e => [.error e] | .ok n => f n)).Sublist
      ((leading items).flatMap fun n => leading (f n)) := by
  induction items with
  | nil => exact List.Sublist.refl _
  | cons item items ih =>
      cases item with
      | error e => exact List.nil_sublist _
      | ok n =>
          rw [List.flatMap_cons, leading, List.flatMap_cons]
          exact (leading_append _ _).trans (List.Sublist.append (List.Sublist.refl _) ih)

theorem leading_filter (E : Engine) (F : Forest) (base : Enumeration) (predicate : Expr)
    (c : Context) :
    (leading (E.filter F base predicate c).items).Sublist (leading base.items) := by
  obtain ⟨size, errors, hitems, -⟩ := E.filter_spec F base predicate c
  rw [hitems, leading_append_errors]
  exact leading_filterItems 0 base.items

theorem leading_step (E : Engine) (W : F.WellFormed) (axis : Axis) (test : NodeTest)
    (predicates : List Expr) (c : Context) (n : Node) :
    (leading (E.step F axis test predicates c n).items).Sublist (F.onAxis axis n) := by
  have haxis : (leading (axisEnumeration F axis n (some test)).items).Sublist (F.onAxis axis n) := by
    rw [axisEnumeration, leading_map_ok, W.linked.walk_eq]
    exact List.filter_sublist
  unfold Engine.step
  generalize axisEnumeration F axis n (some test) = base at haxis
  induction predicates generalizing base with
  | nil => exact haxis
  | cons p predicates ih => exact ih _ ((leading_filter E F base p c).trans haxis)

/-! ## Flags and levels -/

/-- The flags tell the truth, and peers are on one level. -/
structure Enumeration.Leveled (F : Forest) (en : Enumeration) : Prop where
  truthful : en.Truthful F
  level : en.peer = true → F.Level (leading en.items)

/-- An enumeration that stands for a list tells the truth if it knows its length. -/
theorem Enumeration.Lists.truthful (hen : en.Lists F ns)
    (hsize : ∀ k, en.size = .known k → ∃ ns : List Node, en.items = ns.map .ok ∧ k = ns.length) :
    en.Truthful F where
  has n hn := hen.has n (hen.covers.mem n hn)
  sorted hs := hen.ascending.sublist (hen.sorted hs).leading_initial.sublist
  reverse := hen.reverse
  peers hs hp := (hen.peers hs hp).sublist hen.covers.mem
  size := hsize

namespace Enumeration.Leveled

theorem of_lists {sorted reverse : Bool} {nodes : List Node}
    (hen : (Enumeration.ofNodes nodes sorted reverse).Lists F ns) :
    (Enumeration.ofNodes nodes sorted reverse).Leveled F where
  truthful := hen.truthful fun _ hk => ⟨nodes, rfl, by cases hk; rfl⟩
  level hp := by cases hp

theorem unordered (hns : ∀ n ∈ ns, F.Has n) : (Enumeration.ofNodes ns false false).Leveled F where
  truthful :=
    { has := fun n hn => hns n (by simpa [Enumeration.ofNodes] using hn)
      sorted := fun hs => by cases hs
      reverse := fun hr => by cases hr
      peers := fun hs => by cases hs
      size := fun _ hk => ⟨ns, rfl, by cases hk; rfl⟩ }
  level hp := by cases hp

variable (W : F.WellFormed)

include W

theorem ofOption {n : Option Node} (hn : ∀ k ∈ n, F.Has k) : (Enumeration.ofOption n).Leveled F where
  truthful := (Enumeration.Lists.ofOption W hn).truthful
    fun _ hk => ⟨n.toList, rfl, by cases hk; rfl⟩
  level _ := by
    rw [Enumeration.ofOption, leading_map_ok]
    exact F.level_toList n

theorem ofEnumeration (hen : en.Leveled F) (hx : Extent.ofEnumeration en = .ok x) :
    x.enumerate.Leveled F :=
  of_lists ((hen.truthful.lists W).ofEnumeration hx)

theorem ofNodes (hns : ∀ n ∈ ns, F.Has n) : (Extent.ofNodes ns false).enumerate.Leveled F := by
  refine ofEnumeration W (unordered hns) ?_
  rw [Extent.ofEnumeration, Enumeration.nodes, Enumeration.ofNodes, collect_map_ok]
  rfl

theorem sort (hx : x.enumerate.Leveled F) : (x.sort F).enumerate.Leveled F :=
  of_lists ((hx.truthful.lists W).enumerate_sort W).1

theorem merge (hl : l.Leveled F) (hr : r.Leveled F) (hen : l.merge F op r = .ok en) :
    en.Leveled F := by
  have hlists := (hl.truthful.lists W).merge W (hr.truthful.lists W) hen
  simp only [Enumeration.merge, bind_eq_ok, pure_eq_ok] at hen
  obtain ⟨l', -, r', -, rfl⟩ := hen
  exact ⟨hlists.truthful (by rintro k ⟨⟩), by rintro ⟨⟩⟩

omit W in
theorem filter (hbase : base.Leveled F) : (E.filter F base predicate c).Leveled F := by
  have hsub := leading_filter E F base predicate c
  obtain ⟨-, -, -, -, -, hsorted, hreverse, hpeer, hsize⟩ := E.filter_spec F base predicate c
  have ht := hbase.truthful
  refine ⟨⟨fun n hn => ht.has n (hsub.subset hn), fun hs => ?_, fun hr => ?_, fun hs hp => ?_,
    fun k hk => ?_⟩, fun hp => ?_⟩
  · exact (ht.sorted (hsorted ▸ hs)).sublist hsub
  · exact (ht.reverse (hreverse ▸ hr)).sublist hsub
  · exact (ht.peers (hsorted ▸ hs) (hpeer ▸ hp)).sublist fun _ hn => hsub.subset hn
  · rw [hsize] at hk
    cases hk
  · exact (hbase.level (hpeer ▸ hp)).subset fun _ hn => hsub.subset hn

/-- A path keeps the order of its start if that is made of peers and the step stays below them; from
one node the axis decides. -/
theorem path {one : Bool} (hbase : base.Leveled F)
    (hone : one = true → ∃ n, base = .ofOption n) :
    (E.path F base axis test predicates c one).Leveled F := by
  have ht := hbase.truthful
  let from' (n : Node) : List Node := leading (E.step F axis test predicates c n).items
  have hstep (n : Node) : (from' n).Sublist (F.onAxis axis n) :=
    leading_step E W axis test predicates c n
  have hleading : (leading (E.path F base axis test predicates c one).items).Sublist
      ((leading base.items).flatMap from') := leading_flatMap _ _
  have hsingle (hone' : one = true) : (leading base.items).length ≤ 1 := by
    obtain ⟨n, rfl⟩ := hone hone'
    rw [Enumeration.ofOption, leading_map_ok]
    cases n <;> simp
  have hlevel (hp : (E.path F base axis test predicates c one).peer = true) :
      F.Level (leading (E.path F base axis test predicates c one).items) := by
    obtain ⟨hpeer, haxis⟩ := Bool.and_eq_true_iff.mp hp
    refine (W.level_flatMap haxis (hbase.level hpeer)).subset fun m hm => ?_
    obtain ⟨n, hn, hm⟩ := List.mem_flatMap.mp (hleading.subset hm)
    exact List.mem_flatMap.mpr ⟨n, hn, (hstep n).subset hm⟩
  refine ⟨⟨fun m hm => ?_, fun hs => ?_, fun hr => ?_, fun _ hp => W.peers_of_level (hlevel hp),
    fun k hk => by cases hk⟩, hlevel⟩
  · obtain ⟨n, hn, hm⟩ := List.mem_flatMap.mp (hleading.subset hm)
    exact W.linked.has_of_mem_onAxis (ht.has n hn) ((hstep n).subset hm)
  · refine Forest.Ascending.sublist ?_ hleading
    rcases (Bool.or_eq_true _ _).mp hs with hs | hs
    · simp only [Bool.and_eq_true] at hs
      obtain ⟨⟨hsorted, hpeer⟩, hwithin⟩ := hs
      exact W.ascending_flatMap (ht.sorted hsorted) (W.peers_of_level (hbase.level hpeer)) ht.has
        (fun n _ m hm => W.below_of_mem_onAxis hwithin ((hstep n).subset hm)) fun n _ =>
        (W.ascending_onAxis (Axis.isSorted_of_isWithinSubtree hwithin) n).sublist (hstep n)
    · obtain ⟨hone', haxis⟩ := Bool.and_eq_true_iff.mp hs
      exact flatMap_of_length_le_one (hsingle hone') Forest.ascending_nil fun n =>
        (W.ascending_onAxis haxis n).sublist (hstep n)
  · obtain ⟨hone', haxis⟩ := Bool.and_eq_true_iff.mp hr
    have hdesc : F.Descending ((leading base.items).flatMap from') :=
      flatMap_of_length_le_one (hsingle hone') .nil fun n =>
        (W.descending_onAxis haxis n).sublist (hstep n)
    exact hdesc.sublist hleading

end Enumeration.Leveled

/-! ## Evaluation -/

/-- Nodes of the forest, and flags that tell the truth. -/
def Policy.truthful (F : Forest) : Policy where
  node := F.Has
  fragment _ := True
  reference _ := True
  function _ := True
  error _ := True
  flags := Enumeration.Leveled F

/-- The functions of the host answer with nodes of the forest, in the order that they promise, if they
are given no others. -/
def Host.Truthful (h : Host) : Prop :=
  ∀ (f : ExtensionFunction) (vs : List Value) (c : Context),
    (∀ v ∈ vs, (Policy.truthful h.forest).AdmitsValue v) →
      (Policy.truthful h.forest).AdmitsContext c →
        Ends (fun _ => True) (Policy.truthful h.forest).AdmitsValue (h.apply f.identity vs c)

theorem Host.Truthful.closed (W : h.forest.WellFormed) (hh : h.Truthful) :
    (Policy.truthful h.forest).Closed h where
  error _ _ := trivial
  apply f vs c _ := hh f vs c
  parent _ hp := W.linked.has_parent hp
  documentRoot hn := W.linked.has_documentRoot hn
  attributes _ m hm := Forest.has_of_parent ((W.mem_attributes _ m).mp hm).1
  walk hn _ hm := W.linked.has_of_mem_onAxis hn (W.linked.walk_eq _ _ ▸ hm)
  elementById _ hm := Forest.has_of_elementById hm
  flags_ofOption hn := .ofOption W hn
  flags_ofNodes hns := .ofNodes W hns
  flags_unordered hns := .unordered hns
  flags_ofEnumeration hen hx := .ofEnumeration W hen.flags hx
  flags_sort hx := .sort W hx.flags
  flags_merge hl hr hen := .merge W hl.flags hr.flags hen
  flags_filter hbase := .filter hbase.flags
  flags_path hbase hone := .path W hbase.flags hone

/-- A list of nodes of the forest that is in order if it is said to be is admitted as a node-set. -/
theorem Policy.admits_ofNodes_truthful (W : F.WellFormed) {sorted : Bool} (hns : ∀ n ∈ ns, F.Has n)
    (hsorted : sorted = true → F.Ascending ns) :
    (Policy.truthful F).AdmitsSet (.ofNodes ns sorted) := by
  match ns, hns, hsorted with
  | [], _, _ =>
      exact ⟨fun n hn => by simp [Enumeration.ofOption] at hn, fun _ _ => trivial,
        fun _ _ => trivial, .ofOption W (by simp)⟩
  | [n], hns, _ =>
      have hn : F.Has n := hns n List.mem_cons_self
      refine ⟨fun k hk => ?_, fun _ _ => trivial, fun _ _ => trivial,
        .ofOption W (by simpa using hn)⟩
      obtain rfl : k = n := by simpa [Enumeration.ofOption] using hk
      exact hn
  | n :: m :: ns, hns, hsorted =>
      have hlong : decide ((n :: m :: ns).length < 2) = false := by simp
      show (Policy.truthful F).AdmitsListing (Extent.ofNodes (n :: m :: ns) sorted).enumerate
      rw [Extent.ofNodes, hlong, Bool.or_false]
      refine ⟨fun k hk => hns k (by simpa [Extent.enumerate, Enumeration.ofNodes] using hk),
        fun _ _ => trivial, fun _ _ => trivial, ?_⟩
      cases sorted with
      | false => exact .unordered hns
      | true => exact .of_lists (.ofNodes (hsorted rfl) hns (by rintro ⟨⟩))

namespace Expr

/-- The flags of an enumeration tell the truth about the nodes it lists. -/
theorem flags_truthful (W : h.forest.WellFormed) (hh : h.Truthful)
    (he : (Policy.truthful h.forest).AdmitsExpr e) (hc : (Policy.truthful h.forest).AdmitsContext c)
    (hen : e.enumerate h c = .ok en) (hns : en.nodes = .ok ns) :
    (en.sorted = true → h.forest.Ascending ns) ∧ (en.reverse = true → h.forest.Descending ns) ∧
      (en.peer = true → h.forest.Peers ns) := by
  obtain ⟨ht, hlevel⟩ := ((Policy.enumerate_admits (hh.closed W) he hc).of_ok hen).flags
  rw [← leading_of_collect hns]
  exact ⟨ht.sorted, ht.reverse, fun hp => W.peers_of_level (hlevel hp)⟩

/-- `*/*` -/
def grandchildren : Expr := path (path contextNode .child .anyNode []) .child .anyNode []

theorem truthful_nestedHost : nestedHost.Truthful := by
  intro f vs c _ _
  exact (trivial : Ends (fun _ => True) _ (Except.error Routine.failure))

theorem truthful_flagContext : (Policy.truthful .nested).AdmitsContext flagContext where
  contextNode n hn := by
    cases hn
    show Forest.Has .nested _
    decide
  currentNode n hn := by
    cases hn
    show Forest.Has .nested _
    decide
  bindings name v _ hv := by
    obtain rfl := eq_true_of_valueOf hv
    trivial
  controller k hk := by cases hk

/-- The elements of the document, said to be in order, where `$b` holds. -/
def elements : Expr := filter (literal (.nodeSet (.ofNodes [⟨0, 1⟩, ⟨0, 2⟩] true))) flag

theorem flags_truthful_grandchildren :
    (grandchildren.enumerate nestedHost flagContext =
        .ok ⟨[.ok ⟨0, 2⟩], true, false, true, .unknown, []⟩ ∧
      Forest.nested.Ascending [⟨0, 2⟩] ∧ Forest.nested.Peers [⟨0, 2⟩]) ∧
    (elements.enumerate nestedHost flagContext =
        .ok ⟨[.ok ⟨0, 1⟩, .ok ⟨0, 2⟩], true, false, false, .unknown, []⟩ ∧
      Forest.nested.Ascending [⟨0, 1⟩, ⟨0, 2⟩]) := by
  have hgrandchildren : (Policy.truthful .nested).AdmitsExpr grandchildren := by
    simp [Every, EveryOfList, Policy.AdmitsPart, grandchildren]
  have helements : (Policy.truthful .nested).AdmitsExpr elements := by
    refine Policy.admits_filter.mpr ⟨Policy.admits_literal.mpr ?_, ?_⟩
    · exact Policy.admits_ofNodes_truthful Forest.wellFormed_nested (by decide)
        fun _ => List.pairwise_pair.mpr (show Forest.nested.compareNodes _ _ = .lt by decide)
    · simp [Every, Policy.AdmitsPart, flag, Policy.truthful]
  have hpaths : grandchildren.enumerate nestedHost flagContext =
      .ok ⟨[.ok ⟨0, 2⟩], true, false, true, .unknown, []⟩ := by rfl
  have hfilter : elements.enumerate nestedHost flagContext =
      .ok ⟨[.ok ⟨0, 1⟩, .ok ⟨0, 2⟩], true, false, false, .unknown, []⟩ := by rfl
  have htrue := flags_truthful Forest.wellFormed_nested truthful_nestedHost hgrandchildren
    truthful_flagContext hpaths rfl
  exact ⟨⟨hpaths, htrue.1 rfl, htrue.2.2 rfl⟩, hfilter,
    (flags_truthful Forest.wellFormed_nested truthful_nestedHost helements truthful_flagContext
      hfilter rfl).1 rfl⟩

end Expr

end XPath
