import XPath.Proofs.Collation.Preorder
import XPath.Proofs.Evaluation.Depth
import XPath.Proofs.Evaluation.Flags
import XPath.Proofs.Evaluation.Sorting

/-!
# The order of a sort

Comparers by code point and by number put all texts in order, so keys with such comparers put the
nodes in order: by the first key, where that does not decide by the second one and so on, and in the
end by place in the document. A sort yields the nodes of its selection, each once, in this order
(`Expr.exists_enumerate_sorted`).
-/

namespace XPath

variable {α β : Type} {F : Forest} {h : Host} {E : Engine} {c : Context} {selection : Expr}
  {base : Enumeration} {keys : List SortKey} {ns ms : List Node} {n a b : Node} {comparer : SortKey → Comparer}
  {texts : SortKey → Node → String}

/-! ## Insertion in an order -/

section Insertion

variable {cmp : α → α → Ordering} [Std.TransCmp cmp]

/-- The latest element comes first, and none comes before one behind it. -/
theorem insertLatest_pairwise {x : α} {ys : List α}
    (h : ys.Pairwise fun y z => (cmp z y).isLE = true) :
    (insertLatest (fun a b => cmp a b == .lt) x ys).Pairwise fun y z => (cmp z y).isLE = true := by
  induction ys with
  | nil => exact List.pairwise_singleton _ _
  | cons y ys ih =>
      obtain ⟨hy, hys⟩ := List.pairwise_cons.mp h
      rw [insertLatest]
      split
      · rename_i hx
        rw [beq_iff_eq] at hx
        refine List.pairwise_cons.mpr ⟨fun z hz => ?_, ih hys⟩
        rcases List.mem_cons.mp ((insertLatest_perm _ x ys).mem_iff.mp hz) with rfl | hz
        · rw [hx]
          rfl
        · exact hy z hz
      · rename_i hx
        rw [beq_iff_eq] at hx
        have hyx : (cmp y x).isLE = true := by
          rw [show cmp y x = (cmp x y).swap from Std.OrientedCmp.eq_swap]
          cases ho : cmp x y with
          | lt => exact absurd ho hx
          | eq | gt => rfl
        refine List.pairwise_cons.mpr ⟨fun z hz => ?_, h⟩
        rcases List.mem_cons.mp hz with rfl | hz
        · exact hyx
        · exact Std.TransCmp.isLE_trans (hy z hz) hyx

theorem sortByInsertion_pairwise (xs : List α) :
    (sortByInsertion (fun a b => cmp a b == .lt) xs).Pairwise fun a b => (cmp a b).isLE = true := by
  have hfold (latest : List α) (h : latest.Pairwise fun y z => (cmp z y).isLE = true) :
      (xs.foldl (fun latest x => insertLatest (fun a b => cmp a b == .lt) x latest) latest).Pairwise
        fun y z => (cmp z y).isLE = true := by
    induction xs generalizing latest with
    | nil => exact h
    | cons x xs ih => exact ih _ (insertLatest_pairwise h)
  exact List.pairwise_reverse.mpr (hfold [] .nil)

end Insertion

theorem sortByInsertion_map (f : β → α) (before : α → α → Bool) (xs : List β) :
    sortByInsertion before (xs.map f) =
      (sortByInsertion (fun a b => before (f a) (f b)) xs).map f := by
  have hinsert (x : β) (ys : List β) : insertLatest before (f x) (ys.map f) =
      (insertLatest (fun a b => before (f a) (f b)) x ys).map f := by
    induction ys with
    | nil => rfl
    | cons y ys ih =>
        rw [List.map_cons, insertLatest, insertLatest, ih]
        split <;> rfl
  have hfold (latest : List β) :
      (xs.map f).foldl (fun latest x => insertLatest before x latest) (latest.map f) =
        (xs.foldl (fun latest x => insertLatest (fun a b => before (f a) (f b)) x latest)
          latest).map f := by
    induction xs generalizing latest with
    | nil => rfl
    | cons x xs ih =>
        rw [List.map_cons, List.foldl_cons, List.foldl_cons, hinsert, ih]
  rw [sortByInsertion, sortByInsertion, List.map_reverse]
  exact congrArg List.reverse (hfold [])

/-! ## The order of the keys -/

namespace Comparer

def IsPlain : Comparer → Prop
  | codepoint | numeric => True
  | descending c => c.IsPlain
  | caseOrder _ | english _ => False

theorem lowerFirst?_of_isPlain {c : Comparer} (hc : c.IsPlain) : c.lowerFirst? = none := by
  induction c with
  | codepoint | numeric => rfl
  | caseOrder | english => exact hc.elim
  | descending c ih => exact ih hc

theorem transCmp_compareKeys {c : Comparer} (hc : c.IsPlain) : Std.TransCmp c.compareKeys := by
  have hpreorder : c.IsPreorder fun _ => True := by
    refine isPreorder_of_tellsApart fun lowerFirst hfirst => ?_
    rw [lowerFirst?_of_isPlain hc] at hfirst
    cases hfirst
  have : Std.OrientedCmp c.compareKeys :=
    ⟨fun {s t} => hpreorder.swap s t (fun _ _ => trivial) fun _ _ => trivial⟩
  refine ⟨fun {s t u} hst htu => ?_⟩
  exact Ordering.isLE_iff_ne_gt.mpr (hpreorder.trans s t u (fun _ _ => trivial) (fun _ _ => trivial)
    (fun _ _ => trivial) (Ordering.isLE_iff_ne_gt.mp hst) (Ordering.isLE_iff_ne_gt.mp htu))

end Comparer

namespace Forest

/-- The order of two nodes by keys, of which the first one counts most, and by their places if the keys
do not decide. -/
def compareByKeys (F : Forest) (comparer : SortKey → Comparer) (texts : SortKey → Node → String) :
    List SortKey → Node → Node → Ordering
  | [], a, b => F.compareNodes a b
  | key :: keys, a, b =>
    ((comparer key).compareKeys (texts key a) (texts key b)).then
      (F.compareByKeys comparer texts keys a b)

theorem transCmp_compareNodes (F : Forest) : Std.TransCmp F.compareNodes := by
  have : Std.OrientedCmp F.compareNodes := by
    refine ⟨fun {a b} => ?_⟩
    rcases F.before_trichotomy a b with h | h | h
    · rw [compareNodes_eq_gt.mpr h]
      exact h
    · rw [compareNodes_eq_eq.mpr h, compareNodes_eq_eq.mpr h.symm]
      rfl
    · rw [compareNodes_eq_gt.mpr h, show F.compareNodes b a = .lt from h]
      rfl
  have hnotAfter (a b : Node) : (F.compareNodes a b).isLE = F.notAfter a b := by
    unfold notAfter
    cases F.compareNodes a b <;> rfl
  refine ⟨fun {a b c} hab hbc => ?_⟩
  rw [hnotAfter] at *
  exact notAfter_trans hab hbc

theorem transCmp_compareByKeys (h : ∀ key ∈ keys, (comparer key).IsPlain) :
    Std.TransCmp (F.compareByKeys comparer texts keys) := by
  induction keys with
  | nil => exact F.transCmp_compareNodes
  | cons key keys ih =>
      have hfirst := Comparer.transCmp_compareKeys (h key List.mem_cons_self)
      have hkey : Std.TransCmp fun a b =>
          (comparer key).compareKeys (texts key a) (texts key b) :=
        { eq_swap := hfirst.eq_swap, isLE_trans := hfirst.isLE_trans }
      have hrest := ih fun key hkey => h key (List.mem_cons_of_mem _ hkey)
      exact Std.instTransCmpCompareLex

theorem orderKey_eq_of_compareByKeys (h : F.compareByKeys comparer texts keys a b = .eq) :
    F.orderKey a = F.orderKey b := by
  induction keys with
  | nil => exact compareNodes_eq_eq.mp h
  | cons key keys ih => exact ih (Ordering.then_eq_eq.mp h).2

theorem eq_of_pairwise_compareByKeys (h : ∀ key ∈ keys, (comparer key).IsPlain)
    (hns : ns.Pairwise fun a b => F.compareByKeys comparer texts keys a b = .lt)
    (hms : ms.Pairwise fun a b => F.compareByKeys comparer texts keys a b = .lt)
    (hmem : ∀ n, n ∈ ns ↔ n ∈ ms) : ns = ms := by
  have hcmp : Std.TransCmp (F.compareByKeys comparer texts keys) := F.transCmp_compareByKeys h
  have hirrefl : Std.Irrefl fun a b => F.compareByKeys comparer texts keys a b = .lt := by
    refine ⟨fun a hlt => ?_⟩
    have hself : F.compareByKeys comparer texts keys a a = .eq := Std.ReflCmp.compare_self
    rw [hself] at hlt
    cases hlt
  have hantisymm : Std.Antisymm fun a b => F.compareByKeys comparer texts keys a b = .lt := by
    refine ⟨fun a b hab hba => ?_⟩
    rw [Std.OrientedCmp.gt_of_lt hab] at hba
    cases hba
  exact hns.eq_of_mem_iff hms hmem

theorem compareByKeys_eq (F : Forest) (comparer : SortKey → Comparer) (texts : SortKey → Node → String)
    (keys : List SortKey) (a b : Node) : F.compareByKeys comparer texts keys a b =
      (compareSortValues (keys.map comparer)
        (keys.map fun key => (comparer key).prepare (texts key a))
        (keys.map fun key => (comparer key).prepare (texts key b))).then (F.compareNodes a b) := by
  induction keys with
  | nil => rfl
  | cons key keys ih =>
      rw [compareByKeys, ih]
      exact (Ordering.then_assoc _ _ _).symm

end Forest

namespace Engine

theorem sortValues_eq (h : ∀ key ∈ keys, E.text key.key c = .ok (texts key n)) :
    E.sortValues c (keys.zip (keys.map comparer)) =
      .ok (keys.map fun key => (comparer key).prepare (texts key n)) := by
  induction keys with
  | nil => rfl
  | cons key keys ih =>
      rw [List.map_cons, List.zip_cons_cons, sortValues, h key List.mem_cons_self, ok_bind,
        ih fun key hkey => h key (List.mem_cons_of_mem _ hkey)]
      rfl

/-- What is compared are the nodes with the prepared values of their keys. -/
theorem sortRecords_eq (htexts : ∀ key ∈ keys, ∀ entry ∈ ns.zipIdx 1,
      E.text key.key (c.forItem entry.1 entry.2 (.known ns.length)) =
        .ok (texts key entry.1)) :
    (ns.zipIdx 1).mapM (fun (n, position) => do
      let values ← E.sortValues (c.forItem n position (.known ns.length))
        (keys.zip (keys.map comparer))
      return (n, values)) =
    .ok (ns.map fun n => (n, keys.map fun key => (comparer key).prepare (texts key n))) := by
  have hfirst : (ns.map fun n => (n, keys.map fun key => (comparer key).prepare (texts key n))) =
      (ns.zipIdx 1).map fun entry =>
        (entry.1, keys.map fun key => (comparer key).prepare (texts key entry.1)) := by
    conv_lhs => rw [← List.zipIdx_map_fst 1 ns, List.map_map]
    rfl
  rw [hfirst]
  refine mapM_eq_ok.mpr (List.forall₂_map_right_iff.mpr (List.forall₂_same.mpr ?_))
  intro entry hentry
  dsimp only
  rw [sortValues_eq fun key hkey => htexts key hkey entry hentry]
  rfl

/-- A sort by plain comparers yields the distinct nodes of the selection in the order of the keys. Each
key is read at the position that the node has among them in document order. -/
theorem exists_sort (W : F.WellFormed) (hbase : E.enumerate selection c = .ok base)
    (htruth : base.Truthful F) (hms : base.nodes = .ok ms)
    (hcomparers : ∀ key ∈ keys, E.comparer c key = .ok (comparer key))
    (hplain : ∀ key ∈ keys, (comparer key).IsPlain)
    (htexts : ∀ key ∈ keys, ∀ entry ∈ (F.inOrder ms).zipIdx 1,
      E.text key.key (c.forItem entry.1 entry.2 (.known (F.inOrder ms).length)) =
        .ok (texts key entry.1)) :
    ∃ out, E.sort F selection keys c = .ok (.ofNodes out false false) ∧
      out.Perm (F.inOrder ms) ∧
      out.Pairwise fun a b => F.compareByKeys comparer texts keys a b = .lt := by
  have hlists : base.Lists F (F.inOrder ms) := by
    have hlists := htruth.lists W
    rwa [leading_of_collect hms] at hlists
  generalize F.inOrder ms = ns at hlists htexts
  have hcmp : Std.TransCmp (F.compareByKeys comparer texts keys) := F.transCmp_compareByKeys hplain
  have hkeys : keys.mapM (E.comparer c) = .ok (keys.map comparer) :=
    mapM_eq_ok.mpr (List.forall₂_map_right_iff.mpr (List.forall₂_same.mpr hcomparers))
  have hinOrder (hs : base.sorted = true) : base.nodes = .ok ns := by
    rwa [← hlists.nodes_eq hs hms]
  obtain ⟨x, hx⟩ : ∃ x, Extent.ofEnumeration base = .ok x := by
    rw [Extent.ofEnumeration, hms]
    exact ⟨_, rfl⟩
  have hinExtent : (x.sort F).nodes = ns := ((hlists.ofEnumeration hx).sort W).1
  let record (n : Node) := (n, keys.map fun key => (comparer key).prepare (texts key n))
  have hrecords : _ = Except.ok (ns.map record) := sortRecords_eq htexts
  have hsorted : (sortByInsertion (fun a b => (compareSortValues (keys.map comparer) a.2 b.2).then
      (F.compareNodes a.1 b.1) == .lt) (ns.map record)).map (·.1) =
        sortByInsertion (fun a b => F.compareByKeys comparer texts keys a b == .lt) ns := by
    rw [sortByInsertion_map, List.map_map]
    simp only [record, ← F.compareByKeys_eq]
    exact List.map_id _
  refine ⟨sortByInsertion (fun a b => F.compareByKeys comparer texts keys a b == .lt) ns, ?_,
    sortByInsertion_perm _ ns, ?_⟩
  · rw [sort, hkeys, ok_bind, hbase, ok_bind]
    dsimp only
    split
    · rw [hinOrder (by assumption), ok_bind, hrecords, ok_bind, hsorted]
      rfl
    · rw [hx, ok_bind, hinExtent, pure_bind, hrecords, ok_bind, hsorted]
      rfl
  · have hdistinct : ns.Pairwise fun a b => F.orderKey a ≠ F.orderKey b :=
      hlists.ascending.imp Forest.Before.key_ne
    have hout := (sortByInsertion_perm (fun a b => F.compareByKeys comparer texts keys a b == .lt) ns)
      |>.pairwise_iff (fun h => Ne.symm h) |>.mpr hdistinct
    refine (hout.and (sortByInsertion_pairwise ns)).imp fun {a b} h => ?_
    obtain ⟨hne, hle⟩ := h
    cases ho : F.compareByKeys comparer texts keys a b with
    | lt => rfl
    | eq => exact absurd (Forest.orderKey_eq_of_compareByKeys ho) hne
    | gt =>
        rw [ho] at hle
        cases hle

end Engine

namespace Expr

/-- Sorted by keys with plain comparers, the nodes of a selection come once each and in the order of
the keys. Each key is read with the node's position among them in document order, whatever the order
in which the selection finds them. -/
theorem exists_enumerate_sorted (W : h.forest.WellFormed) (hh : h.Truthful)
    (he : (Policy.truthful h.forest).AdmitsExpr selection)
    (hc : (Policy.truthful h.forest).AdmitsContext c)
    (hbase : selection.enumerate h c = .ok base) (hms : base.nodes = .ok ms)
    (hcomparers : ∀ key ∈ keys, h.evaluator.comparer c key = .ok (comparer key))
    (hplain : ∀ key ∈ keys, (comparer key).IsPlain)
    (htexts : ∀ key ∈ keys, ∀ entry ∈ (h.forest.inOrder ms).zipIdx 1,
      key.key.evaluateAsText h
          (c.forItem entry.1 entry.2 (.known (h.forest.inOrder ms).length)) =
        .ok (texts key entry.1)) :
    ∃ out, (sorted selection keys).enumerate h c = .ok (.ofNodes out false false) ∧
      out.Nodup ∧ (∀ n, n ∈ out ↔ n ∈ ms) ∧
      out.Pairwise fun a b => h.forest.compareByKeys comparer texts keys a b = .lt := by
  have htruth : base.Truthful h.forest :=
    ((Policy.enumerate_admits (hh.closed W) he hc).of_ok hbase).flags.truthful
  obtain ⟨out, hout, hperm, hpairwise⟩ :=
    Engine.exists_sort (E := h.evaluator) W hbase htruth hms hcomparers hplain htexts
  have hhas (n : Node) (hn : n ∈ ms) : h.forest.Has n :=
    htruth.has n ((leading_of_collect hms).symm ▸ hn)
  refine ⟨out, (enumerate_sorted selection keys c).trans hout,
    hperm.nodup_iff.mpr (h.forest.ascending_inOrder ms).nodup,
    fun n => hperm.mem_iff.trans (W.mem_inOrder hhas), hpairwise⟩

/-- `<r><a>x</a><b>2</b><c>y</c><d/></r>`. -/
def mixed : Forest :=
  ⟨#[.ofEvents 1 [.element ⟨none, none, "r"⟩, .element ⟨none, none, "a"⟩, .text "x", .close,
    .element ⟨none, none, "b"⟩, .text "2", .close, .element ⟨none, none, "c"⟩, .text "y", .close,
    .element ⟨none, none, "d"⟩, .close, .close]]⟩

/-- A host of the document `<r><a>x</a><b>2</b><c>y</c><d/></r>`. -/
def mixedHost : Host := .ofRoutines mixed []

/-- `preceding-sibling::*`, which finds the nearest sibling first. -/
def earlier : Expr := path contextNode .precedingSibling (.ofKind .element) []

/-- By number, and where this does not decide the last one, where `position() = last()`, first. -/
def latestKeys : List SortKey :=
  [.mk contextNode none (some (string "number")) none none,
    .mk (binary .equals (call .position [] .free) (call .last [] .free))
      (some (string "descending")) none none none]

def latestComparer : SortKey → Comparer
  | .mk _ none .. => .numeric
  | .mk .. => .descending .codepoint

/-- The strings of `a`, `b` and `c`, and that `c` is the last one of the three. -/
def latestText (key : SortKey) (n : Node) : String :=
  match key.order with
  | none => mixed.stringValue n
  | some _ => if n == ⟨0, 6⟩ then "true" else "false"

theorem exists_enumerate_sorted_earlier :
    ∃ out, out = [(⟨0, 4⟩ : Node), ⟨0, 6⟩, ⟨0, 2⟩] ∧
      (sorted earlier latestKeys).enumerate mixedHost (.ofNode ⟨0, 8⟩) =
        .ok (.ofNodes out false false) ∧
      out.Nodup ∧ (∀ n, n ∈ out ↔ n ∈ [(⟨0, 6⟩ : Node), ⟨0, 4⟩, ⟨0, 2⟩]) ∧
      out.Pairwise fun a b =>
        mixed.compareByKeys latestComparer latestText latestKeys a b = .lt := by
  have W : mixed.WellFormed :=
    Forest.wellFormed_of_contract (by decide) (by decide) (by decide +kernel)
  have hhost : mixedHost.Truthful := fun _ _ _ _ _ =>
    (trivial : Ends (fun _ => True) _ (Except.error Routine.failure))
  have hcontext : (Policy.truthful mixed).AdmitsContext (.ofNode ⟨0, 8⟩) :=
    Policy.admits_ofNode (show mixed.Has _ by decide)
  have hinOrder : mixedHost.forest.inOrder [⟨0, 6⟩, ⟨0, 4⟩, ⟨0, 2⟩] = [⟨0, 2⟩, ⟨0, 4⟩, ⟨0, 6⟩] := by
    refine (mixed.ascending_inOrder _).eq_of_mem_iff ?_ fun n =>
      (W.mem_inOrder (by decide)).trans ?_
    · show List.Pairwise (fun a b => mixed.compareNodes a b = .lt) _
      decide +kernel
    · simp only [List.mem_cons, List.not_mem_nil, or_false]
      tauto
  have hcomparers : ∀ key ∈ latestKeys, mixedHost.evaluator.comparer (.ofNode ⟨0, 8⟩) key =
      .ok (latestComparer key) := by
    simp only [latestKeys, List.forall_mem_cons, List.not_mem_nil, false_implies, implies_true,
      and_true]
    exact ⟨by decide +kernel, by decide +kernel⟩
  have htexts : ∀ key ∈ latestKeys, ∀ entry ∈ [(⟨0, 2⟩ : Node), ⟨0, 4⟩, ⟨0, 6⟩].zipIdx 1,
      key.key.evaluateAsText mixedHost
          ((Context.ofNode ⟨0, 8⟩).forItem entry.1 entry.2 (.known 3)) =
        .ok (latestText key entry.1) := by
    simp only [latestKeys, List.forall_mem_cons, List.not_mem_nil, false_implies, implies_true,
      and_true]
    exact ⟨by decide +kernel, by decide +kernel⟩
  have hbase : earlier.enumerate mixedHost (.ofNode ⟨0, 8⟩) =
      .ok ⟨[.ok ⟨0, 6⟩, .ok ⟨0, 4⟩, .ok ⟨0, 2⟩], false, true, true, .unknown, []⟩ := rfl
  have hplain : ∀ key ∈ latestKeys, (latestComparer key).IsPlain := by
    simp [latestKeys, latestComparer, Comparer.IsPlain]
  obtain ⟨out, hout, hnodup, hmem, hpairwise⟩ := exists_enumerate_sorted (h := mixedHost) W hhost
    (by simp [Every, EveryOfList, Policy.AdmitsPart, earlier]) hcontext hbase rfl hcomparers hplain
    (by rw [hinOrder]; exact htexts)
  refine ⟨out, ?_, hout, hnodup, hmem, hpairwise⟩
  refine Forest.eq_of_pairwise_compareByKeys hplain hpairwise (by decide +kernel) fun n =>
    (hmem n).trans ?_
  simp only [List.mem_cons, List.not_mem_nil, or_false]
  tauto

end Expr

end XPath
