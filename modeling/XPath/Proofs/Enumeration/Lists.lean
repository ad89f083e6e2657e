import XPath.Engine
import XPath.Proofs.Result
import XPath.Proofs.Tree.Axes

/-!
# What an enumeration lists

An enumeration stands for a set of nodes, given as an ascending list. It may fail before it has
yielded all of them, and need not yield them in order; what its flags promise is part of `Lists`.
All questions that are asked of an enumeration are answered as its nodes in document order would
answer them.
-/

namespace XPath

variable {F : Forest} {items : List Item} {ns ms : List Node} {n m : Node} {en : Enumeration}

def leading : List Item → List Node
  | .ok n :: rest => n :: leading rest
  | _ => []

/-- The items are the nodes in this order, as far as there is no error. -/
def Yields : List Item → List Node → Prop
  | [], ns => ns = []
  | .error _ :: _, _ => True
  | .ok n :: rest, ns => ∃ ms, ns = n :: ms ∧ Yields rest ms

/-- The items hold the nodes in some order, as far as there is no error. -/
structure Covers (items : List Item) (ns : List Node) : Prop where
  mem : ∀ n ∈ leading items, n ∈ ns
  complete : ∀ ms, collect items = .ok ms → ∀ n ∈ ns, n ∈ ms

/-! ## Items -/

theorem collect_eq_ok : collect items = .ok ns ↔ items = ns.map .ok := by
  induction items generalizing ns with
  | nil => cases ns <;> simp [collect]
  | cons item items ih =>
      cases item with
      | error e => cases ns <;> simp [collect]
      | ok n =>
          rw [collect, map_eq_ok]
          cases ns with
          | nil => simp
          | cons m ns => simp [ih, and_comm]

@[simp] theorem leading_map_ok (ns : List Node) : leading (ns.map .ok) = ns := by
  induction ns with
  | nil => rfl
  | cons n ns ih => rw [List.map_cons, leading, ih]

theorem leading_of_collect (h : collect items = .ok ns) : leading items = ns := by
  rw [collect_eq_ok.mp h, leading_map_ok]

@[simp] theorem yields_map_ok (ns : List Node) : Yields (ns.map .ok) ns := by
  induction ns with
  | nil => rfl
  | cons n ns ih => exact ⟨ns, rfl, ih⟩

theorem Yields.eq_of_collect (h : Yields items ns) (hc : collect items = .ok ms) : ms = ns := by
  rw [collect_eq_ok] at hc
  subst hc
  induction ms generalizing ns with
  | nil => exact h.symm
  | cons m ms ih =>
      obtain ⟨ks, rfl, h⟩ := h
      rw [ih h]

theorem Yields.leading_initial (h : Yields items ns) : leading items <+: ns := by
  induction items generalizing ns with
  | nil => exact List.nil_prefix
  | cons item items ih =>
      cases item with
      | error e => exact List.nil_prefix
      | ok n =>
          obtain ⟨ms, rfl, h⟩ := h
          rw [leading, List.prefix_cons_inj]
          exact ih h

theorem Yields.covers (h : Yields items ns) : Covers items ns where
  mem _ hn := h.leading_initial.subset hn
  complete _ hc _ hn := h.eq_of_collect hc ▸ hn

theorem Yields.append {xs ys : List Item} (hx : Yields xs ns) (hy : Yields ys ms) :
    Yields (xs ++ ys) (ns ++ ms) := by
  induction xs generalizing ns with
  | nil =>
      obtain rfl : ns = [] := hx
      exact hy
  | cons item xs ih =>
      cases item with
      | error e => trivial
      | ok n =>
          obtain ⟨ks, rfl, hx⟩ := hx
          exact ⟨ks ++ ms, rfl, ih hx⟩

theorem Yields.append_errors (h : Yields items ns) (errors : List Error) :
    Yields (items ++ errors.map .error) ns := by
  have herrors : Yields (errors.map .error) [] := by cases errors <;> simp [Yields]
  simpa using h.append herrors

theorem Yields.flatMap {f : Node → List Item} {g : Node → List Node} (h : Yields items ns)
    (hf : ∀ n ∈ ns, Yields (f n) (g n)) :
    Yields (items.flatMap fun | .error e => [.error e] | .ok n => f n) (ns.flatMap g) := by
  induction items generalizing ns with
  | nil =>
      obtain rfl : ns = [] := h
      rfl
  | cons item items ih =>
      cases item with
      | error e => trivial
      | ok n =>
          obtain ⟨ms, rfl, h⟩ := h
          rw [List.flatMap_cons, List.flatMap_cons]
          exact (hf n (by simp)).append (ih h fun m hm => hf m (List.mem_cons_of_mem _ hm))

theorem Covers.firstItem {first : Option Node} (h : Covers items ns)
    (hf : firstItem items = .ok first) : first.isSome = !ns.isEmpty := by
  cases items with
  | nil =>
      cases hf
      cases ns with
      | nil => rfl
      | cons n ns => simpa using h.complete [] rfl n (by simp)
  | cons item items =>
      cases item with
      | error e => cases hf
      | ok n =>
          cases hf
          have hn := h.mem n (by simp [leading])
          cases ns with
          | nil => simp at hn
          | cons m ns => rfl

theorem Yields.firstItem {first : Option Node} (h : Yields items ns)
    (hf : firstItem items = .ok first) : first = ns.head? := by
  cases items with
  | nil =>
      obtain rfl : ns = [] := h
      cases hf
      rfl
  | cons item items =>
      cases item with
      | error e => cases hf
      | ok n =>
          obtain ⟨ms, rfl, -⟩ := h
          cases hf
          rfl

theorem anyItem_true {p : Node → Bool} (h : anyItem p items = .ok true) :
    ∃ n ∈ leading items, p n = true := by
  induction items with
  | nil => cases h
  | cons item items ih =>
      cases item with
      | error e => cases h
      | ok n =>
          rw [anyItem] at h
          split at h
          · exact ⟨n, by simp [leading], by assumption⟩
          · obtain ⟨m, hm, hp⟩ := ih h
            exact ⟨m, by simp [leading, hm], hp⟩

theorem anyItem_false {p : Node → Bool} (h : anyItem p items = .ok false) :
    ∃ ms, collect items = .ok ms ∧ ∀ n ∈ ms, p n = false := by
  induction items with
  | nil => exact ⟨[], rfl, by simp⟩
  | cons item items ih =>
      cases item with
      | error e => cases h
      | ok n =>
          rw [anyItem] at h
          split at h
          · cases h
          · rename_i hn
            obtain ⟨ms, hms, hp⟩ := ih h
            refine ⟨n :: ms, by simp [collect, hms, Except.map], ?_⟩
            intro m hm
            rcases List.mem_cons.mp hm with rfl | hm
            · simpa using hn
            · exact hp m hm

theorem Covers.anyItem {p : Node → Bool} {b : Bool} (h : Covers items ns)
    (hb : anyItem p items = .ok b) : b = ns.any p := by
  cases b with
  | true =>
      obtain ⟨n, hn, hp⟩ := anyItem_true hb
      exact (List.any_eq_true.mpr ⟨n, h.mem n hn, hp⟩).symm
  | false =>
      obtain ⟨ms, hms, hp⟩ := anyItem_false hb
      refine (List.any_eq_false.mpr fun n hn => ?_).symm
      simpa using hp n (h.complete ms hms n hn)

/-! ## Enumerations -/

/-- The enumeration stands for the nodes `ns`, and its flags tell the truth. -/
structure Enumeration.Lists (F : Forest) (en : Enumeration) (ns : List Node) : Prop where
  ascending : F.Ascending ns
  has : ∀ n ∈ ns, F.Has n
  covers : Covers en.items ns
  sorted : en.sorted = true → Yields en.items ns
  reverse : en.reverse = true → F.Descending (leading en.items)
  peers : en.sorted = true → en.peer = true → F.Peers ns
  size : en.sorted = true → ∀ k, en.size = .known k → k = ns.length

namespace Enumeration.Lists

theorem ofOption (W : F.WellFormed) {n : Option Node} (h : ∀ m ∈ n, F.Has m) :
    (Enumeration.ofOption n).Lists F n.toList where
  ascending := Forest.ascending_toList F n
  has m hm := h m (Option.mem_toList.mp hm)
  covers := (yields_map_ok _).covers
  sorted _ := yields_map_ok _
  reverse _ := by
    rw [Enumeration.ofOption, leading_map_ok, Forest.descending_iff_ascending_reverse]
    cases n <;> simp
  peers _ _ := W.peers_of_length_le_one (by cases n <;> simp)
  size _ k hk := by
    cases hk
    rfl

theorem ofNodes {reverse : Bool} (hns : F.Ascending ns) (hhas : ∀ n ∈ ns, F.Has n)
    (hreverse : reverse = true → ns.length < 2) :
    (Enumeration.ofNodes ns true reverse).Lists F ns where
  ascending := hns
  has := hhas
  covers := (yields_map_ok _).covers
  sorted _ := yields_map_ok _
  reverse h := by
    rw [Enumeration.ofNodes, leading_map_ok, Forest.descending_iff_ascending_reverse]
    have hlt := hreverse h
    match ns, hlt with
    | [], _ => simp
    | [n], _ => simp
  peers _ h := by cases h
  size _ k hk := by
    cases hk
    rfl

theorem nodes_eq (h : en.Lists F ns) (hs : en.sorted = true) (hms : en.nodes = .ok ms) :
    ms = ns :=
  (h.sorted hs).eq_of_collect hms

theorem mem_iff (h : en.Lists F ns) (hms : en.nodes = .ok ms) (n : Node) : n ∈ ms ↔ n ∈ ns := by
  constructor
  · intro hn
    exact h.covers.mem n (leading_of_collect hms ▸ hn)
  · exact h.covers.complete ms hms n

theorem ofEnumeration (h : en.Lists F ns) {x : Extent} (hx : Extent.ofEnumeration en = .ok x) :
    x.enumerate.Lists F ns := by
  obtain ⟨ms, hms, rfl⟩ := map_eq_ok.mp hx
  have hmem := h.mem_iff hms
  have hsmall : ms.length < 2 → ms = ns := by
    intro hlt
    apply Forest.Ascending.eq_of_mem_iff _ h.ascending hmem
    match ms, hlt with
    | [], _ => simp
    | [m], _ => simp
  have hsorted : (en.sorted || decide (ms.length < 2)) = true → ms = ns := by
    intro hs
    rcases (Bool.or_eq_true _ _).mp hs with hs | ht
    · exact h.nodes_eq hs hms
    · exact hsmall (of_decide_eq_true ht)
  refine
    { ascending := h.ascending
      has := h.has
      covers := ?_
      sorted := fun hs => ?_
      reverse := fun hr => ?_
      peers := fun _ hp => by cases hp
      size := fun hs k hk => ?_ }
  · refine ⟨fun n hn => ?_, fun ks hks n hn => ?_⟩
    · rw [Extent.enumerate, Enumeration.ofNodes, leading_map_ok] at hn
      exact (hmem n).mp hn
    · rw [Extent.enumerate, Enumeration.ofNodes, collect_map_ok] at hks
      cases hks
      exact (hmem n).mpr hn
  · rw [Extent.enumerate, Enumeration.ofNodes, hsorted hs]
    exact yields_map_ok ns
  · rw [Extent.enumerate, Enumeration.ofNodes, leading_map_ok]
    rcases (Bool.or_eq_true _ _).mp hr with hr | ht
    · exact leading_of_collect hms ▸ h.reverse hr
    · rw [Forest.descending_iff_ascending_reverse]
      match ms, of_decide_eq_true ht with
      | [], _ => simp
      | [m], _ => simp
  · cases hk
    exact congrArg List.length (hsorted hs)

theorem nodes_of_enumerate {e : Extent} : e.enumerate.nodes = .ok e.nodes := collect_map_ok _

theorem sort (W : F.WellFormed) {e : Extent} (h : e.enumerate.Lists F ns) :
    (e.sort F).nodes = ns ∧ (e.sort F).sorted = true ∧
      ((e.sort F).reverse = true → ns.length < 2) := by
  have hmem := h.mem_iff nodes_of_enumerate
  have hreverse : e.reverse = true → F.Ascending e.nodes.reverse := by
    intro hr
    have hdesc := h.reverse hr
    rw [Extent.enumerate, Enumeration.ofNodes, leading_map_ok,
      Forest.descending_iff_ascending_reverse] at hdesc
    exact hdesc
  unfold Extent.sort
  split
  · rename_i hs
    have hnodes : e.nodes = ns := h.nodes_eq hs nodes_of_enumerate
    refine ⟨hnodes, hs, fun hr => ?_⟩
    have hdesc := Forest.descending_iff_ascending_reverse.mpr (hreverse hr)
    rw [hnodes] at hdesc
    match ns, h.ascending, hdesc with
    | [], _, _ => simp
    | [n], _, _ => simp
    | n :: m :: rest, hasc, hdesc =>
        exact absurd ((Forest.ascending_cons.mp hasc).1 m (by simp))
          ((List.pairwise_cons.mp hdesc).1 m (by simp)).asymm
  · have hnodes : (if e.reverse = true then e.nodes.reverse else F.inOrder e.nodes) = ns := by
      split
      · exact (hreverse (by assumption)).eq_of_mem_iff h.ascending fun n =>
          List.mem_reverse.trans (hmem n)
      · refine (Forest.ascending_inOrder F _).eq_of_mem_iff h.ascending fun n => ?_
        rw [W.mem_inOrder fun m hm => h.has m ((hmem m).mp hm), hmem]
    refine ⟨hnodes, rfl, fun ht => ?_⟩
    rw [← hnodes]
    exact of_decide_eq_true ht

theorem enumerate_sort (W : F.WellFormed) {e : Extent} (h : e.enumerate.Lists F ns) :
    (e.sort F).enumerate.Lists F ns ∧ (e.sort F).enumerate.sorted = true := by
  obtain ⟨hnodes, hsorted, hreverse⟩ := h.sort W
  unfold Extent.enumerate
  rw [hnodes, hsorted]
  exact ⟨ofNodes h.ascending h.has hreverse, rfl⟩

theorem inDocumentOrder (W : F.WellFormed) (h : en.Lists F ns) {en' : Enumeration}
    (he : en.inDocumentOrder F = .ok en') : en'.Lists F ns ∧ en'.sorted = true := by
  unfold Enumeration.inDocumentOrder at he
  split at he
  · cases he
    exact ⟨h, by assumption⟩
  · obtain ⟨x, hx, rfl⟩ := map_eq_ok.mp he
    exact (h.ofEnumeration hx).enumerate_sort W

theorem earliest?_eq_head? (hns : F.Ascending ns) (hmem : ∀ n, n ∈ ms ↔ n ∈ ns) :
    F.earliest? ms = ns.head? := by
  cases hn : F.earliest? ms with
  | none =>
      rw [Forest.earliest?_eq_none] at hn
      subst hn
      cases ns with
      | nil => rfl
      | cons n ns => simpa using hmem n
  | some n =>
      have hn' := (hmem n).mp (Forest.mem_of_earliest? hn)
      cases ns with
      | nil => simp at hn'
      | cons m ns =>
          have hmn := Forest.not_before_earliest? hn ((hmem m).mpr (by simp))
          rcases List.mem_cons.mp hn' with rfl | hn'
          · rfl
          · exact absurd ((Forest.ascending_cons.mp hns).1 n hn') hmn

theorem first? (h : en.Lists F ns) {first : Option Node} (hf : en.first? F = .ok first) :
    first = ns.head? := by
  unfold Enumeration.first? at hf
  split at hf
  · rename_i hs
    exact (h.sorted hs).firstItem hf
  · obtain ⟨ms, hms, rfl⟩ := map_eq_ok.mp hf
    exact earliest?_eq_head? h.ascending (h.mem_iff hms)

theorem first?_extent {e : Extent} (h : e.enumerate.Lists F ns) : e.first? F = ns.head? := by
  have hmem := h.mem_iff nodes_of_enumerate
  unfold Extent.first?
  split
  · rw [h.nodes_eq (by assumption) nodes_of_enumerate]
  · split
    · have hdesc := h.reverse (by assumption)
      rw [Extent.enumerate, Enumeration.ofNodes, leading_map_ok,
        Forest.descending_iff_ascending_reverse] at hdesc
      rw [← hdesc.eq_of_mem_iff h.ascending fun n => List.mem_reverse.trans (hmem n),
        List.head?_reverse]
    · exact earliest?_eq_head? h.ascending hmem

end Enumeration.Lists

end XPath
