import Mathlib.Algebra.Group.Nat.Defs
import Mathlib.Data.List.Perm.Subperm
import XPath.Proofs.Tree.Numbered

/-!
# Well-formed forests

What every tree of nodes promises: links that agree with each other, numbers in document order,
and attribute names that differ on one element.
-/

namespace XPath.Forest

structure WellFormed (F : Forest) : Prop where
  /-- Documents have different ids. -/
  ids : ∀ m n, F.Has m → F.Has n → (F.orderKey m).document = (F.orderKey n).document →
    m.document = n.document
  /-- Doubles count the nodes exactly; no memory holds as many as `2 ^ 53`. -/
  count_lt : F.allNodes.length < 2 ^ 53
  parent_lt : ∀ n p, F.parent? n = some p → p.number < n.number
  isTreeNode_parent : ∀ n p, F.parent? n = some p → F.isTreeNode p = true
  mem_children : ∀ n m, m ∈ F.children n ↔ F.parent? m = some n ∧ F.isTreeNode m = true
  mem_attributes : ∀ n m, m ∈ F.attributes n ↔ F.parent? m = some n ∧ F.type m = .attributeNode
  mem_namespaces : ∀ n m, m ∈ F.namespaces n ↔ F.parent? m = some n ∧ F.type m = .namespaceNode
  children_sorted : ∀ n, (F.record n).children.Pairwise (· < ·)
  attributes_sorted : ∀ n, (F.record n).attributes.Pairwise (· < ·)
  namespaces_sorted : ∀ n, (F.record n).namespaces.Pairwise (· < ·)
  /-- What is numbered between a node and its parent is below the parent. -/
  between : ∀ n p m, F.parent? n = some p → m.document = n.document → p.number < m.number →
    m.number < n.number → p ∈ F.ancestors m
  /-- No element has two attributes of one name. -/
  attribute_names : ∀ n, (F.attributes n).Pairwise fun a b =>
    (F.name? a).map QName.expanded ≠ (F.name? b).map QName.expanded

variable {F : Forest} {a k m n p : Node} {ns : List Node}

theorem has_of_elementById {id : String} (h : F.elementById? n id = some m) : F.Has m := by
  have helement := List.find?_some h
  refine has_of_type fun htype => ?_
  simp [htype] at helement

theorem Has.mem_allNodes (h : F.Has n) : n ∈ F.allNodes := by
  unfold Has size document? at h
  cases hd : F.documents[n.document]? with
  | none => simp [hd] at h
  | some d =>
      have hlt : n.number < d.nodes.size := by simpa [hd] using h
      refine List.mem_flatMap.mpr ⟨(d, n.document), ?_, ?_⟩
      · simpa [List.mem_zipIdx_iff_getElem?] using hd
      · exact List.mem_map.mpr ⟨n.number, List.mem_range.mpr hlt, rfl⟩

theorem nodup_of_numbers {is : List Nat} (h : is.Pairwise (· < ·)) (n : Node) :
    (is.map fun i => { n with number := i }).Nodup := by
  rw [List.Nodup, List.pairwise_map]
  exact h.imp fun hlt heq => Nat.ne_of_lt hlt (congrArg Node.number heq)

namespace WellFormed

variable (W : F.WellFormed)

include W

theorem linked : F.Linked where
  parent_lt := W.parent_lt
  isTreeNode_parent := W.isTreeNode_parent
  mem_children := W.mem_children
  mem_attributes := W.mem_attributes
  mem_namespaces := W.mem_namespaces
  children_nodup n := nodup_of_numbers (W.children_sorted n) n
  attributes_nodup n := nodup_of_numbers (W.attributes_sorted n) n
  namespaces_nodup n := nodup_of_numbers (W.namespaces_sorted n) n

theorem numbered : F.Numbered where
  linked := W.linked
  children_sorted := W.children_sorted
  attributes_sorted := W.attributes_sorted
  namespaces_sorted := W.namespaces_sorted
  between := W.between

theorem eq_of_orderKey_eq (hm : F.Has m) (hn : F.Has n) (h : F.orderKey m = F.orderKey n) :
    m = n := by
  have hd := W.ids m n hm hn (congrArg OrderKey.document h)
  have hnum : m.number = n.number := congrArg OrderKey.sequence h
  cases m
  cases n
  simp_all

theorem before_or_eq_or_before (hm : F.Has m) (hn : F.Has n) :
    F.Before m n ∨ m = n ∨ F.Before n m := by
  rcases before_trichotomy F m n with h | h | h
  · exact Or.inl h
  · exact Or.inr (Or.inl (W.eq_of_orderKey_eq hm hn h))
  · exact Or.inr (Or.inr h)

/-- A list in which no node comes twice is shorter than doubles can count. -/
theorem length_lt (hnodup : ns.Nodup) (h : ∀ n ∈ ns, F.Has n) : ns.length < 2 ^ 53 := by
  have hle := (hnodup.subperm fun n hn => (h n hn).mem_allNodes).length_le
  exact Nat.lt_of_le_of_lt hle W.count_lt

/-! ## Nodes put in order -/

theorem mem_inOrder (h : ∀ n ∈ ns, F.Has n) : n ∈ F.inOrder ns ↔ n ∈ ns := by
  constructor
  · exact mem_of_mem_inOrder
  · intro hn
    obtain ⟨k, hk, heq⟩ := exists_mem_inOrder F hn
    have hkn := W.eq_of_orderKey_eq (h k (mem_of_mem_inOrder hk)) (h n hn) heq
    exact hkn ▸ hk

end WellFormed

end XPath.Forest
