import Mathlib.Data.List.Nodup
import Mathlib.Tactic.MkIffOfInductiveProp
import XPath.Proofs.Tree.WellFormed
import XPath.Tree.Builder

/-!
# Checking a forest

Whether a forest is well formed is decided node by node (`Forest.wellFormed_of_contract`): a number
that no document holds has no links.
-/

namespace XPath.Forest

variable {F : Forest} {m n p : Node}

/-- The links of a node agree with those of the nodes that they lead to. -/
@[mk_iff]
structure Contract (F : Forest) (n : Node) : Prop where
  parent : ∀ p ∈ (F.parent? n).toList, p.number < n.number ∧ F.isTreeNode p = true ∧
    ∀ m ∈ F.allNodes, m.document = n.document → p.number < m.number → m.number < n.number →
      p ∈ F.ancestors m
  linked : ∀ p ∈ (F.parent? n).toList, (F.isTreeNode n = true → n ∈ F.children p) ∧
    (F.type n = .attributeNode → n ∈ F.attributes p) ∧
    (F.type n = .namespaceNode → n ∈ F.namespaces p)
  children : ∀ m ∈ F.children n, F.parent? m = some n ∧ F.isTreeNode m = true
  attributes : ∀ m ∈ F.attributes n, F.parent? m = some n ∧ F.type m = .attributeNode
  namespaces : ∀ m ∈ F.namespaces n, F.parent? m = some n ∧ F.type m = .namespaceNode
  sorted : (F.record n).children.Pairwise (· < ·) ∧ (F.record n).attributes.Pairwise (· < ·) ∧
    (F.record n).namespaces.Pairwise (· < ·)
  names : (F.attributes n).Pairwise fun a b =>
    (F.name? a).map QName.expanded ≠ (F.name? b).map QName.expanded

set_option synthInstance.maxSize 256 in
instance (F : Forest) (n : Node) : Decidable (F.Contract n) :=
  decidable_of_iff' _ (contract_iff F n)

/-- A number that no document holds keeps the contract. -/
theorem contract_of_not_has (h : ¬F.Has n) : F.Contract n := by
  have hrecord := record_of_not_has h
  have hparent : F.parent? n = none := by rw [parent?, hrecord]; rfl
  have hchildren : F.children n = [] := by rw [Forest.children, hrecord]; rfl
  have hattributes : F.attributes n = [] := by rw [Forest.attributes, hrecord]; rfl
  have hnamespaces : F.namespaces n = [] := by rw [Forest.namespaces, hrecord]; rfl
  constructor
  · rw [hparent]
    rintro p ⟨⟩
  · rw [hparent]
    rintro p ⟨⟩
  · simp [hchildren]
  · simp [hattributes]
  · simp [hnamespaces]
  · rw [hrecord]
    exact ⟨.nil, .nil, .nil⟩
  · rw [hattributes]
    exact .nil

theorem document_eq_of_ids (hids : (F.documents.toList.map (·.id)).Nodup) (hm : F.Has m)
    (hn : F.Has n) (hid : (F.orderKey m).document = (F.orderKey n).document) :
    m.document = n.document := by
  unfold Has size at hm hn
  unfold orderKey at hid
  cases hd : F.document? m with
  | none => simp [hd] at hm
  | some d =>
      cases hd' : F.document? n with
      | none => simp [hd'] at hn
      | some d' =>
          rw [hd, hd'] at hid
          have hlookup : (F.documents.toList.map (·.id))[m.document]? =
              (F.documents.toList.map (·.id))[n.document]? := by
            unfold document? at hd hd'
            simp [hd, hd', show d.id = d'.id from hid]
          have hlt : m.document < (F.documents.toList.map (·.id)).length := by
            have hsome := (Array.getElem?_eq_some_iff.mp hd).1
            simpa using hsome
          exact (List.getElem?_inj hlt hids).mp hlookup

theorem wellFormed_of_contract (hids : (F.documents.toList.map (·.id)).Nodup)
    (hcount : F.allNodes.length < 2 ^ 53) (h : ∀ n ∈ F.allNodes, F.Contract n) :
    F.WellFormed := by
  have hall (n : Node) : F.Contract n := by
    by_cases hn : F.Has n
    · exact h n hn.mem_allNodes
    · exact contract_of_not_has hn
  refine
    { ids := fun m n hm hn hid => ?_
      count_lt := hcount
      parent_lt := fun n p hp => ((hall n).parent p (Option.mem_toList.mpr hp)).1
      isTreeNode_parent := fun n p hp => ((hall n).parent p (Option.mem_toList.mpr hp)).2.1
      mem_children := fun n m =>
        ⟨(hall n).children m, fun hm => ((hall m).linked n (Option.mem_toList.mpr hm.1)).1 hm.2⟩
      mem_attributes := fun n m =>
        ⟨(hall n).attributes m, fun hm => ((hall m).linked n (Option.mem_toList.mpr hm.1)).2.1 hm.2⟩
      mem_namespaces := fun n m =>
        ⟨(hall n).namespaces m, fun hm => ((hall m).linked n (Option.mem_toList.mpr hm.1)).2.2 hm.2⟩
      children_sorted := fun n => (hall n).sorted.1
      attributes_sorted := fun n => (hall n).sorted.2.1
      namespaces_sorted := fun n => (hall n).sorted.2.2
      between := fun n p m hp hd hpm hmn => ?_
      attribute_names := fun n => (hall n).names }
  · exact document_eq_of_ids hids hm hn hid
  · have hm : F.Has m := by
      have hn : n.number < F.size n := has_of_parent hp
      have hlt : m.number < F.size n := Nat.lt_trans hmn hn
      rwa [← size_congr hd] at hlt
    exact ((hall n).parent p (Option.mem_toList.mpr hp)).2.2 m hm.mem_allNodes hd hpm hmn

/-! ## One element in another -/

/-- The document `<r><x/></r>`. -/
def nested : Forest :=
  ⟨#[.ofEvents 1 [.element ⟨none, none, "r"⟩, .element ⟨none, none, "x"⟩, .close, .close]]⟩

theorem wellFormed_nested : nested.WellFormed :=
  wellFormed_of_contract (by decide) (by decide) (by decide)

/-- The document `<r><a k="v"/><b/></r>`. -/
def attributed : Forest :=
  ⟨#[.ofEvents 1 [.element ⟨none, none, "r"⟩, .element ⟨none, none, "a"⟩,
    .attributeNode ⟨none, none, "k"⟩ "v", .close, .element ⟨none, none, "b"⟩, .close, .close]]⟩

theorem linked_attributed : attributed.Linked :=
  (wellFormed_of_contract (by decide) (by decide) (by decide)).linked

end XPath.Forest
