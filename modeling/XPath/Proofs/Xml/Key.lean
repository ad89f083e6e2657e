import Mathlib.Data.List.Pairwise
import XPath.Proofs.Xml.Place

/-!
# Keys of places

The offsets at a node of the tree are consecutive (`Place.map_offset_placesAt`), and of two words that
pack a rank with an offset the one with the larger rank is the larger, whatever the offsets
(`Place.toNat_pack`). So a walk goes through ever larger keys if ranks are in document order
(`Denotes.ascending_walk`).
-/

namespace XPath.Xml.Place

open Forest

/-- What a parser promises: documents have ids of their own, the nodes of a tree are ranked in
document order, and an element has fewer declarations and attributes than half a word can count. -/
structure Ranked (F : Forest) (rank : Node → UInt32) : Prop where
  ids : (F.documents.toList.map (·.id)).Nodup
  rank_lt : ∀ m n, F.Has m → F.Has n → F.isTreeNode m = true → F.isTreeNode n = true →
    m.document = n.document → m.number < n.number → rank m < rank n
  length_lt : ∀ n, (F.namespaces n).length + (F.attributes n).length < 2 ^ 32

variable {F : Forest} {rank : Node → UInt32} {m n : Node} {x y : Place}

/-! ## Packed words -/

theorem toNat_pack (r : UInt32) {i : Nat} (h : i < 2 ^ 32) :
    (pack r i).toNat = r.toNat * 2 ^ 32 + i := by
  have hr := r.toNat_lt
  have hshift : (r.toUInt64 <<< 32).toNat = r.toNat <<< 32 := by
    rw [UInt64.toNat_shiftLeft, UInt32.toNat_toUInt64]
    have hwidth : UInt64.toNat 32 % 64 = 32 := rfl
    rw [hwidth, Nat.shiftLeft_eq]
    exact Nat.mod_eq_of_lt (by omega)
  have hoffset : (UInt64.ofNat i).toNat = i := by
    rw [UInt64.toNat_ofNat']
    exact Nat.mod_eq_of_lt (by omega)
  rw [pack, UInt64.toNat_or, hshift, hoffset, ← Nat.shiftLeft_add_eq_or_of_lt h, Nat.shiftLeft_eq]

theorem map_offset_placesAt (P : F.Delivered) (n : Node) : (placesAt F n).map (offset F) =
    List.range (1 + (F.namespaces n).length + (F.attributes n).length) := by
  rw [placesAt, namespaces_ofNode P, attributes_ofNode P, List.map_cons, List.map_append,
    List.map_map, List.map_map, List.range_add, List.range_add]
  rfl

theorem Ranked.offset_lt (R : Ranked F rank) (h : (x.resolve? F).isSome = true) :
    x.offset F < 2 ^ 32 := by
  obtain ⟨n, slot⟩ := x
  have hlength := R.length_lt n
  cases slot with
  | node => exact Nat.two_pow_pos 32
  | namespaceNode i =>
      have hi : i < (F.namespaces n).length := by simpa [resolve?] using h
      exact show 1 + i < 2 ^ 32 by omega
  | attributeNode i =>
      have hi : i < (F.attributes n).length := by simpa [resolve?] using h
      exact show 1 + (F.namespaces n).length + i < 2 ^ 32 by omega

theorem Ranked.sequence_eq (R : Ranked F rank) (h : (x.resolve? F).isSome = true) :
    (x.orderKey F rank).sequence = (rank x.node).toNat * 2 ^ 32 + x.offset F :=
  toNat_pack _ (R.offset_lt h)

theorem before_of_document_eq (hd : x.node.document = y.node.document)
    (h : (x.orderKey F rank).sequence < (y.orderKey F rank).sequence) :
    (x.orderKey F rank).before (y.orderKey F rank) = true := by
  have hdoc : (x.orderKey F rank).document = (y.orderKey F rank).document := by
    rw [orderKey, orderKey, Forest.orderKey, Forest.orderKey, document?_congr hd]
  have hlt := OrderKey.compare_eq_lt.mpr (Or.inr ⟨hdoc, h⟩)
  simp [OrderKey.before, hlt]

section

variable (P : F.Delivered) (R : Ranked F rank)

include P R

theorem ascending_placesAt (n : Node) : (placesAt F n).Pairwise fun a b =>
    (a.orderKey F rank).before (b.orderKey F rank) = true := by
  have hoffsets : (placesAt F n).Pairwise fun a b => a.offset F < b.offset F := by
    rw [← List.pairwise_map, map_offset_placesAt P]
    exact List.pairwise_lt_range
  refine hoffsets.imp_of_mem fun {a b} ha hb hab => ?_
  obtain ⟨hnode, hresolves⟩ := (mem_placesAt P).mp ha
  obtain ⟨hnode', hresolves'⟩ := (mem_placesAt P).mp hb
  refine before_of_document_eq (by rw [hnode, hnode']) ?_
  rw [R.sequence_eq hresolves, R.sequence_eq hresolves', hnode, hnode']
  omega

theorem ascending_walk_ofNode (hn : F.Has n) (htree : F.isTreeNode n = true) :
    ((ofNode n).walk F).Pairwise fun a b =>
      (a.orderKey F rank).before (b.orderKey F rank) = true := by
  have L := P.numbered.linked
  rw [walk_ofNode, List.pairwise_flatMap]
  refine ⟨fun t _ => ascending_placesAt P R t, ?_⟩
  refine (P.numbered.ascending_subtree n).imp_of_mem fun {t u} ht hu htu a ha b hb => ?_
  have hspec {t : Node} (ht : t ∈ F.subtree n) :
      F.Has t ∧ F.isTreeNode t = true ∧ t.document = n.document :=
    ⟨has_of_below hn (L.below_of_mem_subtree ht), L.isTreeNode_of_mem_subtree htree ht,
      L.document_of_below (L.below_of_mem_subtree ht)⟩
  obtain ⟨rfl, hresolves⟩ := (mem_placesAt P).mp ha
  obtain ⟨rfl, hresolves'⟩ := (mem_placesAt P).mp hb
  obtain ⟨hhas, htree, hd⟩ := hspec ht
  obtain ⟨hhas', htree', hd'⟩ := hspec hu
  have hdoc := hd.trans hd'.symm
  have hrank := R.rank_lt _ _ hhas hhas' htree htree' hdoc ((before_iff_number_lt hdoc).mp htu)
  -- the offsets do not count where the ranks differ
  have hlt := UInt32.lt_iff_toNat_lt.mp hrank
  have hoffset := R.offset_lt hresolves
  refine before_of_document_eq hdoc ?_
  rw [R.sequence_eq hresolves, R.sequence_eq hresolves']
  omega

theorem Denotes.ascending_walk (h : Denotes F x) : (x.walk F).Pairwise fun a b =>
    (a.orderKey F rank).before (b.orderKey F rank) = true := by
  by_cases hslot : x.slot = .node
  · have hx : x = ofNode x.node := by
      obtain ⟨n, slot⟩ := x
      exact congrArg (Place.mk n) hslot
    rw [hx]
    exact ascending_walk_ofNode P R h.has h.isTreeNode
  · rw [walk_of_slot hslot]
    exact List.pairwise_singleton _ _

end

end XPath.Xml.Place
