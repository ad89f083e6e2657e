import XPath.Proofs.Tree.Links
import XPath.Proofs.Tree.Order

/-!
# Numbers in the order of a tree

In a numbered forest what is numbered between a node and its parent is below the parent. So the nodes
below a node are an interval (`Forest.Numbered.mem_ancestors_of_between`), and what lies below one of
two siblings comes before what lies below the other (`Forest.Numbered.number_lt_of_below`).
-/

namespace XPath.Forest

/-- Links that agree, in lists that ascend, and numbers that keep what is below a node together. -/
structure Numbered (F : Forest) : Prop where
  linked : F.Linked
  children_sorted : ∀ n, (F.record n).children.Pairwise (· < ·)
  attributes_sorted : ∀ n, (F.record n).attributes.Pairwise (· < ·)
  namespaces_sorted : ∀ n, (F.record n).namespaces.Pairwise (· < ·)
  /-- What is numbered between a node and its parent is below the parent. -/
  between : ∀ n p m, F.parent? n = some p → m.document = n.document → p.number < m.number →
    m.number < n.number → p ∈ F.ancestors m

variable {F : Forest} {a b m n p x y : Node} {ns : List Node}

theorem before_of_number_lt (hd : m.document = n.document) (hlt : m.number < n.number) :
    F.Before m n := by
  rw [before_iff]
  right
  simp [orderKey, document?_congr hd, hlt]

theorem before_iff_number_lt (hd : m.document = n.document) :
    F.Before m n ↔ m.number < n.number := by
  rw [before_iff]
  simp [orderKey, document?_congr hd]

theorem eq_of_number_eq (hd : m.document = n.document) (h : m.number = n.number) : m = n := by
  cases m
  cases n
  simp_all

theorem ascending_of_numbers {is : List Nat} (h : is.Pairwise (· < ·)) (n : Node) :
    F.Ascending (is.map fun i => { n with number := i }) := by
  unfold Ascending
  rw [List.pairwise_map]
  refine h.imp ?_
  intro i j hlt
  exact before_of_number_lt rfl hlt

namespace Numbered

variable (N : F.Numbered)

include N

theorem ascending_children (n : Node) : F.Ascending (F.children n) :=
  ascending_of_numbers (N.children_sorted n) n

theorem ascending_attributes (n : Node) : F.Ascending (F.attributes n) :=
  ascending_of_numbers (N.attributes_sorted n) n

theorem ascending_namespaces (n : Node) : F.Ascending (F.namespaces n) :=
  ascending_of_numbers (N.namespaces_sorted n) n

theorem mem_ancestors_of_between (h : a ∈ F.ancestors n) (hd : m.document = n.document)
    (ham : a.number < m.number) (hmn : m.number < n.number) : a ∈ F.ancestors m := by
  induction n using N.linked.induction with
  | top n hp => simp [ancestors_of_no_parent hp] at h
  | below n p hp ih =>
      have hdp := document_parent hp
      rcases Nat.lt_trichotomy m.number p.number with hlt | heq | hgt
      · rcases (N.linked.mem_ancestors hp).mp h with rfl | h
        · omega
        · exact ih h (hd.trans hdp.symm) hlt
      · have hmp : m = p := eq_of_number_eq (hd.trans hdp.symm) heq
        subst hmp
        exact ((N.linked.mem_ancestors hp).mp h).resolve_left (by rintro rfl; omega)
      · have hpm := N.between n p m hp hd hgt hmn
        rcases (N.linked.mem_ancestors hp).mp h with rfl | h
        · exact hpm
        · exact N.linked.mem_ancestors_trans h hpm

/-- Of two nodes of which the first is no ancestor of the second, all that is below the first comes
before all that is below the second. -/
theorem number_lt_of_below (hd : a.document = b.document) (hlt : a.number < b.number)
    (hab : a ∉ F.ancestors b) (hx : F.Below a x) (hy : F.Below b y) : x.number < y.number := by
  have hyn := N.linked.number_le_of_below hy
  rcases hx with rfl | hx
  · omega
  · by_contra hge
    have hxd := (N.linked.lt_of_mem_ancestors hx).2
    rcases Nat.lt_or_ge b.number x.number with hbx | hxb
    · exact hab (N.mem_ancestors_of_between hx (hd.symm.trans hxd) hlt hbx)
    · have hbx : b = x := eq_of_number_eq (hd.symm.trans hxd) (by omega)
      exact hab (hbx ▸ hx)

theorem ascending_subtreeTo (depth : Nat) (n : Node) : F.Ascending (F.subtreeTo depth n) := by
  induction depth generalizing n with
  | zero => exact ascending_singleton F n
  | succ depth ih =>
      rw [subtreeTo, ascending_cons]
      have hparent := fun m (hm : m ∈ F.children n) => N.linked.parent_of_mem_children hm
      constructor
      · intro m hm
        obtain ⟨c, hc, hm⟩ := List.mem_flatMap.mp hm
        have hcm := N.linked.below_of_mem_subtreeTo hm
        have hlt := N.linked.parent_lt c n (hparent c hc)
        have hle := N.linked.number_le_of_below hcm
        refine before_of_number_lt ?_ (by omega)
        exact (document_parent (hparent c hc)).trans (N.linked.document_of_below hcm).symm
      · unfold Ascending
        rw [List.pairwise_flatMap]
        refine ⟨fun c _ => ih c, (N.ascending_children n).imp_of_mem ?_⟩
        intro c e hc he hce x hx y hy
        have hcx := N.linked.below_of_mem_subtreeTo hx
        have hey := N.linked.below_of_mem_subtreeTo hy
        have hd : c.document = e.document :=
          (document_parent (hparent c hc)).symm.trans (document_parent (hparent e he))
        refine before_of_number_lt ?_ ?_
        · rw [N.linked.document_of_below hcx, N.linked.document_of_below hey, hd]
        · exact N.number_lt_of_below hd ((before_iff_number_lt hd).mp hce)
            (N.linked.not_mem_ancestors_of_sibling (hparent c hc) (hparent e he)) hcx hey

theorem ascending_subtree (n : Node) : F.Ascending (F.subtree n) := N.ascending_subtreeTo _ n

end Numbered

end XPath.Forest
