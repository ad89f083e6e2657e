import Mathlib.Data.List.Perm.Subperm
import XPath.Proofs.Tree.Numbered
import XPath.Proofs.Tree.Partition

/-!
# Walking a tree

A walk visits a node, what is attached to it, and its children in the same way
(`Forest.Linked.walkBy_eq`), so it visits what is below the node, every node once. In a numbered forest
their numbers are an interval (`Forest.Numbered.perm_walkBy`), and the walk goes through it in order if
what is attached to a node is numbered before the children of the node
(`Forest.Numbered.numbers_walkBy`).
-/

namespace XPath.Forest

/-- The node `n` and all that is below it: each tree node is followed by what `own` lists for it. -/
def walkBy (F : Forest) (own : Node → List Node) (n : Node) : List Node :=
  (F.subtree n).flatMap fun t => t :: own t

/-- The namespace nodes and the attributes of a node in the order of their numbers. -/
def attached (F : Forest) (n : Node) : List Node := F.inOrder (F.namespaces n ++ F.attributes n)

/-- `own` lists the namespace nodes and the attributes of every node in document order. -/
structure Attaches (F : Forest) (own : Node → List Node) : Prop where
  mem : ∀ n m, m ∈ own n ↔ m ∈ F.namespaces n ∨ m ∈ F.attributes n
  ascending : ∀ n, F.Ascending (own n)

variable {F : Forest} {own : Node → List Node} {m n : Node}

theorem document_of_mem_links (h : m ∈ F.namespaces n ∨ m ∈ F.attributes n) :
    m.document = n.document := by
  rcases h with h | h
  all_goals
    obtain ⟨i, -, rfl⟩ := List.mem_map.mp h
    rfl

theorem attaches_attached (F : Forest) : F.Attaches F.attached where
  mem n m := by
    have hall (k : Node) : k ∈ F.namespaces n ++ F.attributes n ↔
        k ∈ F.namespaces n ∨ k ∈ F.attributes n := List.mem_append
    rw [← hall]
    refine ⟨mem_of_mem_inOrder, fun hm => ?_⟩
    obtain ⟨k, hk, hkey⟩ := exists_mem_inOrder F hm
    have hd := document_of_mem_links ((hall k).mp (mem_of_mem_inOrder hk))
    have hkm : k = m := eq_of_number_eq (hd.trans (document_of_mem_links ((hall m).mp hm)).symm)
      (congrArg OrderKey.sequence hkey)
    exact hkm ▸ hk
  ascending n := ascending_inOrder F _

/-- Numbers that come down to `first` without a gap are those from `first` on. -/
theorem perm_range' (first : Nat) (is : List Nat) (hnodup : is.Nodup) (hfirst : ∀ i ∈ is, first ≤ i)
    (hclosed : ∀ i ∈ is, ∀ j, first ≤ j → j ≤ i → j ∈ is) :
    is.Perm (List.range' first is.length) := by
  have hlt : ∀ i ∈ is, i < first + is.length := by
    intro i hi
    have hle := hfirst i hi
    have hsub : List.range' first (i - first + 1) ⊆ is := by
      intro j hj
      rw [List.mem_range'_1] at hj
      exact hclosed i hi j hj.1 (by omega)
    have hdistinct : (List.range' first (i - first + 1)).Nodup := List.nodup_range'
    have hlength := (hdistinct.subperm hsub).length_le
    rw [List.length_range'] at hlength
    omega
  refine (hnodup.subperm fun i hi => ?_).perm_of_length_le (by simp)
  rw [List.mem_range'_1]
  exact ⟨hfirst i hi, hlt i hi⟩

namespace Linked

variable (L : F.Linked) (A : F.Attaches own)

include L

theorem walkBy_eq (own : Node → List Node) (n : Node) :
    F.walkBy own n = n :: own n ++ (F.children n).flatMap (F.walkBy own) := by
  rw [walkBy, L.subtree_eq, List.flatMap_cons, descendants, List.flatMap_assoc]
  rfl

include A

theorem parent_of_attached (h : m ∈ own n) : F.parent? m = some n := by
  rcases (A.mem n m).mp h with h | h
  · exact ((L.mem_namespaces n m).mp h).1
  · exact ((L.mem_attributes n m).mp h).1

theorem not_isTreeNode_of_attached (h : m ∈ own n) : F.isTreeNode m ≠ true := by
  rw [Ne, isTreeNode_iff]
  rcases (A.mem n m).mp h with h | h
  · simp [((L.mem_namespaces n m).mp h).2]
  · simp [((L.mem_attributes n m).mp h).2]

theorem mem_attached_of_parent (hp : F.parent? m = some n) (hm : F.isTreeNode m ≠ true) :
    m ∈ own n := by
  rw [A.mem, L.mem_namespaces, L.mem_attributes]
  rw [Ne, isTreeNode_iff] at hm
  by_cases htype : F.type m = .attributeNode
  · exact Or.inr ⟨hp, htype⟩
  · by_cases htype' : F.type m = .namespaceNode
    · exact Or.inl ⟨hp, htype'⟩
    · exact absurd ⟨htype, htype'⟩ hm

theorem mem_walkBy : m ∈ F.walkBy own n ↔ F.Below n m := by
  unfold walkBy
  rw [List.mem_flatMap]
  constructor
  · rintro ⟨t, ht, hm⟩
    refine L.below_trans (L.below_of_mem_subtree ht) ?_
    rcases List.mem_cons.mp hm with rfl | hm
    · exact Below.refl F m
    · exact L.below_of_parent (L.parent_of_attached A hm)
  · intro h
    by_cases htree : F.isTreeNode m = true
    · exact ⟨m, L.mem_subtree.mpr (h.imp id fun hm => ⟨hm, htree⟩), List.mem_cons_self⟩
    · rcases h with rfl | h
      · exact ⟨m, L.mem_subtree.mpr (Or.inl rfl), List.mem_cons_self⟩
      · obtain ⟨p, hp⟩ := exists_parent h
        have hnp : F.Below n p := ((L.mem_ancestors hp).mp h).imp Eq.symm id
        refine ⟨p, L.mem_subtree.mpr (hnp.imp id fun ha => ⟨ha, L.isTreeNode_parent m p hp⟩), ?_⟩
        exact List.mem_cons_of_mem p (L.mem_attached_of_parent A hp htree)

theorem nodup_walkBy (n : Node) : (F.walkBy own n).Nodup := by
  unfold walkBy
  rw [List.nodup_flatMap]
  constructor
  · intro t _
    rw [List.nodup_cons]
    refine ⟨fun ht => ?_, (A.ascending t).nodup⟩
    have hlt := L.parent_lt t t (L.parent_of_attached A ht)
    omega
  · refine (L.nodup_subtree n).imp_of_mem fun {t u} ht hu htu => ?_
    -- an attached node is no tree node but at the top of the walk, which has nothing above it
    have htop {t u : Node} (ht : t ∈ F.subtree n) (hu : u ∈ F.subtree n) : t ∉ own u := by
      intro h
      rcases L.mem_subtree.mp ht with rfl | ⟨-, htree⟩
      · have hlt := L.parent_lt t u (L.parent_of_attached A h)
        have hle := L.number_le_of_below (L.below_of_mem_subtree hu)
        omega
      · exact L.not_isTreeNode_of_attached A h htree
    refine List.disjoint_left.mpr fun x hxt hxu => ?_
    rcases List.mem_cons.mp hxt with rfl | hxt
    · rcases List.mem_cons.mp hxu with rfl | hxu
      · exact htu rfl
      · exact htop ht hu hxu
    · rcases List.mem_cons.mp hxu with rfl | hxu
      · exact htop hu ht hxt
      · have hsame := (L.parent_of_attached A hxt).symm.trans (L.parent_of_attached A hxu)
        exact htu (Option.some.inj hsame)

end Linked

namespace Numbered

variable (N : F.Numbered) (A : F.Attaches own)

include N A

/-- The numbers of a node and of what is below it are an interval, and each is there once. -/
theorem perm_walkBy (n : Node) : ((F.walkBy own n).map (·.number)).Perm
    (List.range' n.number (F.walkBy own n).length) := by
  have hdoc {m : Node} (hm : m ∈ F.walkBy own n) : m.document = n.document :=
    N.linked.document_of_below ((N.linked.mem_walkBy A).mp hm)
  have hperm := perm_range' n.number ((F.walkBy own n).map (·.number)) ?_ ?_ ?_
  · rwa [List.length_map] at hperm
  · refine (N.linked.nodup_walkBy A n).map_on fun m hm k hk hmk => ?_
    exact eq_of_number_eq ((hdoc hm).trans (hdoc hk).symm) hmk
  · intro i hi
    obtain ⟨m, hm, rfl⟩ := List.mem_map.mp hi
    exact N.linked.number_le_of_below ((N.linked.mem_walkBy A).mp hm)
  · intro i hi j hfirst hlast
    obtain ⟨m, hm, rfl⟩ := List.mem_map.mp hi
    refine List.mem_map.mpr ⟨⟨n.document, j⟩, (N.linked.mem_walkBy A).mpr ?_, rfl⟩
    have hbelow := (N.linked.mem_walkBy A).mp hm
    by_cases hj : j = n.number
    · exact Or.inl (by rw [hj])
    · by_cases hj' : j = m.number
      · have hjm : (⟨n.document, j⟩ : Node) = m := eq_of_number_eq (hdoc hm).symm hj'
        rwa [hjm]
      · have hanc : n ∈ F.ancestors m := by
          refine hbelow.resolve_left fun hmn => ?_
          rw [hmn] at hlast
          omega
        have hlt : n.number < j := by omega
        have hlt' : j < m.number := by omega
        exact Or.inr (N.mem_ancestors_of_between hanc (hdoc hm).symm hlt hlt')

theorem ascending_walkBy (hfirst : ∀ n, ∀ m ∈ own n, ∀ c ∈ F.children n, m.number < c.number)
    (n : Node) : F.Ascending (F.walkBy own n) := by
  unfold Ascending walkBy
  rw [List.pairwise_flatMap]
  constructor
  · intro t _
    refine List.pairwise_cons.mpr ⟨fun m hm => ?_, A.ascending t⟩
    have hp := N.linked.parent_of_attached A hm
    exact before_of_number_lt (document_parent hp) (N.linked.parent_lt m t hp)
  · refine (N.ascending_subtree n).imp_of_mem fun {t u} ht hu htu x hx y hy => ?_
    have hbelow {t x : Node} (hx : x ∈ t :: own t) : F.Below t x := by
      rcases List.mem_cons.mp hx with rfl | hx
      · exact Below.refl F x
      · exact N.linked.below_of_parent (N.linked.parent_of_attached A hx)
    have hd : t.document = u.document :=
      (N.linked.document_of_below (N.linked.below_of_mem_subtree ht)).trans
        (N.linked.document_of_below (N.linked.below_of_mem_subtree hu)).symm
    have hlt := (before_iff_number_lt hd).mp htu
    have hxd := N.linked.document_of_below (hbelow hx)
    have hyd := N.linked.document_of_below (hbelow hy)
    refine before_of_number_lt (hxd.trans (hd.trans hyd.symm)) ?_
    by_cases hanc : t ∈ F.ancestors u
    · have hle := N.linked.number_le_of_below (hbelow hy)
      rcases List.mem_cons.mp hx with rfl | hx
      · omega
      · have htree : F.isTreeNode u = true := by
          rcases N.linked.mem_subtree.mp hu with rfl | ⟨-, htree⟩
          · have := N.linked.number_le_of_below (N.linked.below_of_mem_subtree ht)
            omega
          · exact htree
        obtain ⟨c, hc, hcu⟩ := N.linked.exists_child hanc htree
        have hxc := hfirst t x hx c hc
        have hcle := N.linked.number_le_of_below hcu
        omega
    · exact N.number_lt_of_below hd hlt hanc (hbelow hx) (hbelow hy)

/-- If what is attached comes before the children, a walk goes through the numbers in order. -/
theorem numbers_walkBy (hfirst : ∀ n, ∀ m ∈ own n, ∀ c ∈ F.children n, m.number < c.number)
    (n : Node) : (F.walkBy own n).map (·.number) =
      List.range' n.number (F.walkBy own n).length := by
  refine (N.perm_walkBy A n).eq_of_pairwise (fun i j _ _ hij hji => absurd hij (by omega)) ?_
    List.pairwise_lt_range'
  rw [List.pairwise_map]
  refine (N.ascending_walkBy A hfirst n).imp_of_mem fun {m k} hm hk hmk => ?_
  have hdoc {m : Node} (hm : m ∈ F.walkBy own n) : m.document = n.document :=
    N.linked.document_of_below ((N.linked.mem_walkBy A).mp hm)
  exact (before_iff_number_lt ((hdoc hm).trans (hdoc hk).symm)).mp hmk

end Numbered

end XPath.Forest
