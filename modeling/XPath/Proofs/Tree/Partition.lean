import Mathlib.Data.List.Basic
import Mathlib.Data.List.Perm.Basic
import XPath.Proofs.Tree.Links

/-!
# How the axes divide a tree

The subtree of the root falls apart at each node: what comes before the node, its ancestors, its own
subtree and what comes after it (`Forest.Linked.perm_subtree`). No node comes twice in a subtree, so
the axes share out the tree among them (`Forest.Linked.axes_partition`).
-/

namespace XPath

def Axis.includesOrigin : Axis → Bool
  | selfAxis | descendantOrSelf | ancestorOrSelf => true
  | _ => false

/-- The nodes on an axis but for its origin: attributes, namespace nodes or tree nodes. -/
def Axis.leadsTo (axis : Axis) (type : NodeType) : Bool :=
  match axis with
  | attributeAxis => type == .attributeNode
  | namespaceAxis => type == .namespaceNode
  | _ => type != .attributeNode && type != .namespaceNode

namespace Forest

variable {F : Forest} {a c k m n p s : Node} {axis : Axis}

theorem followingNodes_eq (F : Forest) (n : Node) : F.followingNodes n =
    if F.isTreeNode n then F.nodesAfter n
    else match F.parent? n with
      | some p => F.descendants p ++ F.nodesAfter p
      | none => [] := by
  unfold followingNodes nodesAfter
  cases F.parent? n <;> rfl

theorem precedingNodes_eq (F : Forest) (n : Node) : F.precedingNodes n =
    if F.isTreeNode n then F.nodesBefore n
    else match F.parent? n with
      | some p => F.nodesBefore p
      | none => [] := by
  unfold precedingNodes nodesBefore
  cases F.parent? n <;> rfl

theorem isTreeNode_iff : F.isTreeNode n = true ↔
    F.type n ≠ .attributeNode ∧ F.type n ≠ .namespaceNode := by
  unfold isTreeNode
  cases F.type n <;> simp

namespace Linked

variable (L : F.Linked)

include L

/-! ## Subtrees -/

/-- What lies below two children of one node lies below one child. -/
theorem eq_of_below (ha : F.parent? a = some p) (hc : F.parent? c = some p) (ham : F.Below a m)
    (hcm : F.Below c m) : a = c := by
  have hac := L.not_mem_ancestors_of_sibling ha hc
  have hca := L.not_mem_ancestors_of_sibling hc ha
  induction m using L.induction with
  | top m hm =>
      rw [Below, ancestors_of_no_parent hm] at ham hcm
      simp_all
  | below m k hm ih =>
      rcases ham with rfl | ham
      · exact hcm.elim id fun h => absurd h hca
      · rcases hcm with rfl | hcm
        · exact absurd ham hac
        · exact ih (((L.mem_ancestors hm).mp ham).imp_left Eq.symm)
            (((L.mem_ancestors hm).mp hcm).imp_left Eq.symm)

theorem number_of_mem_children (h : c ∈ F.children n) :
    n.number < c.number ∧ c.number < F.size n ∧ F.size c = F.size n := by
  have hparent := L.parent_of_mem_children h
  have hsize := size_congr (F := F) (document_parent hparent)
  exact ⟨L.parent_lt c n hparent, hsize ▸ has_of_parent hparent, hsize.symm⟩

theorem children_of_last (h : F.size n ≤ n.number + 1) : F.children n = [] := by
  refine List.eq_nil_iff_forall_not_mem.mpr fun c hc => ?_
  have := L.number_of_mem_children hc
  omega

/-- Beyond the last number of the document there is nothing, however deep one looks. -/
theorem subtreeTo_congr {i j : Nat} (hi : F.size n ≤ n.number + i + 1)
    (hj : F.size n ≤ n.number + j + 1) : F.subtreeTo i n = F.subtreeTo j n := by
  induction i generalizing j n with
  | zero => cases j <;> simp [subtreeTo, L.children_of_last hi]
  | succ i ih =>
      cases j with
      | zero => simp [subtreeTo, L.children_of_last hj]
      | succ j =>
          rw [subtreeTo, subtreeTo]
          refine congrArg (n :: ·) (List.flatMap_congr fun c hc => ?_)
          have := L.number_of_mem_children hc
          exact ih (by omega) (by omega)

/-- A node comes first in its subtree, then come the subtrees of its children. -/
theorem subtree_eq (n : Node) : F.subtree n = n :: F.descendants n := by
  have hmore : F.subtree n = F.subtreeTo (F.size n + 1) n :=
    L.subtreeTo_congr (by omega) (by omega)
  rw [hmore, subtreeTo, descendants]
  refine congrArg (n :: ·) (List.flatMap_congr fun c hc => ?_)
  have := L.number_of_mem_children hc
  exact L.subtreeTo_congr (by omega) (by omega)

theorem induction_up {motive : Node → Prop}
    (step : ∀ n, (∀ c ∈ F.children n, motive c) → motive n) (n : Node) : motive n := by
  induction hk : F.size n - n.number using Nat.strongRecOn generalizing n with
  | _ k ih =>
      refine step n fun c hc => ih (F.size c - c.number) ?_ c rfl
      have := L.number_of_mem_children hc
      omega

theorem nodup_subtree (n : Node) : (F.subtree n).Nodup := by
  induction n using L.induction_up with
  | step n ih =>
      rw [L.subtree_eq, List.nodup_cons]
      refine ⟨fun h => ?_, ?_⟩
      · exact Nat.lt_irrefl _ (L.lt_of_mem_ancestors (L.below_of_mem_descendants h)).1
      · rw [descendants, List.nodup_flatMap]
        refine ⟨ih, (L.children_nodup n).imp_of_mem ?_⟩
        intro a c ha hc hne m ham hcm
        exact hne (L.eq_of_below (L.parent_of_mem_children ha) (L.parent_of_mem_children hc)
          (L.below_of_mem_subtree ham) (L.below_of_mem_subtree hcm))

/-! ## The tree falls apart at each node -/

theorem descendants_split (hp : F.parent? n = some p) (hn : F.isTreeNode n = true) :
    F.descendants p = (F.siblingsBefore n).flatMap F.subtree ++
      (F.subtree n ++ (F.siblingsAfter n).flatMap F.subtree) := by
  rw [descendants, L.siblings_split hp hn, List.flatMap_append, List.flatMap_cons]

/-- What comes before a node, its ancestors, its subtree and what comes after it make up the tree. -/
theorem perm_subtree (hn : F.isTreeNode n = true) :
    (F.nodesBefore n ++ (F.ancestors n ++ (F.subtree n ++ F.nodesAfter n))).Perm
      (F.subtree (F.documentRoot n)) := by
  induction n using L.induction with
  | top n hp =>
      rw [nodesBefore_of_no_parent hp, ancestors_of_no_parent hp, nodesAfter_of_no_parent hp,
        documentRoot_of_no_parent hp, List.append_nil]
      exact .refl _
  | below n p hp ih =>
      rw [L.documentRoot_of_parent hp]
      refine .trans ?_ (ih (L.isTreeNode_parent n p hp))
      rw [L.nodesBefore_of_parent hp, L.ancestors_of_parent hp, L.nodesAfter_of_parent hp,
        L.subtree_eq p, L.descendants_split hp hn, List.perm_iff_count]
      intro m
      simp only [List.count_append, List.count_cons, List.count_reverse]
      omega

theorem nodup_parts (hn : F.isTreeNode n = true) :
    (F.nodesBefore n ++ (F.ancestors n ++ (F.subtree n ++ F.nodesAfter n))).Nodup :=
  (L.perm_subtree hn).nodup_iff.mpr (L.nodup_subtree _)

/-! ## The axes -/

theorem nodup_ancestors (n : Node) : (F.ancestors n).Nodup := by
  induction n using L.induction with
  | top n hp => simp [ancestors_of_no_parent hp]
  | below n p hp ih =>
      rw [L.ancestors_of_parent hp, List.nodup_cons]
      exact ⟨fun h => Nat.lt_irrefl _ (L.lt_of_mem_ancestors h).1, ih⟩

theorem nodup_descendants (n : Node) : (F.descendants n).Nodup := by
  have h := L.nodup_subtree n
  rw [L.subtree_eq] at h
  exact h.of_cons

theorem nodup_onAxis (axis : Axis) (n : Node) : (F.onAxis axis n).Nodup := by
  cases axis with
  | child => exact L.children_nodup n
  | attributeAxis => exact L.attributes_nodup n
  | namespaceAxis => exact L.namespaces_nodup n
  | selfAxis => exact List.nodup_singleton n
  | parent =>
      rw [onAxis]
      cases F.parent? n <;> simp
  | followingSibling =>
      cases hp : F.parent? n with
      | none => simp [onAxis, siblingsAfter_of_no_parent hp]
      | some p => exact (L.children_nodup p).sublist (siblingsAfter_sublist hp)
  | precedingSibling =>
      cases hp : F.parent? n with
      | none => simp [onAxis, siblingsBefore_of_no_parent hp]
      | some p =>
          exact List.nodup_reverse.mpr ((L.children_nodup p).sublist (siblingsBefore_sublist hp))
  | descendant => exact L.nodup_descendants n
  | descendantOrSelf =>
      rw [onAxis, ← L.subtree_eq]
      exact L.nodup_subtree n
  | ancestor => exact L.nodup_ancestors n
  | ancestorOrSelf =>
      exact List.nodup_cons.mpr
        ⟨fun h => Nat.lt_irrefl _ (L.lt_of_mem_ancestors h).1, L.nodup_ancestors n⟩
  | preceding =>
      rw [onAxis, precedingNodes_eq]
      split
      · exact (L.nodup_parts ‹_›).of_append_left
      · split
        · exact (L.nodup_parts (L.isTreeNode_parent n _ ‹_›)).of_append_left
        · exact List.nodup_nil
  | following =>
      rw [onAxis, followingNodes_eq]
      split
      · exact (L.nodup_parts ‹_›).of_append_right.of_append_right.of_append_right
      · split
        · have hparts := (L.nodup_parts (L.isTreeNode_parent n _ ‹_›)).of_append_right.of_append_right
          rw [L.subtree_eq] at hparts
          exact hparts.of_cons
        · exact List.nodup_nil

theorem documentRoot_of_mem_subtree (h : m ∈ F.subtree n) : F.documentRoot m = F.documentRoot n :=
  (L.documentRoot_of_below (L.below_of_mem_subtree h)).symm

theorem mem_subtree_documentRoot (hn : F.isTreeNode n = true) :
    m ∈ F.subtree (F.documentRoot n) ↔
      F.documentRoot m = F.documentRoot n ∧ F.isTreeNode m = true := by
  have hroot : F.isTreeNode (F.documentRoot n) = true := by
    rcases below_documentRoot F n with h | h
    · rwa [← h]
    · exact L.isTreeNode_of_mem_ancestors h
  have htop := documentRoot_of_no_parent (L.parent_documentRoot n)
  constructor
  · intro h
    refine ⟨(L.documentRoot_of_mem_subtree h).trans htop, ?_⟩
    rcases L.mem_subtree.mp h with rfl | h
    · exact hroot
    · exact h.2
  · rintro ⟨h, hm⟩
    have hbelow := below_documentRoot F m
    rw [h] at hbelow
    exact L.mem_subtree.mpr (hbelow.imp_right fun hanc => ⟨hanc, hm⟩)

theorem documentRoot_of_mem_onAxis (h : m ∈ F.onAxis axis n) :
    F.documentRoot m = F.documentRoot n := by
  have hparts {k : Node} (hk : F.isTreeNode k = true)
      (hm : m ∈ F.nodesBefore k ++ (F.ancestors k ++ (F.subtree k ++ F.nodesAfter k))) :
      F.documentRoot m = F.documentRoot k := by
    rw [L.documentRoot_of_mem_subtree ((L.perm_subtree hk).subset hm)]
    exact documentRoot_of_no_parent (L.parent_documentRoot k)
  cases axis with
  | child => exact L.documentRoot_of_parent (L.parent_of_mem_children h)
  | attributeAxis => exact L.documentRoot_of_parent ((L.mem_attributes n m).mp h).1
  | namespaceAxis => exact L.documentRoot_of_parent ((L.mem_namespaces n m).mp h).1
  | selfAxis => rw [List.mem_singleton.mp h]
  | parent => exact (L.documentRoot_of_parent (Option.mem_toList.mp h)).symm
  | followingSibling =>
      cases hp : F.parent? n with
      | none => simp [onAxis, siblingsAfter_of_no_parent hp] at h
      | some p =>
          rw [L.documentRoot_of_parent hp,
            L.documentRoot_of_parent (L.parent_of_mem_siblingsAfter hp h)]
  | precedingSibling =>
      cases hp : F.parent? n with
      | none => simp [onAxis, siblingsBefore_of_no_parent hp] at h
      | some p =>
          rw [L.documentRoot_of_parent hp,
            L.documentRoot_of_parent (L.parent_of_mem_siblingsBefore hp (List.mem_reverse.mp h))]
  | descendant => exact (L.documentRoot_of_below (Or.inr (L.below_of_mem_descendants h))).symm
  | descendantOrSelf =>
      rw [onAxis, ← L.subtree_eq] at h
      exact L.documentRoot_of_mem_subtree h
  | ancestor => exact L.documentRoot_of_below (Or.inr h)
  | ancestorOrSelf => exact L.documentRoot_of_below ((List.mem_cons.mp h).imp_left Eq.symm)
  | preceding =>
      rw [onAxis, precedingNodes_eq] at h
      split at h
      · exact hparts ‹_› (by simp [h])
      · split at h
        · rename_i hp
          rw [L.documentRoot_of_parent hp]
          exact hparts (L.isTreeNode_parent n _ hp) (by simp [h])
        · simp at h
  | following =>
      rw [onAxis, followingNodes_eq] at h
      split at h
      · exact hparts ‹_› (by simp [h])
      · split at h
        · rename_i hp
          rw [L.documentRoot_of_parent hp]
          refine hparts (L.isTreeNode_parent n _ hp) ?_
          rw [L.subtree_eq]
          simpa [or_assoc] using Or.inr (Or.inr (Or.inr (List.mem_append.mp h)))
        · simp at h

theorem has_of_mem_onAxis (hn : F.Has n) (h : m ∈ F.onAxis axis n) : F.Has m := by
  refine has_of_below (L.has_documentRoot hn) ?_
  rw [← L.documentRoot_of_mem_onAxis h]
  exact below_documentRoot F m

theorem document_of_mem_onAxis (h : m ∈ F.onAxis axis n) : m.document = n.document := by
  rw [L.document_of_below (below_documentRoot F m), L.documentRoot_of_mem_onAxis h,
    ← L.document_of_below (below_documentRoot F n)]

/-! ## Before and after -/

omit L in
/-- In a list without duplicates, `s` is behind `a` exactly if `a` is before `s`. -/
theorem mem_behind_iff_mem_before {ns before behind before' behind' : List Node} (hns : ns.Nodup)
    (ha : ns = before ++ a :: behind) (hs : ns = before' ++ s :: behind') :
    s ∈ behind ↔ a ∈ before' := by
  have hunique {k : Node} {xs ys xs' ys' : List Node} (h : ns = xs ++ k :: ys)
      (h' : ns = xs' ++ k :: ys') : xs' = xs ∧ ys' = ys := by
    rw [h, List.nodup_middle, List.nodup_cons, List.mem_append, not_or] at hns
    have heq := (List.append_cons_inj_of_notMem hns.1.1 hns.1.2).mp (h.symm.trans h')
    exact ⟨heq.1.symm, heq.2.2.symm⟩
  constructor
  · intro h
    obtain ⟨xs, ys, rfl⟩ := List.append_of_mem h
    have hsplit : ns = (before ++ a :: xs) ++ s :: ys := by simp [ha]
    obtain ⟨rfl, -⟩ := hunique hsplit hs
    simp
  · intro h
    obtain ⟨xs, ys, rfl⟩ := List.append_of_mem h
    have hsplit : ns = xs ++ a :: (ys ++ s :: behind') := by simp [hs]
    obtain ⟨-, rfl⟩ := hunique hsplit ha
    simp

theorem mem_siblingsAfter_iff : s ∈ F.siblingsAfter a ↔ a ∈ F.siblingsBefore s := by
  constructor
  · intro h
    obtain ⟨p, ha, hatree, hs⟩ := exists_of_mem_siblingsAfter h
    obtain ⟨hs, hstree⟩ := (L.mem_children p s).mp hs
    exact (mem_behind_iff_mem_before (L.children_nodup p) (L.siblings_split ha hatree)
      (L.siblings_split hs hstree)).mp h
  · intro h
    obtain ⟨p, hs, hstree, ha⟩ := exists_of_mem_siblingsBefore h
    obtain ⟨ha, hatree⟩ := (L.mem_children p a).mp ha
    exact (mem_behind_iff_mem_before (L.children_nodup p) (L.siblings_split ha hatree)
      (L.siblings_split hs hstree)).mpr h

omit L in
theorem mem_nodesAfter :
    m ∈ F.nodesAfter n ↔ ∃ a s, F.Below a n ∧ s ∈ F.siblingsAfter a ∧ m ∈ F.subtree s := by
  simp only [nodesAfter, List.mem_flatMap, List.mem_cons, Below, eq_comm (a := n)]
  constructor
  · rintro ⟨a, ha, s, hs, hm⟩
    exact ⟨a, s, ha, hs, hm⟩
  · rintro ⟨a, s, ha, hs, hm⟩
    exact ⟨a, ha, s, hs, hm⟩

omit L in
theorem mem_nodesBefore :
    m ∈ F.nodesBefore n ↔ ∃ a s, F.Below a n ∧ s ∈ F.siblingsBefore a ∧ m ∈ F.subtree s := by
  simp only [nodesBefore, List.mem_flatMap, List.mem_cons, List.mem_reverse, Below,
    eq_comm (a := n)]
  constructor
  · rintro ⟨a, ha, s, hs, hm⟩
    exact ⟨a, s, ha, hs, hm⟩
  · rintro ⟨a, s, ha, hs, hm⟩
    exact ⟨a, ha, s, hs, hm⟩

/-- A tree node is after another exactly if that one is before it. -/
theorem mem_nodesAfter_iff (hm : F.isTreeNode m = true) (hn : F.isTreeNode n = true) :
    m ∈ F.nodesAfter n ↔ n ∈ F.nodesBefore m := by
  have hbelow {a k : Node} (hk : F.isTreeNode k = true) : k ∈ F.subtree a ↔ F.Below a k := by
    rw [L.mem_subtree, Below, and_iff_left hk]
  rw [mem_nodesAfter, mem_nodesBefore]
  simp only [hbelow hm, hbelow hn, L.mem_siblingsAfter_iff]
  constructor
  · rintro ⟨a, s, ha, hs, hsm⟩
    exact ⟨s, a, hsm, hs, ha⟩
  · rintro ⟨s, a, hsm, hs, ha⟩
    exact ⟨a, s, ha, hs, hsm⟩

/-! ## What an axis leads to -/

theorem isTreeNode_of_mem_subtree (hn : F.isTreeNode n = true) (h : m ∈ F.subtree n) :
    F.isTreeNode m = true :=
  (L.mem_subtree.mp h).elim (fun h => h ▸ hn) And.right

theorem isTreeNode_of_mem_children (h : m ∈ F.children n) : F.isTreeNode m = true :=
  ((L.mem_children n m).mp h).2

theorem isTreeNode_of_mem_nodesAfter (h : m ∈ F.nodesAfter n) : F.isTreeNode m = true := by
  obtain ⟨a, k, -, hk, hm⟩ := mem_nodesAfter.mp h
  obtain ⟨p, -, -, hk⟩ := exists_of_mem_siblingsAfter hk
  exact L.isTreeNode_of_mem_subtree (L.isTreeNode_of_mem_children hk) hm

theorem isTreeNode_of_mem_nodesBefore (h : m ∈ F.nodesBefore n) : F.isTreeNode m = true := by
  obtain ⟨a, k, -, hk, hm⟩ := mem_nodesBefore.mp h
  obtain ⟨p, -, -, hk⟩ := exists_of_mem_siblingsBefore hk
  exact L.isTreeNode_of_mem_subtree (L.isTreeNode_of_mem_children hk) hm

/-- An axis leads to nodes of one sort, and to its origin if it starts there. -/
theorem leadsTo_of_mem_onAxis (h : m ∈ F.onAxis axis n) :
    axis.includesOrigin = true ∧ m = n ∨ axis.leadsTo (F.type m) = true := by
  have htree (haxis : axis ≠ .attributeAxis ∧ axis ≠ .namespaceAxis)
      (hm : F.isTreeNode m = true) : axis.leadsTo (F.type m) = true := by
    have htype := isTreeNode_iff.mp hm
    cases axis <;> simp_all [Axis.leadsTo]
  cases axis with
  | attributeAxis => exact Or.inr (by simpa [Axis.leadsTo] using ((L.mem_attributes n m).mp h).2)
  | namespaceAxis => exact Or.inr (by simpa [Axis.leadsTo] using ((L.mem_namespaces n m).mp h).2)
  | child => exact Or.inr (htree (by decide) (L.isTreeNode_of_mem_children h))
  | selfAxis => exact Or.inl ⟨rfl, List.mem_singleton.mp h⟩
  | parent => exact Or.inr (htree (by decide) (L.isTreeNode_parent n m (Option.mem_toList.mp h)))
  | followingSibling =>
      obtain ⟨p, -, -, hm⟩ := exists_of_mem_siblingsAfter h
      exact Or.inr (htree (by decide) (L.isTreeNode_of_mem_children hm))
  | precedingSibling =>
      obtain ⟨p, -, -, hm⟩ := exists_of_mem_siblingsBefore (List.mem_reverse.mp h)
      exact Or.inr (htree (by decide) (L.isTreeNode_of_mem_children hm))
  | descendant => exact Or.inr (htree (by decide) (L.mem_descendants.mp h).2)
  | descendantOrSelf =>
      refine (List.mem_cons.mp h).imp (fun h => ⟨rfl, h⟩) fun h => ?_
      exact htree (by decide) (L.mem_descendants.mp h).2
  | ancestor => exact Or.inr (htree (by decide) (L.isTreeNode_of_mem_ancestors h))
  | ancestorOrSelf =>
      refine (List.mem_cons.mp h).imp (fun h => ⟨rfl, h⟩) fun h => ?_
      exact htree (by decide) (L.isTreeNode_of_mem_ancestors h)
  | preceding =>
      refine Or.inr (htree (by decide) ?_)
      rw [onAxis, precedingNodes_eq] at h
      split at h
      · exact L.isTreeNode_of_mem_nodesBefore h
      · split at h
        · exact L.isTreeNode_of_mem_nodesBefore h
        · simp at h
  | following =>
      refine Or.inr (htree (by decide) ?_)
      rw [onAxis, followingNodes_eq] at h
      split at h
      · exact L.isTreeNode_of_mem_nodesAfter h
      · split at h
        · rcases List.mem_append.mp h with h | h
          · exact (L.mem_descendants.mp h).2
          · exact L.isTreeNode_of_mem_nodesAfter h
        · simp at h

end Linked

end Forest

end XPath
