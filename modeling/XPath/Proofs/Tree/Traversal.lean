import Mathlib.Data.List.Perm.Subperm
import XPath.Proofs.Tree.Contract
import XPath.Proofs.Tree.Partition
import XPath.Selection

/-!
# Walks list the nodes of the axis

A step of a walk takes the first of the nodes that are still to come (`Traversal.pending_eq`): for a
stack of sibling lists these are their subtrees, level by level. So a walk with enough steps lists
the nodes on the axis (`Forest.Linked.walk_eq`), and the axes divide the tree as walks do.
-/

namespace XPath

variable {F : Forest} {m n : Node} {axis : Axis}

namespace Forest

/-! ## Preceding nodes -/

theorem reversePreorderTo_eq (F : Forest) (depth : Nat) (n : Node) :
    F.reversePreorderTo depth n = (F.subtreeTo depth n).reverse := by
  induction depth generalizing n with
  | zero => rfl
  | succ depth ih =>
      have hbelow : F.reversePreorderTo depth = fun m => (F.subtreeTo depth m).reverse := funext ih
      rw [reversePreorderTo, subtreeTo, List.reverse_cons, ← flatMap_reverse_reverse, hbelow]

theorem precedingWalk_eq (F : Forest) (n : Node) : F.precedingWalk n = F.precedingNodes n := by
  rw [precedingNodes_eq, precedingWalk]
  simp only [reversePreorderTo_eq]
  cases F.isTreeNode n <;> cases F.parent? n <;> rfl

end Forest

namespace Traversal

/-! ## What is still to come -/

def pending (F : Forest) : Traversal → List Node
  | list nodes => nodes
  | preorder stack pendingSelf =>
    pendingSelf.toList ++ stack.flatMap fun level => level.flatMap F.subtree
  | ancestors none => []
  | ancestors (some n) => n :: F.ancestors n

/-- The node that comes next is the first one below the stack, and what is left are the others. -/
theorem subtrees_of_stack (L : F.Linked) (stack : List (List Node)) :
    (stack.flatMap fun level => level.flatMap F.subtree) =
      match F.nextInStack stack with
      | none => []
      | some (n, stack) => n :: stack.flatMap fun level => level.flatMap F.subtree := by
  induction stack with
  | nil => rfl
  | cons level stack ih =>
      cases level with
      | nil => exact ih
      | cons n level =>
          simp only [Forest.nextInStack, List.flatMap_cons, L.subtree_eq n, List.cons_append,
            List.append_assoc]
          rfl

theorem pending_eq (L : F.Linked) (t : Traversal) :
    t.pending F = match t.advance F with
      | none => []
      | some (n, t) => n :: t.pending F := by
  cases t with
  | list nodes => cases nodes <;> rfl
  | preorder stack pendingSelf =>
      cases pendingSelf with
      | some n => rfl
      | none =>
          rw [pending, Option.toList_none, List.nil_append, subtrees_of_stack L, advance]
          cases F.nextInStack stack <;> rfl
  | ancestors next =>
      cases next with
      | none => rfl
      | some n =>
          rw [pending, advance]
          cases hp : F.parent? n with
          | none => rw [Forest.ancestors_of_no_parent hp]; rfl
          | some p => rw [L.ancestors_of_parent hp]; rfl

theorem nodes_eq (L : F.Linked) {steps : Nat} {t : Traversal}
    (h : (t.pending F).length ≤ steps) : t.nodes F steps = t.pending F := by
  induction steps generalizing t with
  | zero => rw [nodes, List.eq_nil_of_length_eq_zero (Nat.le_zero.mp h)]
  | succ steps ih =>
      rw [pending_eq L] at h ⊢
      rw [nodes]
      cases hnext : t.advance F with
      | none => rfl
      | some next =>
          rw [hnext] at h
          exact congrArg (next.1 :: ·) (ih (Nat.le_of_succ_le_succ h))

theorem pending_start (L : F.Linked) (axis : Axis) (n : Node) :
    (start F axis n).pending F = F.onAxis axis n := by
  cases axis with
  | child | attributeAxis | namespaceAxis | selfAxis | parent | followingSibling
  | precedingSibling | ancestorOrSelf => rfl
  | preceding => exact F.precedingWalk_eq n
  | descendant | descendantOrSelf => simp [start, pending, Forest.onAxis, Forest.descendants]
  | ancestor =>
      rw [start, Forest.onAxis]
      cases hp : F.parent? n with
      | none => rw [pending, Forest.ancestors_of_no_parent hp]
      | some p => rw [pending, L.ancestors_of_parent hp]
  | following =>
      rw [start, pending, Forest.followingStack, Forest.onAxis, Forest.followingNodes_eq]
      split
      · rw [Forest.nodesAfter, List.flatMap_map]
        rfl
      · cases F.parent? n with
        | none => rfl
        | some p =>
            rw [List.flatMap_cons, List.flatMap_map]
            rfl

end Traversal

namespace Forest.Linked

variable (L : F.Linked)

include L

theorem eq_or_has_of_mem_onAxis (h : m ∈ F.onAxis axis n) : m = n ∨ F.Has m := by
  refine or_iff_not_imp_right.mpr fun hm => ?_
  have hp : F.parent? m = none := by
    cases hp : F.parent? m with
    | none => rfl
    | some p => exact absurd (has_of_parent hp) hm
  have hroot : F.documentRoot n = m := by
    rw [← L.documentRoot_of_mem_onAxis h, documentRoot_of_no_parent hp]
  rcases below_documentRoot F n with heq | hmem
  · rw [heq, hroot]
  · exact absurd (L.has_of_mem_ancestors (hroot ▸ hmem)) hm

/-- There are not more nodes on an axis than in the document, but for the origin if it is no node of
the document. -/
theorem length_onAxis_le (axis : Axis) (n : Node) : (F.onAxis axis n).length ≤ F.size n + 1 := by
  have hsub : F.onAxis axis n ⊆ n :: (List.range (F.size n)).map fun i => { n with number := i } := by
    intro m hm
    refine List.mem_cons.mpr ((L.eq_or_has_of_mem_onAxis hm).imp_right fun hhas => ?_)
    have hdoc := L.document_of_mem_onAxis hm
    rw [Has, size_congr hdoc] at hhas
    exact List.mem_map.mpr ⟨m.number, List.mem_range.mpr hhas, by rw [← hdoc]⟩
  have hle := ((L.nodup_onAxis axis n).subperm hsub).length_le
  simpa using hle

theorem walk_eq (axis : Axis) (n : Node) : F.walk axis n = F.onAxis axis n := by
  have hpending := Traversal.pending_start L axis n
  rw [walk, Traversal.nodes_eq L (hpending ▸ L.length_onAxis_le axis n), hpending]

end Forest.Linked

/-! ## The axes divide the tree -/

/-- The axes share out the tree of `n`: each one lists no node twice, no two list the same node, and
together they list the nodes of the tree except for attributes and namespace nodes. -/
structure Forest.SharesOut (F : Forest) (axes : List Axis) (n : Node) : Prop where
  nodup : ∀ axis ∈ axes, (axisEnumeration F axis n none).items.Nodup
  disjoint : axes.Pairwise fun axis axis' =>
    (axisEnumeration F axis n none).items.Disjoint (axisEnumeration F axis' n none).items
  covers : ∀ item, (∃ axis ∈ axes, item ∈ (axisEnumeration F axis n none).items) ↔
    ∃ m, item = .ok m ∧ F.documentRoot m = F.documentRoot n ∧ F.isTreeNode m = true

namespace Forest.Linked

variable (L : F.Linked)

include L

theorem items_axisEnumeration (axis : Axis) (n : Node) :
    (axisEnumeration F axis n none).items = (F.onAxis axis n).map .ok := by
  rw [axisEnumeration, L.walk_eq]
  simp

theorem sharesOut {axes : List Axis} {ms : List Node} (hms : ms.Nodup)
    (hperm : (axes.flatMap fun axis => F.onAxis axis n).Perm ms)
    (hmem : ∀ m, m ∈ ms ↔ F.documentRoot m = F.documentRoot n ∧ F.isTreeNode m = true) :
    F.SharesOut axes n := by
  obtain ⟨hnodup, hdisjoint⟩ := List.nodup_flatMap.mp (hperm.nodup_iff.mpr hms)
  have hinj : Function.Injective (Except.ok : Node → Item) := fun _ _ h => Except.ok.inj h
  refine ⟨fun axis haxis => ?_, hdisjoint.imp fun h => ?_, fun item => ?_⟩
  · rw [L.items_axisEnumeration]
    exact (hnodup axis haxis).map hinj
  · rw [L.items_axisEnumeration, L.items_axisEnumeration]
    exact List.disjoint_map hinj h
  · simp only [L.items_axisEnumeration, List.mem_map]
    constructor
    · rintro ⟨axis, haxis, m, hm, rfl⟩
      exact ⟨m, rfl, (hmem m).mp (hperm.subset (List.mem_flatMap.mpr ⟨axis, haxis, hm⟩))⟩
    · rintro ⟨m, rfl, hm⟩
      obtain ⟨axis, haxis, hm⟩ := List.mem_flatMap.mp (hperm.symm.subset ((hmem m).mpr hm))
      exact ⟨axis, haxis, m, hm, rfl⟩

theorem sharesOut_of_isTreeNode (hn : F.isTreeNode n = true) :
    F.SharesOut [.selfAxis, .ancestor, .descendant, .preceding, .following] n := by
  refine L.sharesOut (L.nodup_subtree (F.documentRoot n)) ?_
    fun m => L.mem_subtree_documentRoot hn
  refine List.Perm.trans ?_ (L.perm_subtree hn)
  simp only [List.flatMap_cons, List.flatMap_nil, onAxis, precedingNodes_eq, followingNodes_eq,
    if_pos hn, L.subtree_eq n, List.perm_iff_count, List.count_append, List.count_cons,
    List.count_nil]
  omega

/-- An attribute or namespace node is below its element without being a part of the tree. -/
theorem sharesOut_of_not_isTreeNode (hn : F.isTreeNode n = false) :
    F.SharesOut [.ancestor, .preceding, .following] n := by
  cases hp : F.parent? n with
  | none =>
      refine L.sharesOut List.nodup_nil ?_ fun m => ?_
      · simp [onAxis, precedingNodes_eq, followingNodes_eq, hn, hp, ancestors_of_no_parent hp]
      · rw [documentRoot_of_no_parent hp]
        refine iff_of_false List.not_mem_nil ?_
        rintro ⟨hroot, hm⟩
        have hne : F.isTreeNode n ≠ true := Bool.eq_false_iff.mp hn
        rcases hroot ▸ below_documentRoot F m with rfl | h
        · exact absurd hm hne
        · exact absurd (L.isTreeNode_of_mem_ancestors h) hne
  | some p =>
      have hptree := L.isTreeNode_parent n p hp
      refine L.sharesOut (L.nodup_subtree (F.documentRoot p)) ?_ fun m => ?_
      · refine List.Perm.trans ?_ (L.perm_subtree hptree)
        simp only [List.flatMap_cons, List.flatMap_nil, onAxis, precedingNodes_eq,
          followingNodes_eq, if_neg (Bool.eq_false_iff.mp hn), hp, L.ancestors_of_parent hp,
          L.subtree_eq p, List.perm_iff_count, List.count_append, List.count_cons, List.count_nil]
        omega
      · rw [L.documentRoot_of_parent hp]
        exact L.mem_subtree_documentRoot hptree

end Forest.Linked

/-- A tree node shares out its tree among itself, its ancestors, its descendants and the nodes before
and after it; an attribute or a namespace node among its ancestors and the nodes before and after it.
So of two tree nodes one is after the other exactly if the other is before it. -/
theorem Forest.axes_partition (L : F.Linked) :
    (∀ n, F.isTreeNode n = true →
        F.SharesOut [.selfAxis, .ancestor, .descendant, .preceding, .following] n) ∧
      (∀ n, F.isTreeNode n = false → F.SharesOut [.ancestor, .preceding, .following] n) ∧
        ∀ m n, F.isTreeNode m = true → F.isTreeNode n = true →
          (.ok m ∈ (axisEnumeration F .following n none).items ↔
            .ok n ∈ (axisEnumeration F .preceding m none).items) := by
  refine ⟨fun n => L.sharesOut_of_isTreeNode, fun n => L.sharesOut_of_not_isTreeNode,
    fun m n hm hn => ?_⟩
  have hmem (k : Node) (ns : List Node) : (.ok k : Item) ∈ ns.map .ok ↔ k ∈ ns := by simp
  rw [L.items_axisEnumeration, L.items_axisEnumeration, hmem, hmem, onAxis, onAxis,
    followingNodes_eq, precedingNodes_eq, if_pos hn, if_pos hm]
  exact L.mem_nodesAfter_iff hm hn

/-- In `<r><a k="v"/><b/></r>` the element `a` and its attribute each share out the tree, and `b` is
after `a`. -/
theorem Forest.axes_partition_attributed :
    attributed.SharesOut [.selfAxis, .ancestor, .descendant, .preceding, .following] ⟨0, 2⟩ ∧
      attributed.SharesOut [.ancestor, .preceding, .following] ⟨0, 3⟩ ∧
        (.ok ⟨0, 4⟩ ∈ (axisEnumeration attributed .following ⟨0, 2⟩ none).items ∧
          .ok ⟨0, 2⟩ ∈ (axisEnumeration attributed .preceding ⟨0, 4⟩ none).items) := by
  obtain ⟨htree, hattribute, hiff⟩ := axes_partition linked_attributed
  have hfollowing : .ok ⟨0, 4⟩ ∈ (axisEnumeration attributed .following ⟨0, 2⟩ none).items := by
    decide +kernel
  exact ⟨htree ⟨0, 2⟩ (by decide), hattribute ⟨0, 3⟩ (by decide), hfollowing,
    (hiff ⟨0, 4⟩ ⟨0, 2⟩ (by decide) (by decide)).mp hfollowing⟩

end XPath
