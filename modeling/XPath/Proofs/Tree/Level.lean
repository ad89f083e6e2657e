import XPath.Proofs.Tree.Axes

/-!
# Levels

Nodes on one level have the same number of ancestors, so that none is an ancestor of another. Unlike
nodes of which only that is known, their parents, siblings and children are on one level again
(`Forest.WellFormed.level_flatMap`).
-/

namespace XPath

def Axis.level (axis : Axis) (d : Nat) : Nat :=
  match axis with
  | .parent => d - 1
  | .child | .attributeAxis | .namespaceAxis => d + 1
  | _ => d

namespace Forest

variable {F : Forest} {axis : Axis} {n m p : Node} {ns ms : List Node}

def depth (F : Forest) (n : Node) : Nat := (F.ancestors n).length

/-- The nodes have the same number of ancestors. -/
def Level (F : Forest) (ns : List Node) : Prop := ∃ d, ∀ n ∈ ns, F.depth n = d

theorem Level.subset (h : F.Level ns) (hsub : ∀ n ∈ ms, n ∈ ns) : F.Level ms :=
  h.imp fun _ hd n hn => hd n (hsub n hn)

theorem level_toList (F : Forest) (n : Option Node) : F.Level n.toList := by
  cases n with
  | none => exact ⟨0, by simp⟩
  | some n => exact ⟨F.depth n, by simp⟩

namespace WellFormed

variable (W : F.WellFormed)

include W

theorem depth_of_parent (h : F.parent? n = some p) : F.depth n = F.depth p + 1 := by
  rw [depth, W.linked.ancestors_of_parent h, List.length_cons, depth]

theorem depth_lt_of_mem_ancestors {a : Node} (h : a ∈ F.ancestors n) : F.depth a < F.depth n := by
  induction n using W.linked.induction with
  | top n hn => simp [ancestors_of_no_parent hn] at h
  | below n p hp ih =>
      rw [W.depth_of_parent hp]
      rcases (W.linked.mem_ancestors hp).mp h with rfl | h
      · exact Nat.lt_succ_self _
      · exact (ih h).trans (Nat.lt_succ_self _)

theorem peers_of_level (h : F.Level ns) : F.Peers ns := by
  obtain ⟨d, hd⟩ := h
  intro a ha b hb hab
  have hlt := W.depth_lt_of_mem_ancestors hab
  rw [hd a ha, hd b hb] at hlt
  exact Nat.lt_irrefl _ hlt

theorem depth_of_mem_onAxis (h : axis.isPeer = true) (hm : m ∈ F.onAxis axis n) :
    F.depth m = axis.level (F.depth n) := by
  cases axis with
  | child => exact W.depth_of_parent (W.linked.parent_of_mem_children hm)
  | attributeAxis => exact W.depth_of_parent ((W.mem_attributes n m).mp hm).1
  | namespaceAxis => exact W.depth_of_parent ((W.mem_namespaces n m).mp hm).1
  | selfAxis =>
      rw [List.mem_singleton.mp hm]
      rfl
  | parent =>
      rw [W.depth_of_parent (Option.mem_toList.mp hm), Axis.level, Nat.add_sub_cancel]
  | followingSibling =>
      cases hp : F.parent? n with
      | none => simp [onAxis, siblingsAfter_of_no_parent hp] at hm
      | some p =>
          rw [W.depth_of_parent hp, W.depth_of_parent (W.linked.parent_of_mem_siblingsAfter hp hm)]
          rfl
  | precedingSibling =>
      cases hp : F.parent? n with
      | none => simp [onAxis, siblingsBefore_of_no_parent hp] at hm
      | some p =>
          rw [W.depth_of_parent hp,
            W.depth_of_parent (W.linked.parent_of_mem_siblingsBefore hp (List.mem_reverse.mp hm))]
          rfl
  | ancestor | ancestorOrSelf | descendant | descendantOrSelf | following | preceding => cases h

theorem level_flatMap (h : axis.isPeer = true) (hns : F.Level ns) :
    F.Level (ns.flatMap (F.onAxis axis)) := by
  obtain ⟨d, hd⟩ := hns
  refine ⟨axis.level d, fun m hm => ?_⟩
  obtain ⟨n, hn, hm⟩ := List.mem_flatMap.mp hm
  rw [W.depth_of_mem_onAxis h hm, hd n hn]

end WellFormed

end Forest

end XPath
