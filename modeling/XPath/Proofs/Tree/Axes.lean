import XPath.Proofs.Tree.WellFormed

/-!
# Axes and document order

The axes keep what their properties promise: a forward axis lists its nodes in document order and a
reverse axis against it (`ascending_onAxis`, `descending_onAxis`), the nodes of a peer axis are not
below each other (`peers_onAxis`), and an axis within the subtree stays there (`below_of_mem_onAxis`).
-/

namespace XPath.Forest

variable {F : Forest} {a b k m n p x y : Node} {ns ms : List Node} {axis : Axis}

/-- No node of the list is an ancestor of another. -/
def Peers (F : Forest) (ns : List Node) : Prop := ∀ a ∈ ns, ∀ b ∈ ns, a ∉ F.ancestors b

/-- Each node comes behind all nodes after it in the list. -/
def Descending (F : Forest) (ns : List Node) : Prop := ns.Pairwise fun a b => F.Before b a

theorem descending_iff_ascending_reverse : F.Descending ns ↔ F.Ascending ns.reverse :=
  List.pairwise_reverse.symm

theorem Peers.sublist (h : F.Peers ns) (hsub : ∀ n ∈ ms, n ∈ ns) : F.Peers ms :=
  fun a ha b hb => h a (hsub a ha) b (hsub b hb)

namespace WellFormed

variable (W : F.WellFormed)

include W

theorem peers_of_length_le_one (h : ns.length ≤ 1) : F.Peers ns := by
  intro a ha b hb hab
  have hlt := (W.linked.lt_of_mem_ancestors hab).1
  match ns, h with
  | [], _ => simp at ha
  | [n], _ =>
      simp only [List.mem_singleton] at ha hb
      subst ha hb
      omega

theorem before_of_mem_ancestors (h : n ∈ F.ancestors m) : F.Before n m :=
  before_of_number_lt (W.linked.lt_of_mem_ancestors h).2 (W.linked.lt_of_mem_ancestors h).1

/-- Of two nodes of which the first is no ancestor of the second, all that is below the first comes
before all that is below the second. -/
theorem before_of_below (ha : F.Has a) (hb : F.Has b) (hlt : F.Before a b)
    (hab : a ∉ F.ancestors b) (hx : F.Below a x) (hy : F.Below b y) : F.Before x y := by
  have hxd := W.linked.document_of_below hx
  have hyd := W.linked.document_of_below hy
  rw [before_iff] at *
  simp only [orderKey, document?_congr hxd, document?_congr hyd] at *
  rcases hlt with hlt | ⟨heq, hlt⟩
  · exact Or.inl hlt
  · exact Or.inr ⟨heq, W.numbered.number_lt_of_below (W.ids a b ha hb heq) hlt hab hx hy⟩

/-- What lies below nodes that are not below each other comes in the order of those nodes. -/
theorem ascending_flatMap {f : Node → List Node} (hns : F.Ascending ns) (hpeers : F.Peers ns)
    (hhas : ∀ n ∈ ns, F.Has n) (hbelow : ∀ n ∈ ns, ∀ m ∈ f n, F.Below n m)
    (hf : ∀ n ∈ ns, F.Ascending (f n)) : F.Ascending (ns.flatMap f) := by
  unfold Ascending at *
  rw [List.pairwise_flatMap]
  refine ⟨hf, List.Pairwise.imp_of_mem ?_ hns⟩
  intro a b ha hb hab x hx y hy
  exact W.before_of_below (hhas a ha) (hhas b hb) hab (hpeers a ha b hb) (hbelow a ha x hx)
    (hbelow b hb y hy)

theorem peers_flatMap {f : Node → List Node} (hpeers : F.Peers ns)
    (hhas : ∀ n ∈ ns, F.Has n) (hbelow : ∀ n ∈ ns, ∀ m ∈ f n, F.Below n m)
    (hf : ∀ n ∈ ns, F.Peers (f n)) : F.Peers (ns.flatMap f) := by
  intro x hx y hy hxy
  obtain ⟨a, ha, hx⟩ := List.mem_flatMap.mp hx
  obtain ⟨b, hb, hy⟩ := List.mem_flatMap.mp hy
  have hax := hbelow a ha x hx
  have hby := hbelow b hb y hy
  have hxylt := W.before_of_mem_ancestors hxy
  have hay := W.linked.below_trans hax (Or.inr hxy)
  rcases W.before_or_eq_or_before (hhas a ha) (hhas b hb) with hab | rfl | hba
  · exact Before.irrefl F y (W.before_of_below (hhas a ha) (hhas b hb) hab (hpeers a ha b hb) hay hby)
  · exact hf a ha x hx y hy hxy
  · exact Before.irrefl F y (W.before_of_below (hhas b hb) (hhas a ha) hba (hpeers b hb a ha) hby hay)

/-! ## Children, attributes and namespace nodes -/

theorem ascending_children (n : Node) : F.Ascending (F.children n) :=
  W.numbered.ascending_children n

theorem ascending_attributes (n : Node) : F.Ascending (F.attributes n) :=
  W.numbered.ascending_attributes n

theorem ascending_namespaces (n : Node) : F.Ascending (F.namespaces n) :=
  W.numbered.ascending_namespaces n

theorem peers_of_parent (h : ∀ m ∈ ns, F.parent? m = some p) : F.Peers ns :=
  fun a ha b hb => W.linked.not_mem_ancestors_of_sibling (h a ha) (h b hb)

/-! ## Subtrees -/

theorem ascending_subtree (n : Node) : F.Ascending (F.subtree n) := W.numbered.ascending_subtree n

theorem ascending_subtrees (hns : F.Ascending ns) (hparent : ∀ m ∈ ns, F.parent? m = some p) :
    F.Ascending (ns.flatMap F.subtree) :=
  W.ascending_flatMap hns (W.peers_of_parent hparent) (fun c hc => has_of_parent (hparent c hc))
    (fun _ _ _ => W.linked.below_of_mem_subtree) (fun c _ => W.ascending_subtree c)

theorem ascending_descendants (n : Node) : F.Ascending (F.descendants n) :=
  W.ascending_subtrees (W.ascending_children n) fun _ => W.linked.parent_of_mem_children

/-! ## Siblings -/

theorem before_of_mem_siblingsAfter (h : m ∈ F.siblingsAfter n) : F.Before n m := by
  obtain ⟨p, hp, hn, -⟩ := exists_of_mem_siblingsAfter h
  have hasc := W.ascending_children p
  rw [W.linked.siblings_split hp hn, Ascending, List.pairwise_append] at hasc
  exact (ascending_cons.mp hasc.2.1).1 m h

theorem before_of_mem_siblingsBefore (h : m ∈ F.siblingsBefore n) : F.Before m n := by
  obtain ⟨p, hp, hn, -⟩ := exists_of_mem_siblingsBefore h
  have hasc := W.ascending_children p
  rw [W.linked.siblings_split hp hn, Ascending, List.pairwise_append] at hasc
  exact hasc.2.2 m h n (by simp)

theorem ascending_siblingsAfter (n : Node) : F.Ascending (F.siblingsAfter n) := by
  cases hp : F.parent? n with
  | none => simp [siblingsAfter_of_no_parent hp]
  | some p => exact (W.ascending_children p).sublist (siblingsAfter_sublist hp)

theorem ascending_siblingsBefore (n : Node) : F.Ascending (F.siblingsBefore n) := by
  cases hp : F.parent? n with
  | none => simp [siblingsBefore_of_no_parent hp]
  | some p => exact (W.ascending_children p).sublist (siblingsBefore_sublist hp)

/-! ## Everything behind a node and everything before it

The content of the siblings comes first, then what lies beyond the parent, which is beyond all that
the parent holds. -/

theorem before_of_mem_nodesAfter (h : x ∈ F.nodesAfter n) (hk : F.Below n k) : F.Before k x := by
  induction n using W.linked.induction generalizing k with
  | top n hp => simp [nodesAfter_of_no_parent hp] at h
  | below n p hp ih =>
      rw [W.linked.nodesAfter_of_parent hp, List.mem_append] at h
      rcases h with h | h
      · obtain ⟨s, hs, hx⟩ := List.mem_flatMap.mp h
        have hsp := W.linked.parent_of_mem_siblingsAfter hp hs
        exact W.before_of_below (has_of_parent hp) (has_of_parent hsp)
          (W.before_of_mem_siblingsAfter hs) (W.linked.not_mem_ancestors_of_sibling hp hsp) hk
          (W.linked.below_of_mem_subtree hx)
      · exact ih h (W.linked.below_trans (W.linked.below_of_parent hp) hk)

theorem before_of_mem_nodesBefore (h : x ∈ F.nodesBefore n) (hk : F.Below n k) :
    F.Before x k := by
  induction n using W.linked.induction generalizing k with
  | top n hp => simp [nodesBefore_of_no_parent hp] at h
  | below n p hp ih =>
      rw [W.linked.nodesBefore_of_parent hp, List.mem_append, List.mem_reverse] at h
      rcases h with h | h
      · obtain ⟨s, hs, hx⟩ := List.mem_flatMap.mp h
        have hsp := W.linked.parent_of_mem_siblingsBefore hp hs
        exact W.before_of_below (has_of_parent hsp) (has_of_parent hp)
          (W.before_of_mem_siblingsBefore hs) (W.linked.not_mem_ancestors_of_sibling hsp hp)
          (W.linked.below_of_mem_subtree hx) hk
      · exact ih h (W.linked.below_trans (W.linked.below_of_parent hp) hk)

theorem ascending_nodesAfter (n : Node) : F.Ascending (F.nodesAfter n) := by
  induction n using W.linked.induction with
  | top n hp => simp [nodesAfter_of_no_parent hp]
  | below n p hp ih =>
      rw [W.linked.nodesAfter_of_parent hp, Ascending, List.pairwise_append]
      have hparent := fun s (hs : s ∈ F.siblingsAfter n) =>
        W.linked.parent_of_mem_siblingsAfter hp hs
      refine ⟨W.ascending_subtrees (W.ascending_siblingsAfter n) hparent, ih, ?_⟩
      intro x hx y hy
      obtain ⟨s, hs, hx⟩ := List.mem_flatMap.mp hx
      exact W.before_of_mem_nodesAfter hy
        (W.linked.below_trans (W.linked.below_of_parent (hparent s hs))
          (W.linked.below_of_mem_subtree hx))

theorem descending_nodesBefore (n : Node) : F.Descending (F.nodesBefore n) := by
  induction n using W.linked.induction with
  | top n hp => simp [nodesBefore_of_no_parent hp, Descending]
  | below n p hp ih =>
      rw [W.linked.nodesBefore_of_parent hp, Descending, List.pairwise_append, List.pairwise_reverse]
      have hparent := fun s (hs : s ∈ F.siblingsBefore n) =>
        W.linked.parent_of_mem_siblingsBefore hp hs
      refine ⟨W.ascending_subtrees (W.ascending_siblingsBefore n) hparent, ih, ?_⟩
      intro x hx y hy
      obtain ⟨s, hs, hx⟩ := List.mem_flatMap.mp (List.mem_reverse.mp hx)
      exact W.before_of_mem_nodesBefore hy
        (W.linked.below_trans (W.linked.below_of_parent (hparent s hs))
          (W.linked.below_of_mem_subtree hx))

/-! ## The axes -/

theorem descending_ancestors (n : Node) : F.Descending (F.ancestors n) := by
  induction n using W.linked.induction with
  | top n hp => simp [ancestors_of_no_parent hp, Descending]
  | below n p hp ih =>
      rw [W.linked.ancestors_of_parent hp, Descending, List.pairwise_cons]
      exact ⟨fun a ha => W.before_of_mem_ancestors ha, ih⟩

theorem ascending_onAxis (h : axis.isSorted = true) (n : Node) : F.Ascending (F.onAxis axis n) := by
  cases axis with
  | child => exact W.ascending_children n
  | attributeAxis => exact W.ascending_attributes n
  | namespaceAxis => exact W.ascending_namespaces n
  | selfAxis => exact ascending_singleton F n
  | parent => exact ascending_toList F _
  | followingSibling => exact W.ascending_siblingsAfter n
  | descendant => exact W.ascending_descendants n
  | descendantOrSelf =>
      rw [onAxis, ascending_cons]
      exact ⟨fun m hm => W.before_of_mem_ancestors (W.linked.below_of_mem_descendants hm),
        W.ascending_descendants n⟩
  | following =>
      show F.Ascending (F.followingNodes n)
      unfold followingNodes
      split
      · exact W.ascending_nodesAfter n
      · cases hp : F.parent? n with
        | none => exact ascending_nil
        | some p =>
            refine List.pairwise_append.mpr
              ⟨W.ascending_descendants p, W.ascending_nodesAfter p, ?_⟩
            intro x hx y hy
            exact W.before_of_mem_nodesAfter hy (Or.inr (W.linked.below_of_mem_descendants hx))
  | ancestor | ancestorOrSelf | preceding | precedingSibling => cases h

theorem descending_onAxis (h : axis.isReverseSorted = true) (n : Node) :
    F.Descending (F.onAxis axis n) := by
  cases axis with
  | ancestor => exact W.descending_ancestors n
  | ancestorOrSelf =>
      rw [onAxis, Descending, List.pairwise_cons]
      exact ⟨fun a ha => W.before_of_mem_ancestors ha, W.descending_ancestors n⟩
  | preceding =>
      show F.Descending (F.precedingNodes n)
      unfold precedingNodes
      split
      · exact W.descending_nodesBefore n
      · cases hp : F.parent? n with
        | none => exact List.Pairwise.nil
        | some p => exact W.descending_nodesBefore p
  | precedingSibling =>
      rw [onAxis, descending_iff_ascending_reverse, List.reverse_reverse]
      exact W.ascending_siblingsBefore n
  | child | attributeAxis | namespaceAxis | selfAxis | parent | followingSibling | descendant
  | descendantOrSelf | following => cases h

/-- The nodes on a peer axis are not below each other. -/
theorem peers_onAxis (h : axis.isPeer = true) (n : Node) : F.Peers (F.onAxis axis n) := by
  cases axis with
  | child => exact W.peers_of_parent fun m => W.linked.parent_of_mem_children
  | attributeAxis => exact W.peers_of_parent fun m hm => ((W.mem_attributes n m).mp hm).1
  | namespaceAxis => exact W.peers_of_parent fun m hm => ((W.mem_namespaces n m).mp hm).1
  | selfAxis => exact W.peers_of_length_le_one (Nat.le_refl 1)
  | parent =>
      apply W.peers_of_length_le_one
      rw [onAxis]
      cases F.parent? n <;> simp
  | followingSibling =>
      cases hp : F.parent? n with
      | none => simp [onAxis, siblingsAfter_of_no_parent hp, Peers]
      | some p => exact W.peers_of_parent fun m => W.linked.parent_of_mem_siblingsAfter hp
  | precedingSibling =>
      cases hp : F.parent? n with
      | none => simp [onAxis, siblingsBefore_of_no_parent hp, Peers]
      | some p =>
          exact W.peers_of_parent fun m hm =>
            W.linked.parent_of_mem_siblingsBefore hp (List.mem_reverse.mp hm)
  | ancestor | ancestorOrSelf | descendant | descendantOrSelf | following | preceding => cases h

theorem below_of_mem_onAxis (h : axis.isWithinSubtree = true) (hm : m ∈ F.onAxis axis n) :
    F.Below n m := by
  cases axis with
  | child => exact W.linked.below_of_parent (W.linked.parent_of_mem_children hm)
  | attributeAxis => exact W.linked.below_of_parent ((W.mem_attributes n m).mp hm).1
  | namespaceAxis => exact W.linked.below_of_parent ((W.mem_namespaces n m).mp hm).1
  | selfAxis => exact Or.inl (List.mem_singleton.mp hm)
  | descendant => exact Or.inr (W.linked.below_of_mem_descendants hm)
  | descendantOrSelf =>
      rcases List.mem_cons.mp hm with rfl | hm
      · exact Below.refl F m
      · exact Or.inr (W.linked.below_of_mem_descendants hm)
  | ancestor | ancestorOrSelf | following | followingSibling | parent | preceding
  | precedingSibling => cases h

end WellFormed

end XPath.Forest
