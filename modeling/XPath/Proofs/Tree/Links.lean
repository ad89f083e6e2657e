import Mathlib.Data.List.Nodup
import Mathlib.Data.List.TakeWhile
import Mathlib.Tactic.ByContra
import XPath.Axis

/-!
# Forests whose links agree

A node that is a child of another has it as its parent, and so on (`Forest.Linked`). That is enough to
say what lies below a node (`Forest.Linked.mem_subtree`), next to it and beyond it.
-/

namespace XPath.Forest

/-- `n` is a node of the forest. -/
def Has (F : Forest) (n : Node) : Prop := n.number < F.size n

instance (F : Forest) (n : Node) : Decidable (F.Has n) :=
  inferInstanceAs (Decidable (n.number < F.size n))

/-- The links of a forest of trees: parents come before their children, and every node is in the list
of its kind at its parent. -/
structure Linked (F : Forest) : Prop where
  parent_lt : ∀ n p, F.parent? n = some p → p.number < n.number
  isTreeNode_parent : ∀ n p, F.parent? n = some p → F.isTreeNode p = true
  mem_children : ∀ n m, m ∈ F.children n ↔ F.parent? m = some n ∧ F.isTreeNode m = true
  mem_attributes : ∀ n m, m ∈ F.attributes n ↔ F.parent? m = some n ∧ F.type m = .attributeNode
  mem_namespaces : ∀ n m, m ∈ F.namespaces n ↔ F.parent? m = some n ∧ F.type m = .namespaceNode
  children_nodup : ∀ n, (F.children n).Nodup
  attributes_nodup : ∀ n, (F.attributes n).Nodup
  namespaces_nodup : ∀ n, (F.namespaces n).Nodup

variable {F : Forest} {a b k m n p x : Node} {ns : List Node}

theorem document_parent (h : F.parent? n = some p) : p.document = n.document := by
  obtain ⟨i, -, rfl⟩ := Option.map_eq_some_iff.mp h
  rfl

theorem document?_congr (h : m.document = n.document) : F.document? m = F.document? n := by
  rw [document?, document?, h]

theorem size_congr (h : m.document = n.document) : F.size m = F.size n := by
  rw [size, size, document?_congr h]

theorem record_of_not_has (h : ¬F.Has n) : F.record n = .leaf .root none "" none := by
  unfold record
  cases hd : F.document? n with
  | none => rfl
  | some d =>
      have hsize : d.nodes.size ≤ n.number := by simpa [Has, size, hd] using h
      simp [hsize]

theorem has_of_parent (h : F.parent? n = some p) : F.Has n := by
  by_contra hn
  simp [parent?, record_of_not_has hn, NodeRecord.leaf] at h

theorem has_of_type (h : F.type n ≠ .root) : F.Has n := by
  by_contra hn
  simp [type, record_of_not_has hn, NodeRecord.leaf] at h

theorem ancestors_of_no_parent (h : F.parent? n = none) : F.ancestors n = [] := by
  unfold ancestors
  cases n.number <;> simp [ancestorsUpTo, h]

theorem exists_parent (h : a ∈ F.ancestors n) : ∃ p, F.parent? n = some p := by
  cases hp : F.parent? n with
  | none => simp [ancestors_of_no_parent hp] at h
  | some p => exact ⟨p, rfl⟩

theorem documentRoot_of_no_parent (h : F.parent? n = none) : F.documentRoot n = n := by
  rw [documentRoot, ancestors_of_no_parent h]
  rfl

/-- `m` is `n` or below `n`. -/
def Below (F : Forest) (n m : Node) : Prop := m = n ∨ n ∈ F.ancestors m

theorem Below.refl (F : Forest) (n : Node) : F.Below n n := Or.inl rfl

theorem below_documentRoot (F : Forest) (n : Node) : F.Below (F.documentRoot n) n := by
  unfold documentRoot
  cases hlast : (F.ancestors n).getLast? with
  | none => exact Below.refl F n
  | some a => exact Or.inr (List.mem_of_getLast? hlast)

theorem has_of_below (hn : F.Has n) (h : F.Below n m) : F.Has m := by
  rcases h with rfl | h
  · exact hn
  · obtain ⟨p, hp⟩ := exists_parent h
    exact has_of_parent hp

theorem siblingsAfter_sublist (hp : F.parent? n = some p) :
    (F.siblingsAfter n).Sublist (F.children p) := by
  unfold siblingsAfter
  split
  · rw [hp]
    exact (List.drop_sublist _ _).trans (List.dropWhile_sublist _)
  · exact List.nil_sublist _

theorem siblingsBefore_sublist (hp : F.parent? n = some p) :
    (F.siblingsBefore n).Sublist (F.children p) := by
  unfold siblingsBefore
  split
  · simp only [hp]
    split
    · exact List.takeWhile_sublist _
    · exact List.nil_sublist _
  · exact List.nil_sublist _

theorem siblingsAfter_of_no_parent (hp : F.parent? n = none) : F.siblingsAfter n = [] := by
  simp [siblingsAfter, hp]

theorem siblingsBefore_of_no_parent (hp : F.parent? n = none) : F.siblingsBefore n = [] := by
  simp [siblingsBefore, hp]

theorem exists_of_mem_siblingsAfter (h : m ∈ F.siblingsAfter n) :
    ∃ p, F.parent? n = some p ∧ F.isTreeNode n = true ∧ m ∈ F.children p := by
  have hn : F.isTreeNode n = true := by
    by_contra hn
    simp [siblingsAfter, hn] at h
  cases hp : F.parent? n with
  | none => simp [siblingsAfter_of_no_parent hp] at h
  | some p => exact ⟨p, rfl, hn, (siblingsAfter_sublist hp).subset h⟩

theorem exists_of_mem_siblingsBefore (h : m ∈ F.siblingsBefore n) :
    ∃ p, F.parent? n = some p ∧ F.isTreeNode n = true ∧ m ∈ F.children p := by
  have hn : F.isTreeNode n = true := by
    by_contra hn
    simp [siblingsBefore, hn] at h
  cases hp : F.parent? n with
  | none => simp [siblingsBefore_of_no_parent hp] at h
  | some p => exact ⟨p, rfl, hn, (siblingsBefore_sublist hp).subset h⟩

/-- What comes behind all that `n` holds, in document order. -/
def nodesAfter (F : Forest) (n : Node) : List Node :=
  (n :: F.ancestors n).flatMap fun a => (F.siblingsAfter a).flatMap F.subtree

/-- What comes before `n` without its ancestors, nearest first. -/
def nodesBefore (F : Forest) (n : Node) : List Node :=
  (n :: F.ancestors n).flatMap fun a =>
    (F.siblingsBefore a).reverse.flatMap fun s => (F.subtree s).reverse

theorem nodesAfter_of_no_parent (hp : F.parent? n = none) : F.nodesAfter n = [] := by
  simp [nodesAfter, siblingsAfter_of_no_parent hp, ancestors_of_no_parent hp]

theorem nodesBefore_of_no_parent (hp : F.parent? n = none) : F.nodesBefore n = [] := by
  simp [nodesBefore, siblingsBefore_of_no_parent hp, ancestors_of_no_parent hp]

theorem flatMap_reverse_reverse (f : Node → List Node) (ns : List Node) :
    (ns.reverse.flatMap fun n => (f n).reverse) = (ns.flatMap f).reverse := by
  induction ns with
  | nil => rfl
  | cons n ns ih => simp [ih]

/-- The nodes before `n` in document order but for its ancestors, attributes and namespace nodes,
nearest first. An attribute has the same ones as its element. -/
def precedingNodes (F : Forest) (n : Node) : List Node :=
  let before (m : Node) : List Node :=
    (m :: F.ancestors m).flatMap fun a =>
      (F.siblingsBefore a).reverse.flatMap fun s => (F.subtree s).reverse
  if F.isTreeNode n then before n
  else ((F.parent? n).map before).getD []

/-- The nodes after `n` in document order but for its descendants, attributes and namespace
nodes. For an attribute the content of its element comes first. -/
def followingNodes (F : Forest) (n : Node) : List Node :=
  let after (m : Node) : List Node :=
    (m :: F.ancestors m).flatMap fun a => (F.siblingsAfter a).flatMap F.subtree
  if F.isTreeNode n then after n
  else ((F.parent? n).map fun p => F.descendants p ++ after p).getD []

def onAxis (F : Forest) (axis : Axis) (n : Node) : List Node :=
  match axis with
  | .child => F.children n
  | .attributeAxis => F.attributes n
  | .namespaceAxis => F.namespaces n
  | .selfAxis => [n]
  | .parent => (F.parent? n).toList
  | .followingSibling => F.siblingsAfter n
  | .precedingSibling => (F.siblingsBefore n).reverse
  | .preceding => F.precedingNodes n
  | .following => F.followingNodes n
  | .descendant => F.descendants n
  | .descendantOrSelf => n :: F.descendants n
  | .ancestor => F.ancestors n
  | .ancestorOrSelf => n :: F.ancestors n

namespace Linked

variable (L : F.Linked)

include L

/-! ## Ancestors -/

theorem has_parent (h : F.parent? n = some p) : F.Has p := by
  have hn := has_of_parent h
  have hlt := L.parent_lt n p h
  unfold Has at *
  rw [size_congr (document_parent h)]
  omega

theorem ancestorsUpTo_eq {i j : Nat} (hi : n.number ≤ i) (hj : n.number ≤ j) :
    F.ancestorsUpTo i n = F.ancestorsUpTo j n := by
  induction i generalizing j n with
  | zero =>
      have hnone : F.parent? n = none := by
        cases h : F.parent? n with
        | none => rfl
        | some p =>
            have := L.parent_lt n p h
            omega
      cases j <;> simp [ancestorsUpTo, hnone]
  | succ i ih =>
      cases hp : F.parent? n with
      | none => cases j <;> simp [ancestorsUpTo, hp]
      | some p =>
          have hlt := L.parent_lt n p hp
          cases j with
          | zero => omega
          | succ j =>
              simp only [ancestorsUpTo, hp]
              rw [ih (show p.number ≤ i by omega) (show p.number ≤ j by omega)]

theorem ancestors_of_parent (h : F.parent? n = some p) : F.ancestors n = p :: F.ancestors p := by
  have hlt := L.parent_lt n p h
  obtain ⟨i, hi⟩ : ∃ i, n.number = i + 1 := ⟨n.number - 1, by omega⟩
  have hsame := L.ancestorsUpTo_eq (show p.number ≤ i by omega) (Nat.le_refl _)
  simp only [ancestors, hi, ancestorsUpTo, h, hsame]

theorem mem_ancestors (h : F.parent? n = some p) :
    a ∈ F.ancestors n ↔ a = p ∨ a ∈ F.ancestors p := by
  rw [L.ancestors_of_parent h, List.mem_cons]

theorem induction {motive : Node → Prop} (top : ∀ n, F.parent? n = none → motive n)
    (below : ∀ n p, F.parent? n = some p → motive p → motive n) (n : Node) : motive n := by
  induction hk : n.number using Nat.strongRecOn generalizing n with
  | _ k ih =>
      cases hp : F.parent? n with
      | none => exact top n hp
      | some p => exact below n p hp (ih p.number (hk ▸ L.parent_lt n p hp) p rfl)

theorem lt_of_mem_ancestors (h : a ∈ F.ancestors n) :
    a.number < n.number ∧ a.document = n.document := by
  induction n using L.induction with
  | top n hp => simp [ancestors_of_no_parent hp] at h
  | below n p hp ih =>
      have hlt := L.parent_lt n p hp
      have hdoc := document_parent hp
      rcases (L.mem_ancestors hp).mp h with rfl | h
      · exact ⟨hlt, hdoc⟩
      · obtain ⟨hap, hd⟩ := ih h
        exact ⟨by omega, hd.trans hdoc⟩

theorem mem_ancestors_trans (hk : k ∈ F.ancestors m) (hm : m ∈ F.ancestors n) :
    k ∈ F.ancestors n := by
  induction n using L.induction with
  | top n hp => simp [ancestors_of_no_parent hp] at hm
  | below n p hp ih =>
      rw [L.mem_ancestors hp] at hm ⊢
      rcases hm with rfl | hm
      · exact Or.inr hk
      · exact Or.inr (ih hm)

theorem has_of_mem_ancestors (h : a ∈ F.ancestors n) : F.Has a := by
  induction n using L.induction with
  | top n hp => simp [ancestors_of_no_parent hp] at h
  | below n p hp ih =>
      rcases (L.mem_ancestors hp).mp h with rfl | h
      · exact L.has_parent hp
      · exact ih h

theorem isTreeNode_of_mem_ancestors (h : a ∈ F.ancestors n) : F.isTreeNode a = true := by
  induction n using L.induction with
  | top n hp => simp [ancestors_of_no_parent hp] at h
  | below n p hp ih =>
      rcases (L.mem_ancestors hp).mp h with rfl | h
      · exact L.isTreeNode_parent n a hp
      · exact ih h

theorem below_trans (hkm : F.Below k m) (hmn : F.Below m n) : F.Below k n := by
  rcases hmn with rfl | hmn
  · exact hkm
  · rcases hkm with rfl | hkm
    · exact Or.inr hmn
    · exact Or.inr (L.mem_ancestors_trans hkm hmn)

theorem document_of_below (h : F.Below n m) : m.document = n.document := by
  rcases h with rfl | h
  · rfl
  · exact (L.lt_of_mem_ancestors h).2.symm

theorem number_le_of_below (h : F.Below n m) : n.number ≤ m.number := by
  rcases h with rfl | h
  · exact Nat.le_refl _
  · exact Nat.le_of_lt (L.lt_of_mem_ancestors h).1

theorem documentRoot_of_parent (h : F.parent? n = some p) :
    F.documentRoot n = F.documentRoot p := by
  rw [documentRoot, documentRoot, L.ancestors_of_parent h, List.getLast?_cons]
  rfl

theorem documentRoot_of_below (h : F.Below a n) : F.documentRoot a = F.documentRoot n := by
  induction n using L.induction with
  | top n hp =>
      rw [Below, ancestors_of_no_parent hp] at h
      simp_all
  | below n p hp ih =>
      rcases h with rfl | h
      · rfl
      · rw [L.documentRoot_of_parent hp]
        exact ih (((L.mem_ancestors hp).mp h).imp_left Eq.symm)

theorem parent_documentRoot (n : Node) : F.parent? (F.documentRoot n) = none := by
  induction n using L.induction with
  | top n hp => rwa [documentRoot_of_no_parent hp]
  | below n p hp ih => rwa [L.documentRoot_of_parent hp]

theorem has_documentRoot (h : F.Has n) : F.Has (F.documentRoot n) := by
  rcases below_documentRoot F n with heq | hmem
  · rwa [← heq]
  · exact L.has_of_mem_ancestors hmem

/-! ## Children -/

theorem parent_of_mem_children (h : m ∈ F.children n) : F.parent? m = some n :=
  ((L.mem_children n m).mp h).1

theorem below_of_parent (h : F.parent? m = some p) : F.Below p m :=
  Or.inr ((L.mem_ancestors h).mpr (Or.inl rfl))

theorem not_mem_ancestors_of_sibling (ha : F.parent? a = some p) (hb : F.parent? b = some p) :
    a ∉ F.ancestors b := by
  have hlt := L.parent_lt a p ha
  rw [L.mem_ancestors hb]
  rintro (rfl | h)
  · omega
  · have := (L.lt_of_mem_ancestors h).1
    omega

/-! ## Subtrees -/

theorem exists_child (h : n ∈ F.ancestors m) (hm : F.isTreeNode m = true) :
    ∃ c ∈ F.children n, F.Below c m := by
  induction m using L.induction with
  | top m hp => simp [ancestors_of_no_parent hp] at h
  | below m p hp ih =>
      rcases (L.mem_ancestors hp).mp h with rfl | h
      · exact ⟨m, (L.mem_children n m).mpr ⟨hp, hm⟩, Below.refl F m⟩
      · obtain ⟨c, hc, hcp⟩ := ih h (L.isTreeNode_parent m p hp)
        exact ⟨c, hc, L.below_trans hcp (L.below_of_parent hp)⟩

theorem below_of_mem_subtreeTo {depth : Nat} (h : m ∈ F.subtreeTo depth n) : F.Below n m := by
  induction depth generalizing n with
  | zero =>
      rw [subtreeTo, List.mem_singleton] at h
      exact Or.inl h
  | succ depth ih =>
      rw [subtreeTo, List.mem_cons, List.mem_flatMap] at h
      rcases h with rfl | ⟨c, hc, hm⟩
      · exact Below.refl F m
      · exact L.below_trans (L.below_of_parent (L.parent_of_mem_children hc)) (ih hm)

theorem isTreeNode_of_mem_subtreeTo {depth : Nat} (h : m ∈ F.subtreeTo depth n) :
    m = n ∨ F.isTreeNode m = true := by
  induction depth generalizing n with
  | zero =>
      rw [subtreeTo, List.mem_singleton] at h
      exact Or.inl h
  | succ depth ih =>
      rw [subtreeTo, List.mem_cons, List.mem_flatMap] at h
      rcases h with rfl | ⟨c, hc, hm⟩
      · exact Or.inl rfl
      · right
        rcases ih hm with rfl | hm
        · exact ((L.mem_children n m).mp hc).2
        · exact hm

theorem mem_subtreeTo {depth : Nat} (hdepth : F.size n ≤ n.number + depth + 1)
    (h : n ∈ F.ancestors m) (hm : F.isTreeNode m = true) : m ∈ F.subtreeTo depth n := by
  induction depth generalizing n with
  | zero =>
      obtain ⟨hlt, hdoc⟩ := L.lt_of_mem_ancestors h
      obtain ⟨p, hp⟩ := exists_parent h
      have hhas := has_of_parent hp
      rw [Has, size_congr hdoc.symm] at hhas
      omega
  | succ depth ih =>
      obtain ⟨c, hc, hcm⟩ := L.exists_child h hm
      have hparent := L.parent_of_mem_children hc
      have hlt := L.parent_lt c n hparent
      rw [subtreeTo, List.mem_cons, List.mem_flatMap]
      refine Or.inr ⟨c, hc, ?_⟩
      rcases hcm with rfl | hcm
      · cases depth <;> simp [subtreeTo]
      · apply ih _ hcm
        rw [size_congr (document_parent hparent).symm]
        omega

theorem below_of_mem_subtree (h : m ∈ F.subtree n) : F.Below n m := L.below_of_mem_subtreeTo h

theorem mem_subtree : m ∈ F.subtree n ↔ m = n ∨ n ∈ F.ancestors m ∧ F.isTreeNode m = true := by
  constructor
  · intro h
    rcases L.below_of_mem_subtree h with rfl | hanc
    · exact Or.inl rfl
    · rcases L.isTreeNode_of_mem_subtreeTo h with rfl | hm
      · exact Or.inl rfl
      · exact Or.inr ⟨hanc, hm⟩
  · rintro (rfl | ⟨h, hm⟩)
    · unfold subtree
      cases F.size m <;> simp [subtreeTo]
    · exact L.mem_subtreeTo (by omega) h hm

theorem below_of_mem_descendants (h : m ∈ F.descendants n) : n ∈ F.ancestors m := by
  obtain ⟨c, hc, hm⟩ := List.mem_flatMap.mp h
  have hparent := L.parent_of_mem_children hc
  rcases L.below_of_mem_subtree hm with rfl | hcm
  · exact (L.mem_ancestors hparent).mpr (Or.inl rfl)
  · exact L.mem_ancestors_trans ((L.mem_ancestors hparent).mpr (Or.inl rfl)) hcm

theorem mem_descendants : m ∈ F.descendants n ↔ n ∈ F.ancestors m ∧ F.isTreeNode m = true := by
  constructor
  · intro h
    refine ⟨L.below_of_mem_descendants h, ?_⟩
    obtain ⟨c, hc, hm⟩ := List.mem_flatMap.mp h
    rcases L.mem_subtree.mp hm with rfl | ⟨-, hm⟩
    · exact ((L.mem_children n m).mp hc).2
    · exact hm
  · rintro ⟨h, hm⟩
    obtain ⟨c, hc, hcm⟩ := L.exists_child h hm
    refine List.mem_flatMap.mpr ⟨c, hc, L.mem_subtree.mpr ?_⟩
    exact hcm.imp_right fun hanc => ⟨hanc, hm⟩

/-! ## Siblings, and everything beyond -/

theorem siblings_split (hp : F.parent? n = some p) (hn : F.isTreeNode n = true) :
    F.children p = F.siblingsBefore n ++ n :: F.siblingsAfter n := by
  have hmem : n ∈ F.children p := (L.mem_children p n).mpr ⟨hp, hn⟩
  have hsplit : (F.children p).takeWhile (· != n) ++ (F.children p).dropWhile (· != n) =
      F.children p := List.takeWhile_append_dropWhile
  simp only [siblingsBefore, siblingsAfter, hn, hp, if_true]
  rw [if_pos (by simpa using hmem)]
  cases hdrop : (F.children p).dropWhile (· != n) with
  | nil =>
      rw [List.dropWhile_eq_nil_iff] at hdrop
      simpa using hdrop n hmem
  | cons m rest =>
      have hhead : m = n := by
        have := List.head?_dropWhile_not (· != n) (F.children p)
        simpa [hdrop] using this
      rw [hdrop, hhead] at hsplit
      simpa using hsplit.symm

theorem parent_of_mem_siblingsAfter (hp : F.parent? n = some p) (h : m ∈ F.siblingsAfter n) :
    F.parent? m = some p :=
  L.parent_of_mem_children ((siblingsAfter_sublist hp).subset h)

theorem parent_of_mem_siblingsBefore (hp : F.parent? n = some p) (h : m ∈ F.siblingsBefore n) :
    F.parent? m = some p :=
  L.parent_of_mem_children ((siblingsBefore_sublist hp).subset h)

theorem nodesAfter_of_parent (hp : F.parent? n = some p) :
    F.nodesAfter n = (F.siblingsAfter n).flatMap F.subtree ++ F.nodesAfter p := by
  rw [nodesAfter, L.ancestors_of_parent hp, List.flatMap_cons, nodesAfter]

theorem nodesBefore_of_parent (hp : F.parent? n = some p) :
    F.nodesBefore n =
      ((F.siblingsBefore n).flatMap F.subtree).reverse ++ F.nodesBefore p := by
  rw [nodesBefore, L.ancestors_of_parent hp, List.flatMap_cons, nodesBefore,
    flatMap_reverse_reverse]

end Linked

end XPath.Forest
