import XPath.Expr.Simplify
import XPath.Proofs.Result
import XPath.Proofs.Tree.Traversal

/-!
# Steps that select nothing

Simplification goes by the axis and the kind of node alone when it takes a step for impossible. Of the
nodes on the axis that is right (`Expr.accepts_of_isImpossible`), except for the origin itself, which
may be an attribute or a namespace node (`Expr.items_of_impossible_step`).
-/

namespace XPath

variable {F : Forest} {axis : Axis} {test : NodeTest} {m n : Node} {s start : Expr}

namespace Expr

/-- Nodes of the sort that an axis leads to do not pass a test that is impossible there. -/
theorem accepts_of_isImpossible {kind : NodeKind} {type : NodeType}
    (h : isImpossible axis kind = true) (htype : axis.leadsTo type = true) :
    kind.accepts type = false := by
  cases axis with
  | attributeAxis | namespaceAxis =>
      obtain rfl := beq_iff_eq.mp htype
      cases kind <;> first | rfl | cases h
  | _ =>
      simp only [Axis.leadsTo, Bool.and_eq_true, bne_iff_ne] at htype
      cases kind <;> first | exact absurd h (by decide) | simp [NodeKind.accepts, htype]

/-- Of the nodes on an axis only the origin passes a test that is impossible there. -/
theorem filter_of_isImpossible (L : F.Linked) (h : isImpossible axis test.kind = true) (n : Node) :
    (F.onAxis axis n).filter (test.accepts F) =
      if axis.includesOrigin && test.accepts F n then [n] else [] := by
  have horigin {m : Node} (hm : m ∈ (F.onAxis axis n).filter (test.accepts F)) :
      (axis.includesOrigin && test.accepts F n) = true ∧ m = n := by
    obtain ⟨hm, haccepts⟩ := List.mem_filter.mp hm
    rcases L.leadsTo_of_mem_onAxis hm with ⟨haxis, rfl⟩ | htype
    · exact ⟨Bool.and_eq_true_iff.mpr ⟨haxis, haccepts⟩, rfl⟩
    · have hkind := (Bool.and_eq_true_iff.mp haccepts).1
      rw [accepts_of_isImpossible h htype] at hkind
      cases hkind
  split
  · rename_i hboth
    obtain ⟨haxis, haccepts⟩ := Bool.and_eq_true_iff.mp hboth
    have hmem : n ∈ F.onAxis axis n := by
      cases axis <;> first | exact List.mem_cons_self | cases haxis
    rw [← List.perm_singleton, List.perm_ext_iff_of_nodup ((L.nodup_onAxis axis n).filter _)
      (List.nodup_singleton n)]
    intro m
    rw [List.mem_singleton]
    refine ⟨fun hm => (horigin hm).2, ?_⟩
    rintro rfl
    exact List.mem_filter.mpr ⟨hmem, haccepts⟩
  · rename_i hnot
    exact List.eq_nil_iff_forall_not_mem.mpr fun m hm => hnot (horigin hm).1

/-- A step is impossible if it is replaced by the empty node-set whatever its predicates are. -/
theorem isImpossible_iff (hs : start.simplify F = .ok s) (hne : s.isEmptyNodeSet = false) :
    isImpossible axis test.kind = true ↔
      ∀ predicates, (path start axis test predicates).simplify F = .ok emptyNodeSet := by
  constructor
  · intro h predicates
    rw [simplify, hs, ok_bind, h, Bool.or_true, if_pos rfl]
    rfl
  · intro h
    by_contra hnot
    rw [Bool.not_eq_true] at hnot
    have hempty := h []
    rw [simplify, hs, ok_bind, hne, hnot, Bool.or_false, if_neg Bool.false_ne_true,
      simplifyPredicates, ok_bind, pure_eq_ok] at hempty
    unfold ofPath at hempty
    split at hempty
    · rw [hempty] at hne
      cases hne
    · split at hempty <;> cases hempty

/-- A step that simplification takes for impossible lists nothing but its origin, and that only if the
axis starts with it and it passes the test. -/
theorem items_of_impossible_step (L : F.Linked) (hs : start.simplify F = .ok s)
    (hne : s.isEmptyNodeSet = false)
    (h : ∀ predicates, (path start axis test predicates).simplify F = .ok emptyNodeSet) (n : Node) :
    (axisEnumeration F axis n (some test)).items =
      if axis.includesOrigin && test.accepts F n then [.ok n] else [] := by
  have hitems : (axisEnumeration F axis n (some test)).items =
      ((F.onAxis axis n).filter (test.accepts F)).map .ok := by
    rw [axisEnumeration, L.walk_eq]
    rfl
  rw [hitems, filter_of_isImpossible L ((isImpossible_iff hs hne).mpr h)]
  split <;> rfl

/-- In `<r><a k="v"/><b/></r>` no step `self::attribute()` is kept, although the attribute is on its
own axis, while there is nothing to list from the element. -/
theorem items_of_impossible_step_attributed :
    (axisEnumeration .attributed .selfAxis ⟨0, 3⟩ (some (.ofKind .attributeNode))).items =
        [.ok ⟨0, 3⟩] ∧
      (axisEnumeration .attributed .selfAxis ⟨0, 2⟩ (some (.ofKind .attributeNode))).items = [] := by
  have hstart : contextNode.simplify .attributed = .ok contextNode := by rw [simplify]
  have hempty (predicates : List Expr) : (path contextNode .selfAxis (.ofKind .attributeNode)
      predicates).simplify .attributed = .ok emptyNodeSet := by
    rw [simplify, hstart]
    rfl
  have hitems := items_of_impossible_step Forest.linked_attributed hstart rfl hempty
  exact ⟨(hitems ⟨0, 3⟩).trans (by decide), (hitems ⟨0, 2⟩).trans (by decide)⟩

/-- An attribute is on its own `self` axis and is an attribute, so the step is not impossible. -/
theorem not_items_of_impossible_step : ¬∀ (F : Forest) (start s : Expr) (axis : Axis)
    (test : NodeTest) (n : Node), F.Linked → start.simplify F = .ok s → s.isEmptyNodeSet = false →
      (∀ predicates, (path start axis test predicates).simplify F = .ok emptyNodeSet) →
        (axisEnumeration F axis n (some test)).items = [] := by
  intro h
  have hnil := h .attributed contextNode contextNode .selfAxis (.ofKind .attributeNode) ⟨0, 3⟩
    Forest.linked_attributed (by rw [simplify]) rfl fun predicates => by rw [simplify, simplify]; rfl
  revert hnil
  decide +kernel

end Expr

end XPath
