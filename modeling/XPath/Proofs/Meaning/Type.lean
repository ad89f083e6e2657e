import XPath.Proofs.Meaning.Rebind

/-!
# The type of a meaning

An outcome has the static type of its expression, unless the expression is lazy: what is filtered
or stepped from need not be a node-set. Nodes are always in document order, and an expression that
selects at most one node comes to at most one.
-/

namespace XPath

variable {F : Forest} {Φ : Calls F} {Γ : Typing} {inner : Bool} {σ : Context} {D A B : Meaning}
  {w : Outcome} {ns : List Node}

/-! ## Nodes in document order -/

def Outcome.InOrder (F : Forest) (w : Outcome) : Prop := ∀ ns, w = .nodes ns → F.Ascending ns

namespace Meaning

theorem keep_sublist (B : Meaning) (σ : Context) (ns : List Node) : (B.keep σ ns).Sublist ns := by
  unfold keep
  have hsub := (List.filter_sublist (p := fun x : Node × Nat =>
    (B (σ.forItem x.1 x.2 (.known ns.length))).selects x.2) (l := ns.zipIdx 1)).map (·.1)
  rwa [List.zipIdx_map_fst] at hsub

theorem inOrder_select (h : w.InOrder F) : (B.select σ w).InOrder F := by
  intro ns hns
  cases w with
  | nodes ms =>
      cases hns
      exact (h ms rfl).sublist (keep_sublist B σ ms)
  | boolean | number | string | object =>
      dsimp only [select] at hns
      split at hns
      · cases hns
      · cases hns
        exact Forest.ascending_nil

theorem inOrder_selects (h : w.InOrder F) (Bs : List Meaning) :
    (Bs.foldl (fun w B => B.select σ w) w).InOrder F := by
  induction Bs generalizing w with
  | nil => exact h
  | cons B Bs ih => exact ih (inOrder_select h)

theorem inOrder_oneNode (bound : Option Node) (find : Node → Option Node) :
    (oneNode bound find σ).InOrder F := by
  rintro ns ⟨rfl⟩
  exact Forest.ascending_toList F _

end Meaning

theorem Outcome.inOrder_combine {a b : Outcome} (op : SetOperator) (ha : a.InOrder F)
    (hb : b.InOrder F) : (Outcome.combine F op a b).InOrder F := by
  intro ns hns
  unfold Outcome.combine at hns
  split at hns
  · cases hns
    exact Forest.ascending_combine (ha _ rfl) _
  · split at hns
    · exact hb ns hns
    · cases hns
      exact Forest.ascending_nil
  · split at hns
    · cases hns
      exact Forest.ascending_nil
    · exact ha ns hns
  · cases hns
    exact Forest.ascending_nil

namespace Expr

theorem Means.inOrder {e : Expr} {D : Meaning} (h : e.Means F Φ Γ inner D) : (D σ).InOrder F := by
  match e with
  | literal v | reference name display (some v) =>
      rw [Means] at h
      obtain ⟨w, hw, rfl⟩ := h
      exact hw.ascending
  | reference name display none =>
      rw [Means] at h
      obtain ⟨-, rfl⟩ := h
      intro ns hns
      unfold Meaning.binding at hns
      split at hns
      · exact ascending_outcome _ hns
      · cases hns
        exact Forest.ascending_nil
  | binary op lhs rhs =>
      rw [Means] at h
      obtain ⟨A, B, -, -, -, rfl⟩ := h
      rintro ns hns
      cases op <;> cases hns
  | negate e =>
      rw [Means] at h
      obtain ⟨A, -, rfl⟩ := h
      rintro ns ⟨⟩
  | nodeComparison node op v =>
      rw [Means] at h
      obtain ⟨-, -, A, -, rfl⟩ := h
      rintro ns ⟨⟩
  | contextNode | parentNode | root =>
      rw [Means] at h
      rw [h]
      exact Meaning.inOrder_oneNode _ _
  | attributeNamed name display parent =>
      rw [Means] at h
      rw [h.2]
      exact Meaning.inOrder_oneNode _ _
  | path start axis test predicates =>
      rw [Means] at h
      obtain ⟨-, A, Bs, hA, -, rfl⟩ := h
      intro ns hns
      unfold Meaning.path at hns
      split at hns
      · cases hns
        exact Forest.ascending_inOrder F _
      · split at hns
        · exact Meaning.inOrder_selects hA.inOrder Bs ns hns
        · cases hns
          exact Forest.ascending_nil
  | filter base predicate =>
      rw [Means] at h
      obtain ⟨A, B, hA, -, rfl⟩ := h
      exact Meaning.inOrder_select hA.inOrder
  | setOperation op lhs rhs =>
      rw [Means] at h
      obtain ⟨A, B, hA, hB, rfl⟩ := h
      exact Outcome.inOrder_combine op hA.inOrder hB.inOrder
  | call function args binding =>
      rw [Means] at h
      obtain ⟨-, As, -, rfl⟩ := h
      intro ns hns
      unfold Meaning.call at hns
      split at hns
      · exact ascending_outcome _ hns
      · cases hf : function.dataType <;> rw [hf] at hns <;> cases hns
        exact Forest.ascending_nil
  | extension name display function args =>
      rw [Means] at h
      obtain ⟨hknown, -, As, -, -, rfl⟩ := h
      exact (Φ.answers hknown).ascending _ _
  | sorted selection keys =>
      rw [Means] at h
      exact h.1.inOrder
  | template parts =>
      rw [Means] at h
      obtain ⟨As, -, rfl⟩ := h
      rintro ns ⟨⟩
  | failure e =>
      rw [Means] at h
      rintro ns hns
      rw [h] at hns
      cases hns
      exact Forest.ascending_nil

/-! ## Static types -/

theorem dataType_binary (op : BinaryOperator) (a b : Outcome) :
    (a.binary F op b).dataType = if op.isArithmetic then .number else .boolean := by
  cases op <;> rfl

/-- The static type of an expression that is not lazy, if it has one. -/
theorem Means.dataType_eq {e : Expr} (h : e.Means F Φ Γ inner D) (hlazy : e.isLazy = false)
    (hany : e.dataType ≠ .any) : (D σ).dataType = e.dataType := by
  cases e with
  | literal v =>
      rw [Means] at h
      obtain ⟨w, hw, rfl⟩ := h
      exact hw.type
  | reference name display constant =>
      cases constant with
      | none => exact absurd rfl hany
      | some v =>
          rw [Means] at h
          obtain ⟨w, hw, rfl⟩ := h
          exact hw.type
  | binary op lhs rhs =>
      rw [Means] at h
      obtain ⟨A, B, -, -, -, rfl⟩ := h
      exact dataType_binary op _ _
  | negate e =>
      rw [Means] at h
      obtain ⟨A, -, rfl⟩ := h
      rfl
  | nodeComparison node op v =>
      rw [Means] at h
      obtain ⟨-, -, A, -, rfl⟩ := h
      rfl
  | contextNode | parentNode | root =>
      rw [Means] at h
      rw [h]
      rfl
  | attributeNamed name display parent =>
      rw [Means] at h
      rw [h.2]
      rfl
  | path | filter | setOperation | sorted => cases hlazy
  | call function args binding =>
      rw [Means] at h
      obtain ⟨-, As, -, rfl⟩ := h
      exact Meaning.dataType_call hany
  | extension name display function args =>
      rw [Means] at h
      obtain ⟨hknown, -, As, -, -, rfl⟩ := h
      exact (Φ.answers hknown).type hany _ _
  | template parts =>
      rw [Means] at h
      obtain ⟨As, -, rfl⟩ := h
      rfl
  | failure e => exact absurd rfl hany

/-- An expression that selects at most one node comes to at most one. -/
theorem Means.of_isSingleton {e : Expr} (h : e.Means F Φ Γ inner D) (hs : e.isSingleton = true) :
    ∃ n : Option Node, D σ = .nodes n.toList := by
  unfold isSingleton at hs
  split at hs
  · rw [Means] at h
    exact ⟨_, congrFun h σ⟩
  · rw [Means] at h
    exact ⟨_, congrFun h σ⟩
  · rw [Means] at h
    exact ⟨_, congrFun h σ⟩
  · rw [Means] at h
    exact ⟨_, congrFun h.2 σ⟩
  · rw [Means] at h
    obtain ⟨w, hw, rfl⟩ := h
    exact ⟨none, NodeSet.Means.eq_of_empty hw.means⟩
  · rw [Means] at h
    obtain ⟨w, hw, rfl⟩ := h
    exact ⟨some _, NodeSet.Means.eq_of_singleton hw.means⟩
  · cases hs

def selects (Γ : Typing) : Expr → Bool
  | reference name _ none => Γ name == some .nodeSet
  | path start _ _ _ => start.selects Γ
  | filter base _ => base.selects Γ
  | setOperation _ lhs rhs => lhs.selects Γ && rhs.selects Γ
  | sorted selection _ => selection.selects Γ
  | e => e.dataType == .nodeSet

theorem dataType_select {w : Outcome} (hw : w.dataType = .nodeSet) :
    (B.select σ w).dataType = .nodeSet := by
  cases w with
  | nodes ns => rfl
  | boolean | number | string | object => cases hw

theorem Means.of_selects {e : Expr} {D : Meaning} (h : e.Means F Φ Γ inner D)
    (hs : e.selects Γ = true) (hσ : σ.Sound F Γ) : (D σ).dataType = .nodeSet := by
  match e with
  | reference name display none =>
      rw [Means] at h
      obtain ⟨-, rfl⟩ := h
      unfold Meaning.binding
      split
      · rename_i v hv
        obtain ⟨hsound, htype⟩ := hσ.bindings name _ v (beq_iff_eq.mp hs) hv
        rcases htype with htype | htype
        · cases htype
        · cases v with
          | nodeSet s => rfl
          | fragment f => exact hsound.elim
          | boolean | number | string | object => cases htype
      · rfl
  | path start axis test predicates =>
      rw [Means] at h
      obtain ⟨-, A, Bs, hA, -, rfl⟩ := h
      have hstart := hA.of_selects hs hσ
      unfold Meaning.path
      split
      · rfl
      · rename_i hscalar
        cases hw : A σ with
        | nodes ns => exact absurd hw (hscalar ns)
        | boolean | number | string | object =>
            rw [hw] at hstart
            cases hstart
  | filter base predicate =>
      rw [Means] at h
      obtain ⟨A, B, hA, -, rfl⟩ := h
      exact dataType_select (hA.of_selects hs hσ)
  | setOperation op lhs rhs =>
      rw [Means] at h
      rw [selects, Bool.and_eq_true] at hs
      obtain ⟨A, B, hA, hB, rfl⟩ := h
      obtain ⟨as, has⟩ := Outcome.eq_nodes_of_dataType (hA.of_selects hs.1 hσ)
      obtain ⟨bs, hbs⟩ := Outcome.eq_nodes_of_dataType (hB.of_selects hs.2 hσ)
      dsimp only
      rw [has, hbs]
      rfl
  | sorted selection keys =>
      rw [Means] at h
      exact h.1.of_selects hs hσ
  | literal _ | reference _ _ (some _) | binary .. | negate _ | nodeComparison .. | contextNode
  | parentNode | root | attributeNamed .. | call .. | extension .. | template _ | failure _ =>
      have htype := beq_iff_eq.mp hs
      rw [h.dataType_eq rfl (by rw [htype]; decide), htype]

/-- What comes to nodes if it is lazy may stand on the right of every comparison. -/
theorem Lists.compares {op : BinaryOperator} {A B : Meaning} {e : Expr} (h : e.Lists F Γ B) :
    Compares F Γ op e A B := by
  intro hrel hlazy σ hσ hempty
  obtain ⟨ms, hms⟩ := Outcome.eq_nodes_of_dataType (h hlazy σ hσ)
  rw [hempty, hms]
  cases op <;> first | rfl | cases hrel

end Expr

end XPath
