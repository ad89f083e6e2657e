import XPath.Expr.Parser
import XPath.Proofs.Reader

/-!
# Expressions read at a depth

A reader that allows for a deeper nesting takes all that a reader with less depth takes
(`Expr.follows_expression`). What `Expr.nested` takes is therefore taken at every depth that allows
for as many levels as there are tokens (`Expr.takes_expression_of_nested`).
-/

namespace XPath.Expr

open Reader

/-! ## Operators -/

section

variable {operator? : TokenKind → Option BinaryOperator} {operand operand' : Reader Expr}
  (ho : Follows operand operand')

include ho

theorem follows_moreOperands (steps : Nat) (lhs : Expr) :
    Follows (moreOperands operator? operand steps lhs)
      (moreOperands operator? operand' steps lhs) := by
  induction steps generalizing lhs with
  | zero => exact .pure _
  | succ steps ih =>
      rw [moreOperands, moreOperands]
      refine .bind .kind fun k => ?_
      split
      · exact .pure _
      · exact .bind .advance fun _ => ho.bind fun rhs => ih _

theorem follows_operatorLevel :
    Follows (operatorLevel operator? operand) (operatorLevel operator? operand') :=
  ho.bind fun _ => .bind .remaining fun _ => follows_moreOperands ho _ _

theorem follows_negations (steps : Nat) :
    Follows (negations operand steps) (negations operand' steps) := by
  induction steps with
  | zero => exact ho
  | succ steps ih =>
      rw [negations, negations]
      refine .bind (.sees _) fun seen => ?_
      split
      · exact .bind .advance fun _ => ih.bind fun _ => .pure _
      · exact ho

theorem follows_moreUnion (steps : Nat) (lhs : Expr) :
    Follows (moreUnion operand steps lhs) (moreUnion operand' steps lhs) := by
  induction steps generalizing lhs with
  | zero => exact .pure _
  | succ steps ih =>
      rw [moreUnion, moreUnion]
      refine .bind (.sees _) fun seen => ?_
      split
      · refine .bind .advance fun _ => ho.bind fun rhs => ?_
        split
        · exact .fault _ _
        · exact ih _
      · exact .pure _

end

/-! ## Primary expressions and steps -/

variable (s : StaticScope)

theorem follows_nodeTest (principal : NodeKind) :
    Follows (nodeTest s principal) (nodeTest s principal) := by
  unfold nodeTest
  refine .bind .kind fun k => ?_
  split
  · exact .bind .advance fun _ => .bind (.lift _) fun _ => .pure _
  · exact .bind .advance fun _ => .bind (.lift _) fun _ => .pure _
  · exact .bind .advance fun _ => .pure _
  · refine .bind .advance fun token => ?_
    dsimp only
    split
    · exact .bind (.pure _) fun _ => .bind (.expect _) fun _ => .pure _
    · exact .bind (.pure _) fun _ => .bind (.expect _) fun _ => .pure _
    · exact .bind (.pure _) fun _ => .bind (.expect _) fun _ => .pure _
    · refine .bind (.sees _) fun seen => ?_
      split
      · exact .bind .advance fun _ => .bind (.pure _) fun _ => .bind (.expect _) fun _ => .pure _
      · exact .bind (.pure _) fun _ => .bind (.expect _) fun _ => .pure _
  · exact .faultHere _ _

theorem follows_variableReference : Follows (variableReference s) (variableReference s) :=
  .bind (.expect _) fun _ => .bind (.lift _) fun _ => .bind (.lift _) fun _ => .pure _

variable {s} {inner inner' : Reader Expr} (hinner : Follows inner inner')

include hinner

theorem follows_predicateList (steps : Nat) :
    Follows (predicateList inner steps) (predicateList inner' steps) := by
  induction steps with
  | zero => exact .pure _
  | succ steps ih =>
      rw [predicateList, predicateList]
      refine .bind (.sees _) fun seen => ?_
      split
      · exact .bind .advance fun _ => hinner.bind fun _ => .bind (.expect _) fun _ =>
          ih.bind fun _ => .pure _
      · exact .pure _

theorem follows_predicates : Follows (predicates inner) (predicates inner') :=
  .bind .remaining fun _ => follows_predicateList hinner _

theorem follows_testedStep (axis : Axis) :
    Follows (testedStep s inner axis) (testedStep s inner' axis) :=
  .bind (follows_nodeTest s _) fun _ => (follows_predicates hinner).bind fun _ => .pure _

theorem follows_step : Follows (step s inner) (step s inner') := by
  unfold step
  refine .bind .kind fun k => ?_
  split
  · exact .bind .advance fun _ => .pure _
  · exact .bind .advance fun _ => .pure _
  · exact .bind .advance fun _ => follows_testedStep hinner _
  · refine .bind .advance fun token => ?_
    dsimp only
    split
    · exact follows_testedStep hinner _
    · exact .fault _ _
  · exact follows_testedStep hinner _

theorem follows_moreSteps (steps : Nat) (start : Expr) :
    Follows (moreSteps s inner steps start) (moreSteps s inner' steps start) := by
  induction steps generalizing start with
  | zero => exact .pure _
  | succ steps ih =>
      rw [moreSteps, moreSteps]
      refine .bind .kind fun k => ?_
      split
      · exact .bind .advance fun _ => (follows_step hinner).bind fun _ => ih _
      · exact .bind .advance fun _ => (follows_step hinner).bind fun _ => ih _
      · exact .pure _

theorem follows_continuePath (start : Expr) :
    Follows (continuePath s inner start) (continuePath s inner' start) :=
  .bind .remaining fun _ => follows_moreSteps hinner _ _

theorem follows_relativePath (start : Expr) :
    Follows (relativePath s inner start) (relativePath s inner' start) :=
  (follows_step hinner).bind fun _ => follows_continuePath hinner _

theorem follows_moreArguments (steps : Nat) :
    Follows (moreArguments inner steps) (moreArguments inner' steps) := by
  induction steps with
  | zero => exact .faultHere _ _
  | succ steps ih =>
      rw [moreArguments, moreArguments]
      refine .bind .kind fun k => ?_
      split
      · exact .bind .advance fun _ => hinner.bind fun _ => ih.bind fun _ => .pure _
      · exact .bind .advance fun _ => .pure _
      · exact .faultHere _ _

theorem follows_arguments : Follows (arguments inner) (arguments inner') := by
  unfold arguments
  refine .bind (.sees _) fun seen => ?_
  split
  · exact .bind .advance fun _ => .pure _
  · exact hinner.bind fun _ => .bind .remaining fun _ => (follows_moreArguments hinner _).bind
      fun _ => .pure _

theorem follows_primary : Follows (primary s inner) (primary s inner') := by
  unfold primary
  refine .bind .kind fun k => ?_
  split
  · exact .bind .advance fun _ => follows_variableReference s
  · exact .bind .advance fun _ => hinner.bind fun _ => .bind (.expect _) fun _ => .pure _
  · exact .bind .advance fun _ => .pure _
  · refine .bind .advance fun token => ?_
    dsimp only
    split
    · exact .pure _
    · exact .fault _ _
  · exact .bind .advance fun _ => (follows_arguments hinner).bind fun _ => .lift _
  · exact .faultHere _ _

theorem follows_filtered : Follows (filtered s inner) (filtered s inner') :=
  (follows_primary hinner).bind fun _ => (follows_predicates hinner).bind fun _ => .pure _

theorem follows_pathExpression : Follows (pathExpression s inner) (pathExpression s inner') := by
  unfold pathExpression
  refine .bind .kind fun k => ?_
  split
  · refine .bind .advance fun _ => .bind .kind fun k => ?_
    split
    · exact follows_relativePath hinner _
    · exact .pure _
  · exact .bind .advance fun _ => follows_relativePath hinner _
  · split
    · exact follows_relativePath hinner _
    · exact (follows_filtered hinner).bind fun _ => follows_continuePath hinner _

theorem follows_unionExpression :
    Follows (unionExpression s inner) (unionExpression s inner') :=
  (follows_pathExpression hinner).bind fun _ => .bind .remaining fun _ =>
    follows_moreUnion (follows_pathExpression hinner) _ _

theorem follows_unaryExpression :
    Follows (unaryExpression s inner) (unaryExpression s inner') :=
  .bind .remaining fun _ => follows_negations (follows_unionExpression hinner) _

theorem follows_orExpression : Follows (orExpression s inner) (orExpression s inner') :=
  follows_operatorLevel <| follows_operatorLevel <| follows_operatorLevel <|
    follows_operatorLevel <| follows_operatorLevel <| follows_operatorLevel <|
      follows_unaryExpression hinner

omit hinner

/-! ## Depths -/

variable (s)

theorem follows_expression {depth depth' : Nat} (h : depth ≤ depth') :
    Follows (expression s depth) (expression s depth') := by
  induction depth generalizing depth' with
  | zero => exact .throw _ _
  | succ depth ih =>
      obtain ⟨k, rfl⟩ : ∃ k, depth' = k + 1 := ⟨depth' - 1, by omega⟩
      exact follows_orExpression (ih (by omega))

theorem follows_nested : Follows (nested s) (nested s) :=
  .bind .remaining fun _ => follows_expression s (Nat.le_refl _)

variable {s} {c d : Cursor} {e : Expr} {depth : Nat}

theorem takes_nested : Takes (nested s) c e d ↔ Takes (expression s (c.rest.length + 1)) c e d := by
  unfold nested
  simp only [takes_bind, takes_remaining]
  constructor
  · rintro ⟨_, _, ⟨rfl, rfl⟩, h⟩
    exact h
  · exact fun h => ⟨_, _, ⟨rfl, rfl⟩, h⟩

/-- What can be nested as deep as there are tokens can be nested deeper. -/
theorem takes_expression_of_nested (h : Takes (nested s) c e d) (hdepth : c.rest.length < depth) :
    Takes (expression s depth) c e d :=
  (follows_expression s hdepth).takes (takes_nested.mp h)

end XPath.Expr
