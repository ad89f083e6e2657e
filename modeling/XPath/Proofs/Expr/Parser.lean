import XPath.Proofs.Expr.Regular

/-!
# What the reader builds

Everything that the reader makes of a text is regular (`Expr.isRegular_read`), and so is what
`Expr.parse` and `Expr.parseTemplate` return. The lemmas follow the grammar, from the tokens up.
-/

namespace XPath

variable {α β : Type} {F : Forest}

/-! ## Readers -/

namespace Reader

def Makes (P : α → Prop) (r : Reader α) : Prop := ∀ c, Returns (fun x => P x.1) (StateT.run r c)

namespace Makes

variable {P : α → Prop} {Q : β → Prop} {r : Reader α} {f : α → Reader β}

theorem pure {a : α} (h : P a) : Makes P (Pure.pure a) := fun _ => Returns.pure h

theorem bind (hr : Makes P r) (hf : ∀ a, P a → Makes Q (f a)) : Makes Q (r >>= f) :=
  fun c => (hr c).bind fun x hx => hf x.1 hx x.2

theorem after (hf : ∀ a, Makes Q (f a)) : Makes Q (r >>= f) :=
  fun _ => Returns.after fun x => hf x.1 x.2

theorem lift {x : Except Error α} (h : Returns P x) : Makes P (StateT.lift x) :=
  fun _ => h.bind fun _ ha => Returns.pure ha

theorem error (e : Error) : Makes P (throw e) := fun _ => Returns.error e

theorem fault (f : SyntaxFault) : Makes P (Reader.fault f) := after fun _ => error _

theorem faultHere (f : Token → SyntaxFault) : Makes P (Reader.faultHere f) := after fun _ => fault _

theorem run (h : Makes P r) (source : String) : Returns P (r.run source) := by
  unfold Reader.run
  refine .after fun c => (h c).bind fun x hx => ?_
  dsimp only
  split
  · exact .pure hx
  · intro a ha
    cases ha

end Makes

end Reader

namespace Expr

open Reader

/-- A step that tests for what is on its axis, with regular predicates. -/
structure Step.IsRegular (F : Forest) (s : Step) : Prop where
  fits : s.test.Fits s.axis
  predicates : EveryOfList (Regular F) s.predicates

theorem IsRegular.thenStep {start : Expr} {s : Step} (h : start.IsRegular F)
    (hs : s.IsRegular F) : (start.thenStep s).IsRegular F :=
  isRegular_path hs.fits h hs.predicates

theorem isRegular_anyDescendant : anyDescendant.IsRegular F where
  fits := by simp [NodeTest.Fits, anyDescendant, NodeTest.anyNode]
  predicates := trivial

/-! ## Operators -/

theorem makes_moreOperands {operator? : TokenKind → Option BinaryOperator}
    {operand : Reader Expr} (ho : Makes (IsRegular F) operand) (steps : Nat) {lhs : Expr}
    (h : lhs.IsRegular F) : Makes (IsRegular F) (moreOperands operator? operand steps lhs) := by
  induction steps generalizing lhs with
  | zero => exact .pure h
  | succ steps ih =>
      rw [moreOperands]
      refine .after fun k => ?_
      split
      · exact .pure h
      · exact .after fun _ => ho.bind fun rhs hrhs => ih (isRegular_binary h hrhs)

theorem makes_operatorLevel {operator? : TokenKind → Option BinaryOperator}
    {operand : Reader Expr} (ho : Makes (IsRegular F) operand) :
    Makes (IsRegular F) (operatorLevel operator? operand) :=
  ho.bind fun _ hlhs => .after fun _ => makes_moreOperands ho _ hlhs

theorem makes_negations {operand : Reader Expr} (ho : Makes (IsRegular F) operand)
    (steps : Nat) : Makes (IsRegular F) (negations operand steps) := by
  induction steps with
  | zero => exact ho
  | succ steps ih =>
      rw [negations]
      refine .after fun seen => ?_
      split
      · exact .after fun _ => ih.bind fun e he => .pure (isRegular_negate he)
      · exact ho

theorem makes_moreUnion {operand : Reader Expr} (ho : Makes (IsRegular F) operand)
    (steps : Nat) {lhs : Expr} (h : lhs.IsRegular F) :
    Makes (IsRegular F) (moreUnion operand steps lhs) := by
  induction steps generalizing lhs with
  | zero => exact .pure h
  | succ steps ih =>
      rw [moreUnion]
      refine .after fun seen => ?_
      split
      · refine .after fun _ => ho.bind fun rhs hrhs => ?_
        split
        · exact .fault _
        · exact ih (isRegular_setOperation h hrhs)
      · exact .pure h

/-! ## Primary expressions and steps -/

section

variable (s : StaticScope)

theorem isRegular_resolveCall (name : String) {args : List Expr}
    (h : EveryOfList (Regular F) args) : Returns (IsRegular F) (resolveCall s name args) := by
  unfold resolveCall
  split
  · refine .after fun expanded => ?_
    split
    · refine .pure ?_
      rw [IsRegular, Every]
      exact ⟨trivial, h⟩
    · intro e he
      cases he
  · split
    · exact .error _
    · refine .after fun _ => .pure ?_
      split
      · exact isRegular_literal _
      · exact isRegular_literal _
      · exact isRegular_call ⟨by rintro n ⟨⟩, by rintro k ⟨⟩⟩ h

theorem makes_nodeTest (axis : Axis) :
    Makes (NodeTest.Fits · axis) (nodeTest s axis.principalKind) := by
  have hprincipal (name : NameTest) : (NodeTest.mk axis.principalKind name).Fits axis := by
    cases axis <;> simp [NodeTest.Fits, Axis.principalKind]
  unfold nodeTest
  refine .after fun k => ?_
  split
  · exact .after fun _ => .after fun name => .pure (hprincipal _)
  · exact .after fun _ => .after fun uri => .pure (hprincipal _)
  · exact .after fun _ => .pure (hprincipal _)
  · refine .after fun token => ?_
    have hkind {kind : NodeKind} {name : NameTest} (hattribute : kind ≠ .attributeNode)
        (hnamespace : kind ≠ .namespaceNode) (hname : kind = .node → name = .any) :
        Makes (NodeTest.Fits · axis) (Pure.pure ⟨kind, name⟩) :=
      .pure ⟨fun h => absurd h hattribute, fun h => absurd h hnamespace, hname⟩
    dsimp only
    split
    · exact (hkind (by decide) (by decide) fun _ => rfl).bind fun _ h => .after fun _ => .pure h
    · exact (hkind (by decide) (by decide) (by decide)).bind fun _ h => .after fun _ => .pure h
    · exact (hkind (by decide) (by decide) (by decide)).bind fun _ h => .after fun _ => .pure h
    · refine .after fun seen => ?_
      split
      · refine .after fun target => ?_
        exact (hkind (by decide) (by decide) (by simp)).bind fun _ h => .after fun _ => .pure h
      · exact (hkind (by decide) (by decide) (by decide)).bind fun _ h => .after fun _ => .pure h
  · exact .faultHere _

theorem makes_variableReference : Makes (IsRegular F) (variableReference s) := by
  refine .after fun _ => .after fun _ => .after fun _ => .pure ?_
  rw [IsRegular, Every]
  trivial

variable {s} {inner : Reader Expr} (hinner : Makes (IsRegular F) inner)

include hinner

theorem makes_predicateList (steps : Nat) :
    Makes (EveryOfList (Regular F)) (predicateList inner steps) := by
  induction steps with
  | zero => exact .pure trivial
  | succ steps ih =>
      rw [predicateList]
      refine .after fun seen => ?_
      split
      · refine .after fun _ => hinner.bind fun e he => .after fun _ => ih.bind fun es hes => .pure ?_
        rw [EveryOfList]
        exact ⟨he, hes⟩
      · exact .pure trivial

theorem makes_predicates : Makes (EveryOfList (Regular F)) (predicates inner) :=
  .after fun _ => makes_predicateList hinner _

theorem makes_testedStep (axis : Axis) : Makes (Step.IsRegular F) (testedStep s inner axis) :=
  (makes_nodeTest s axis).bind fun _ hfits => (makes_predicates hinner).bind fun _ h =>
    .pure ⟨hfits, h⟩

theorem makes_step : Makes (Step.IsRegular F) (step s inner) := by
  have hany (axis : Axis) : Step.IsRegular F ⟨axis, .anyNode, []⟩ :=
    ⟨by simp [NodeTest.Fits, NodeTest.anyNode], trivial⟩
  unfold step
  refine .after fun k => ?_
  split
  · exact .after fun _ => .pure (hany _)
  · exact .after fun _ => .pure (hany _)
  · exact .after fun _ => makes_testedStep hinner _
  · refine .after fun token => ?_
    dsimp only
    split
    · exact makes_testedStep hinner _
    · exact .fault _
  · exact makes_testedStep hinner _

theorem makes_moreSteps (steps : Nat) {start : Expr} (h : start.IsRegular F) :
    Makes (IsRegular F) (moreSteps s inner steps start) := by
  induction steps generalizing start with
  | zero => exact .pure h
  | succ steps ih =>
      rw [moreSteps]
      refine .after fun k => ?_
      split
      · exact .after fun _ => (makes_step hinner).bind fun t ht => ih (IsRegular.thenStep h ht)
      · exact .after fun _ => (makes_step hinner).bind fun t ht =>
          ih ((IsRegular.thenStep h isRegular_anyDescendant).thenStep ht)
      · exact .pure h

theorem makes_continuePath {start : Expr} (h : start.IsRegular F) :
    Makes (IsRegular F) (continuePath s inner start) :=
  .after fun _ => makes_moreSteps hinner _ h

theorem makes_relativePath {start : Expr} (h : start.IsRegular F) :
    Makes (IsRegular F) (relativePath s inner start) :=
  (makes_step hinner).bind fun _ ht => makes_continuePath hinner (IsRegular.thenStep h ht)

theorem makes_moreArguments (steps : Nat) :
    Makes (EveryOfList (Regular F)) (moreArguments inner steps) := by
  induction steps with
  | zero => exact .faultHere _
  | succ steps ih =>
      rw [moreArguments]
      refine .after fun k => ?_
      split
      · refine .after fun _ => hinner.bind fun e he => ih.bind fun es hes => .pure ?_
        rw [EveryOfList]
        exact ⟨he, hes⟩
      · exact .after fun _ => .pure trivial
      · exact .faultHere _

theorem makes_arguments : Makes (EveryOfList (Regular F)) (arguments inner) := by
  unfold arguments
  refine .after fun seen => ?_
  split
  · exact .after fun _ => .pure trivial
  · refine hinner.bind fun e he => .after fun k => (makes_moreArguments hinner _).bind
      fun es hes => .pure ?_
    rw [EveryOfList]
    exact ⟨he, hes⟩

theorem makes_primary : Makes (IsRegular F) (primary s inner) := by
  unfold primary
  refine .after fun k => ?_
  split
  · exact .after fun _ => makes_variableReference s
  · exact .after fun _ => hinner.bind fun e he => .after fun _ => .pure he
  · exact .after fun _ => .pure (isRegular_literal _)
  · refine .after fun token => ?_
    dsimp only
    split
    · exact .pure (isRegular_literal _)
    · exact .fault _
  · exact .after fun token => (makes_arguments hinner).bind fun args hargs =>
      .lift (isRegular_resolveCall s _ hargs)
  · exact .faultHere _

omit hinner in
theorem isRegular_filters {base : Expr} {predicates : List Expr} (h : base.IsRegular F)
    (hs : EveryOfList (Regular F) predicates) : (predicates.foldl filter base).IsRegular F := by
  induction predicates generalizing base with
  | nil => exact h
  | cons p predicates ih =>
      rw [EveryOfList] at hs
      exact ih (isRegular_filter h hs.1) hs.2

theorem makes_filtered : Makes (IsRegular F) (filtered s inner) :=
  (makes_primary hinner).bind fun _ hbase => (makes_predicates hinner).bind fun _ hs =>
    .pure (isRegular_filters hbase hs)

theorem makes_pathExpression : Makes (IsRegular F) (pathExpression s inner) := by
  have hroot : root.IsRegular F := by
    rw [IsRegular, Every]
    trivial
  have hcontext : contextNode.IsRegular F := by
    rw [IsRegular, Every]
    trivial
  unfold pathExpression
  refine .after fun k => ?_
  split
  · refine .after fun _ => .after fun k => ?_
    split
    · exact makes_relativePath hinner hroot
    · exact .pure hroot
  · exact .after fun _ => makes_relativePath hinner
      (IsRegular.thenStep hroot isRegular_anyDescendant)
  · split
    · exact makes_relativePath hinner hcontext
    · exact (makes_filtered hinner).bind fun _ h => makes_continuePath hinner h

/-! ## Expressions -/

theorem makes_unionExpression : Makes (IsRegular F) (unionExpression s inner) :=
  (makes_pathExpression hinner).bind fun _ h => .after fun _ =>
    makes_moreUnion (makes_pathExpression hinner) _ h

theorem makes_unaryExpression : Makes (IsRegular F) (unaryExpression s inner) :=
  .after fun _ => makes_negations (makes_unionExpression hinner) _

theorem makes_orExpression : Makes (IsRegular F) (orExpression s inner) :=
  makes_operatorLevel <| makes_operatorLevel <| makes_operatorLevel <| makes_operatorLevel <|
    makes_operatorLevel <| makes_operatorLevel <| makes_unaryExpression hinner

end

theorem makes_expression (s : StaticScope) (depth : Nat) :
    Makes (IsRegular F) (expression s depth) := by
  induction depth with
  | zero => exact .error _
  | succ depth ih => exact makes_orExpression ih

theorem isRegular_read (s : StaticScope) (source : String) :
    Returns (IsRegular F) (read s source) :=
  Makes.run (.after fun _ => makes_expression s _) source

theorem isRegular_deferIn (s : StaticScope) {result : Except Error Expr}
    (h : Returns (IsRegular F) result) : Returns (IsRegular F) (deferIn s result) := by
  unfold deferIn
  split
  · split
    · refine .pure ?_
      rw [IsRegular, Every]
      trivial
    · exact .error _
  · exact h

theorem isRegular_parse (s : StaticScope) (source : String) :
    Returns (IsRegular F) (parse s F source) :=
  isRegular_deferIn s ((isRegular_read s source).bind fun _ h _ he => IsRegular.simplify h he)

theorem isRegular_readTemplate (s : StaticScope) (source : String) :
    Returns (IsRegular F) (readTemplate s source) := by
  have hpart (stretch : TemplateStretch) :
      Returns (fun p => EveryOfParts (Regular F) [p]) (stretch.read s) := by
    cases stretch with
    | text cs => exact .pure trivial
    | code cs =>
        refine (isRegular_read (F := F) s _).bind fun e he => .pure ?_
        rw [EveryOfParts]
        exact ⟨he, trivial⟩
  have hparts (stretches : List TemplateStretch) :
      Returns (EveryOfParts (Regular F)) (stretches.mapM (TemplateStretch.read s)) := by
    induction stretches with
    | nil => exact .pure trivial
    | cons stretch stretches ih =>
        rw [List.mapM_cons]
        refine (hpart stretch).bind fun p hp => ih.bind fun ps hps => .pure ?_
        cases p with
        | text text => rwa [EveryOfParts]
        | expr e =>
            rw [EveryOfParts] at hp ⊢
            exact ⟨hp.1, hps⟩
  refine (hparts _).bind fun parts h => ?_
  split
  · exact .error _
  · refine .pure ?_
    rw [IsRegular, Every]
    exact ⟨trivial, h⟩

theorem isRegular_parseTemplate (s : StaticScope) (source : String) :
    Returns (IsRegular F) (parseTemplate s F source) :=
  isRegular_deferIn s
    ((isRegular_readTemplate s source).bind fun _ h _ he => IsRegular.simplify h he)

end Expr

end XPath
