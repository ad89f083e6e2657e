import XPath.Proofs.Expr.Replay

/-!
# Operands that are read again elsewhere

Each reader of the grammar makes the same of its words wherever they stand, in front of any word
that ends an operand of its level (`Expr.replays_readLevel`), and however deep expressions may be
nested there (`Expr.replays_expression`). A loop never runs out of steps, as each round takes a word:
the steps that are left exceed the words to come.
-/

namespace XPath.Expr

open Reader

variable {c : Cursor} {n room steps steps' : Nat}

/-! ## Operators -/

section

variable {operator? : TokenKind → Option BinaryOperator} {operand operand' : Reader Expr}
  (ho : ∀ c room, Replays n 1 room operand operand' c)

include ho

theorem replays_moreOperands (hop : ∀ k, Halts n k ∨ k = .eof → operator? k = none)
    (hsteps : c.rest.length < steps) (lhs : Expr) :
    Replays n 0 steps' (moreOperands operator? operand steps lhs)
      (moreOperands operator? operand' steps' lhs) c := by
  induction steps generalizing c lhs steps' with
  | zero => omega
  | succ steps ih =>
      refine Replays.of_succ (g := fun k => moreOperands operator? operand' k lhs)
        (fun steps' => ?_) steps'
      rw [moreOperands, moreOperands]
      cases hk : operator? c.current.kind with
      | none =>
          refine .kind_rest (by rw [hk]) ?_
          rintro k (rfl | hhalts)
          · rw [hk]
          · rw [hop k (.inl hhalts)]
      | some op =>
          refine .weaken (.kind fun k hkind => ?_)
          subst hkind
          rw [hk]
          refine .advance (fun heof => ?_) fun _ m _ hm => ?_
          · rw [hop _ (.inr heof)] at hk
            cases hk
          · exact (ho m _).bind fun rhs m' hm' => ih (by omega) _

theorem replays_operatorLevel (hop : ∀ k, Halts n k ∨ k = .eof → operator? k = none) :
    Replays n 1 room (operatorLevel operator? operand) (operatorLevel operator? operand') c :=
  (ho c room).bind fun _ _ _ => .remaining fun _ =>
    replays_moreOperands ho hop (Nat.lt_succ_self _) _

theorem replays_negations (hsteps : c.rest.length < steps) :
    Replays n 1 steps' (negations operand steps) (negations operand' steps') c := by
  induction steps generalizing c steps' with
  | zero => omega
  | succ steps ih =>
      refine Replays.of_succ (fun steps' => ?_) steps'
      rw [negations, negations]
      refine .sees (fun hk => ?_) fun _ => ho c _
      exact .advance (by rw [hk]; decide) fun _ m _ hm => (ih (by omega)).bind fun _ _ _ => .pure _

theorem replays_moreUnion (hn : n ≤ 8) (hsteps : c.rest.length < steps) (lhs : Expr) :
    Replays n 0 steps' (moreUnion operand steps lhs) (moreUnion operand' steps' lhs) c := by
  induction steps generalizing c lhs steps' with
  | zero => omega
  | succ steps ih =>
      refine Replays.of_succ (g := fun k => moreUnion operand' k lhs) (fun steps' => ?_) steps'
      rw [moreUnion, moreUnion]
      refine .sees_rest rfl hn (fun hk => ?_) rfl rfl
      refine .advance (by rw [hk]; decide) fun _ m _ hm => (ho m _).bind fun rhs m' hm' => ?_
      split
      · exact .fault _
      · exact ih (by omega) _

end

/-! ## Primary expressions and steps -/

section

variable (s : StaticScope)

theorem replays_nodeTest (principal : NodeKind) :
    Replays n 1 room (nodeTest s principal) (nodeTest s principal) c := by
  unfold nodeTest
  refine .kind fun k hk => ?_
  split
  · exact .advance_last hk (by decide) fun t m ht _ => by
      rw [ht]
      exact .bind (.lift _) fun _ _ _ => .pure _
  · exact .advance_last hk (by decide) fun t m ht _ => by
      rw [ht]
      exact .bind (.lift _) fun _ _ _ => .pure _
  · exact .advance_last hk (by decide) fun _ _ _ _ => .pure _
  · refine .advance (by rw [hk]; decide) fun t m ht _ => ?_
    dsimp only
    rw [ht]
    have hclose {test : NodeTest} {c : Cursor} {room : Nat} : Replays n 1 room
        (do let _ ← Reader.expect .rightParen; return test)
        (do let _ ← Reader.expect .rightParen; return test) c :=
      .expect (by decide) fun _ _ _ _ => .pure _
    split
    · exact .bindMoving (l := n) (.pure _) fun _ _ _ => hclose
    · exact .bindMoving (l := n) (.pure _) fun _ _ _ => hclose
    · exact .bindMoving (l := n) (.pure _) fun _ _ _ => hclose
    · refine .sees (fun hliteral => ?_) fun _ => ?_
      · exact .advance (by rw [hliteral]; decide) fun t m ht _ => by
          rw [ht]
          exact .bindMoving (l := n) (.pure _) fun _ _ _ => hclose
      · exact .bindMoving (l := n) (.pure _) fun _ _ _ => hclose
  · exact .faultHere _

theorem replays_variableReference :
    Replays n 1 room (variableReference s) (variableReference s) c :=
  .expect (by decide) fun t _ ht _ => by
    rw [ht]
    exact .bind (.lift _) fun _ _ _ => .bind (.lift _) fun _ _ _ => .pure _

end

section

variable {s : StaticScope} {inner inner' : Reader Expr}
  (hinner : ∀ c room, Replays 1 1 room inner inner' c)

include hinner

theorem replays_moreArguments (hsteps : c.rest.length < steps) :
    Replays n 1 steps' (moreArguments inner steps) (moreArguments inner' steps') c := by
  induction steps generalizing c steps' with
  | zero => omega
  | succ steps ih =>
      refine Replays.of_succ (fun steps' => ?_) steps'
      rw [moreArguments, moreArguments]
      refine .kind fun k hk => ?_
      split
      · exact .advance (by rw [hk]; decide) fun _ m _ hm => (hinner m _).bindMoving fun _ m' hm' =>
          (ih (by omega)).bind fun _ _ _ => .pure _
      · exact .advance_last hk (by decide) fun _ _ _ _ => .pure _
      · exact .faultHere _

theorem replays_arguments : Replays n 1 room (arguments inner) (arguments inner') c := by
  unfold arguments
  refine .sees (fun hk => ?_) fun _ => ?_
  · exact .advance_last hk (by decide) fun _ _ _ _ => .pure _
  · exact (hinner c _).bindMoving fun _ _ _ => .remaining fun _ =>
      (replays_moreArguments hinner (Nat.lt_succ_self _)).bind fun _ _ _ => .pure _

theorem replays_primary : Replays n 1 room (primary s inner) (primary s inner') c := by
  unfold primary
  refine .kind fun k hk => ?_
  split
  · exact .advance (by rw [hk]; decide) fun _ _ _ _ => replays_variableReference s
  · exact .advance (by rw [hk]; decide) fun _ m _ _ => (hinner m _).bindMoving fun _ _ _ =>
      .expect (by decide) fun _ _ _ _ => .pure _
  · exact .advance_last hk (by decide) fun t _ ht _ => by
      rw [ht]
      exact .pure _
  · refine .advance_last hk (by decide) fun t _ ht _ => ?_
    rw [ht]
    dsimp only
    split
    · exact .pure _
    · exact .fault _
  · exact .advance (by rw [hk]; decide) fun t _ ht _ => by
      rw [ht]
      exact (replays_arguments hinner).bind fun _ _ _ => .lift _
  · exact .faultHere _

variable (hn : n ≤ 8)

include hn

theorem replays_predicateList (hsteps : c.rest.length < steps) :
    Replays n 0 steps' (predicateList inner steps) (predicateList inner' steps') c := by
  induction steps generalizing c steps' with
  | zero => omega
  | succ steps ih =>
      refine Replays.of_succ (fun steps' => ?_) steps'
      rw [predicateList, predicateList]
      refine .sees_rest (y := 10) rfl (by omega) (fun hk => ?_) rfl rfl
      exact .advance (by rw [hk]; decide) fun _ m _ hm => (hinner m _).bindMoving fun _ m' hm' =>
        .expect (by decide) fun _ m'' _ hm'' => (ih (by omega)).bind fun _ _ _ => .pure _

theorem replays_predicates : Replays n 0 room (predicates inner) (predicates inner') c :=
  .remaining fun _ => replays_predicateList hinner hn (Nat.lt_succ_self _)

theorem replays_testedStep (axis : Axis) :
    Replays n 1 room (testedStep s inner axis) (testedStep s inner' axis) c :=
  (replays_nodeTest s _).bind fun _ _ _ => (replays_predicates hinner hn).bind fun _ _ _ => .pure _

theorem replays_step : Replays n 1 room (step s inner) (step s inner') c := by
  unfold step
  refine .kind fun k hk => ?_
  split
  · exact .advance_last hk (by decide) fun _ _ _ _ => .pure _
  · exact .advance_last hk (by decide) fun _ _ _ _ => .pure _
  · exact .advance (by rw [hk]; decide) fun _ _ _ _ => replays_testedStep hinner hn _
  · refine .advance (by rw [hk]; decide) fun t _ ht _ => ?_
    rw [ht]
    dsimp only
    split
    · exact replays_testedStep hinner hn _
    · exact .fault _
  · exact replays_testedStep hinner hn _

theorem replays_moreSteps (hsteps : c.rest.length < steps) (start : Expr) :
    Replays n 0 steps' (moreSteps s inner steps start) (moreSteps s inner' steps' start) c := by
  induction steps generalizing c start steps' with
  | zero => omega
  | succ steps ih =>
      refine Replays.of_succ (g := fun k => moreSteps s inner' k start) (fun steps' => ?_) steps'
      rw [moreSteps, moreSteps]
      by_cases hk : c.current.kind = .slash ∨ c.current.kind = .slashSlash
      · refine .weaken (.kind fun k hkind => ?_)
        have heof : c.current.kind ≠ .eof := by
          obtain hk | hk := hk <;> rw [hk] <;> decide
        split
        · exact .advance heof fun _ m _ hm => (replays_step hinner hn).bind fun _ m' hm' =>
            ih (by omega) _
        · exact .advance heof fun _ m _ hm => (replays_step hinner hn).bind fun _ m' hm' =>
            ih (by omega) _
        · rename_i hslash hslashes
          exact absurd (hkind ▸ hk) (not_or_intro hslash hslashes)
      · refine .kind_rest (x := start) ?_ fun k hk' => ?_
        · split
          · exact absurd (.inl ‹_›) hk
          · exact absurd (.inr ‹_›) hk
          · rfl
        · have hrest : k ≠ .slash ∧ k ≠ .slashSlash := by
            obtain rfl | hhalts := hk'
            · exact not_or.mp hk
            · exact ⟨hhalts.ne rfl (j := 9) (by omega), hhalts.ne rfl (j := 9) (by omega)⟩
          split
          · exact absurd rfl hrest.1
          · exact absurd rfl hrest.2
          · rfl

theorem replays_continuePath (start : Expr) :
    Replays n 0 room (continuePath s inner start) (continuePath s inner' start) c :=
  .remaining fun _ => replays_moreSteps hinner hn (Nat.lt_succ_self _) _

theorem replays_relativePath (start : Expr) :
    Replays n 1 room (relativePath s inner start) (relativePath s inner' start) c :=
  (replays_step hinner hn).bind fun _ _ _ => replays_continuePath hinner hn _

theorem replays_filtered : Replays n 1 room (filtered s inner) (filtered s inner') c :=
  (replays_primary hinner).bind fun _ _ _ =>
    (replays_predicates hinner hn).bind fun _ _ _ => .pure _

theorem replays_pathExpression :
    Replays n 1 room (pathExpression s inner) (pathExpression s inner') c := by
  unfold pathExpression
  refine .kind fun k hk => ?_
  split
  -- Behind a slash no step may follow: the path is the root then, whatever word comes next.
  · refine .advance_last hk (by decide) fun _ m _ _ => ?_
    cases hstep : startsStep m.current.kind with
    | true =>
        refine .weaken (.kind fun k hk => ?_)
        subst hk
        rw [if_pos hstep, if_pos hstep]
        exact replays_relativePath hinner hn _
    | false =>
        refine .kind_rest (if_neg (by simp [hstep])) ?_
        rintro k (rfl | hhalts)
        · exact if_neg (by simp [hstep])
        · exact if_neg (by simp [hhalts.1])
  · exact .advance (by rw [hk]; decide) fun _ _ _ _ => replays_relativePath hinner hn _
  · split
    · exact replays_relativePath hinner hn _
    · exact (replays_filtered hinner hn).bind fun _ _ _ => replays_continuePath hinner hn _

theorem replays_unionExpression :
    Replays n 1 room (unionExpression s inner) (unionExpression s inner') c :=
  (replays_pathExpression hinner hn).bind fun _ _ _ => .remaining fun _ =>
    replays_moreUnion (fun _ _ => replays_pathExpression hinner hn) hn (Nat.lt_succ_self _) _

theorem replays_unaryExpression :
    Replays n 1 room (unaryExpression s inner) (unaryExpression s inner') c :=
  .remaining fun _ =>
    replays_negations (fun _ _ => replays_unionExpression hinner hn) (Nat.lt_succ_self _)

omit hn

/-! ## Levels -/

theorem replays_readLevel {j : Nat} (hj : 1 ≤ j) (hle : j ≤ 7) (hn : n ≤ j) :
    Replays n 1 room (readLevel s inner j) (readLevel s inner' j) c := by
  induction hle using Nat.decreasingInduction generalizing c room with
  | self => exact replays_unaryExpression hinner (by omega)
  | of_succ j hlt ih =>
      rw [readLevel_eq_operatorLevel hj (by omega), readLevel_eq_operatorLevel hj (by omega)]
      refine replays_operatorLevel (fun _ _ => ih (by omega) (by omega)) fun k hk => ?_
      cases hop : operatorAt j k with
      | none => rfl
      | some op =>
          have hcontinues := continues_of_operatorAt hop
          obtain hhalts | rfl := hk
          · exact absurd rfl (hhalts.ne hcontinues hn)
          · cases hcontinues
            omega

end

theorem follows_readLevel {s : StaticScope} {inner : Reader Expr} (hinner : Follows inner inner)
    {j : Nat} (hj : 1 ≤ j) (hle : j ≤ 7) :
    Follows (readLevel s inner j) (readLevel s inner j) := by
  induction hle using Nat.decreasingInduction with
  | self => exact follows_unaryExpression hinner
  | of_succ j hlt ih =>
      rw [readLevel_eq_operatorLevel hj (by omega)]
      exact follows_operatorLevel (ih (by omega))

/-! ## Depths -/

theorem replays_expression (s : StaticScope) {depth depth' : Nat} (h : depth ≤ depth') (c : Cursor)
    (room : Nat) : Replays 1 1 room (expression s depth) (expression s depth') c := by
  induction depth generalizing depth' c room with
  | zero => exact .of_not_takes fun _ _ => not_takes_throw _
  | succ depth ih =>
      obtain ⟨k, rfl⟩ : ∃ k, depth' = k + 1 := ⟨depth' - 1, by omega⟩
      exact replays_readLevel (fun c room => ih (by omega) c room) le_rfl (by decide) le_rfl

end XPath.Expr
