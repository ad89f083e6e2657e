import XPath.Pattern.Parser
import XPath.Proofs.Expr.Depth
import XPath.Proofs.Expr.Parser

/-!
# Patterns as expressions

The grammar of patterns is a part of the grammar of expressions: what a text spells as a pattern,
it spells as an expression (`Pattern.spells_of_read`). A step of the pattern is a path from what
stands before it; `//` stands for a step to all descendants in between.
-/

namespace XPath

open Reader

namespace Pattern

mutual

/-- Some step goes back to an `id()`. -/
def usesId : Pattern → Bool
  | id _ => true
  | location _ parent ancestor _ _ => usesIdOption parent || usesIdOption ancestor
  | union a b => a.usesId || b.usesId
  | _ => false

def usesIdOption : Option Pattern → Bool
  | none => false
  | some p => p.usesId

end

/-- The test of an expression on an axis, and the test of the pattern step for it. -/
structure Tests (axis : Axis) (test test' : NodeTest) : Prop where
  fits : test.Fits axis
  kind : test.kind ≠ .document
  axis : (axis = .child ∧ test' = test) ∨ (axis = .attributeAxis ∧ test' = onAttributes test)

/-- The call of `key()` with string literals. -/
def keyCall (s : StaticScope) (display value : String) : Expr :=
  .call .key [.string display, .string value]
    { CallBinding.free with scope := some s.nameScope }

/-- The pattern and the expression are spelled alike. -/
inductive Spells (s : StaticScope) : Pattern → Expr → Prop
  | document : Spells s document .root
  | key {name : ExpandedName} {display value : String} (h : s.resolve display false = .ok name) :
      Spells s (key name display value) (keyCall s display value)
  | first {axis : Axis} {test test' : NodeTest} (h : Tests axis test test')
      (predicates : List Expr) :
      Spells s (step test' predicates) (.path .contextNode axis test predicates)
  | child {p : Pattern} {e : Expr} {axis : Axis} {test test' : NodeTest} (hp : Spells s p e)
      (h : Tests axis test test') (predicates : List Expr) :
      Spells s (location test' (some p) none predicates .each) (.path e axis test predicates)
  | under {p : Pattern} {e : Expr} {axis : Axis} {test test' : NodeTest} (hp : Spells s p e)
      (h : Tests axis test test') (predicates : List Expr) :
      Spells s (location test' none (some p) predicates .each)
        (.path (e.thenStep Expr.anyDescendant) axis test predicates)
  | union {p q : Pattern} {e f : Expr} (hp : Spells s p e) (hq : Spells s q f) :
      Spells s (union p q) (.setOperation .union e f)

def Starts (s : StaticScope) : Option (Pattern × Link) → Expr → Prop
  | none, start => start = .contextNode
  | some (p, .parent), start => Spells s p start
  | some (p, .ancestor), start => ∃ e, Spells s p e ∧ start = e.thenStep Expr.anyDescendant

variable {s : StaticScope} {p q : Pattern} {e start : Expr} {axis : Axis} {test test' : NodeTest}
  {before : Option (Pattern × Link)} {predicates : List Expr} {b c d m : Cursor} {depth : Nat}

theorem Spells.dataType (h : Spells s p e) : e.dataType = .nodeSet := by
  cases h <;> rfl

theorem Starts.tie (h : Starts s before start) (htest : Tests axis test test') :
    Spells s (tie before test' predicates) (start.thenStep ⟨axis, test, predicates⟩) := by
  match before, h with
  | none, h =>
      obtain rfl := h
      exact .first htest _
  | some (p, .parent), h => exact .child h htest _
  | some (p, .ancestor), h =>
      obtain ⟨e, he, rfl⟩ := h
      exact .under he htest _

end Pattern

/-! ## What is read in front of the end of an operand -/

namespace Expr

variable {s : StaticScope} {e : Expr} {c d m : Cursor} {depth : Nat} {inner : Reader Expr}

def closes : TokenKind → Bool
  | .comma | .rightParen | .eof => true
  | _ => false

theorem takes_operatorLevel {operator? : TokenKind → Option BinaryOperator}
    {operand : Reader Expr} (h : Takes operand c e d) (hd : operator? d.current.kind = none) :
    Takes (operatorLevel operator? operand) c e d := by
  refine takes_bind.mpr ⟨e, d, h, takes_bind.mpr ⟨_, d, takes_remaining.mpr ⟨rfl, rfl⟩, ?_⟩⟩
  rw [moreOperands]
  refine takes_bind.mpr ⟨_, d, takes_kind.mpr ⟨rfl, rfl⟩, ?_⟩
  rw [hd]
  exact takes_pure.mpr ⟨rfl, rfl⟩

theorem takes_moreUnion_still {operand : Reader Expr} (hd : d.current.kind ≠ .union) (n : Nat) :
    Takes (moreUnion operand n e) d e d := by
  cases n with
  | zero => exact takes_pure.mpr ⟨rfl, rfl⟩
  | succ n =>
      rw [moreUnion]
      refine takes_bind.mpr ⟨false, d, takes_sees.mpr ⟨?_, rfl⟩, takes_pure.mpr ⟨rfl, rfl⟩⟩
      simpa using hd

theorem takes_moreSteps_still (hslash : d.current.kind ≠ .slash)
    (hslashes : d.current.kind ≠ .slashSlash) (n : Nat) :
    Takes (moreSteps s inner n e) d e d := by
  cases n with
  | zero => exact takes_pure.mpr ⟨rfl, rfl⟩
  | succ n =>
      rw [moreSteps]
      refine takes_bind.mpr ⟨_, d, takes_kind.mpr ⟨rfl, rfl⟩, ?_⟩
      split
      · contradiction
      · contradiction
      · exact takes_pure.mpr ⟨rfl, rfl⟩

theorem takes_predicates_nil (hd : d.current.kind ≠ .leftSquare) :
    Takes (predicates inner) d [] d := by
  refine takes_bind.mpr ⟨_, d, takes_remaining.mpr ⟨rfl, rfl⟩, ?_⟩
  rw [predicateList]
  refine takes_bind.mpr ⟨false, d, takes_sees.mpr ⟨?_, rfl⟩, takes_pure.mpr ⟨rfl, rfl⟩⟩
  simpa using hd

theorem takes_expression (h : Takes (unionExpression s (expression s depth)) c e d)
    (hc : c.current.kind ≠ .negate) (hd : closes d.current.kind = true) :
    Takes (expression s (depth + 1)) c e d := by
  have hunary : Takes (unaryExpression s (expression s depth)) c e d := by
    refine takes_bind.mpr ⟨_, c, takes_remaining.mpr ⟨rfl, rfl⟩, ?_⟩
    rw [negations]
    refine takes_bind.mpr ⟨false, c, takes_sees.mpr ⟨?_, rfl⟩, h⟩
    simpa using hc
  have hnone : orOperator? d.current.kind = none ∧ andOperator? d.current.kind = none ∧
      equalityOperator? d.current.kind = none ∧ relationalOperator? d.current.kind = none ∧
      additiveOperator? d.current.kind = none ∧ multiplicativeOperator? d.current.kind = none := by
    unfold closes at hd
    split at hd <;> simp_all [orOperator?, andOperator?, equalityOperator?, relationalOperator?,
      additiveOperator?, multiplicativeOperator?]
  obtain ⟨hor, hand, hequality, hrelational, hadditive, hmultiplicative⟩ := hnone
  exact takes_operatorLevel (takes_operatorLevel (takes_operatorLevel (takes_operatorLevel
    (takes_operatorLevel (takes_operatorLevel hunary hmultiplicative) hadditive) hrelational)
    hequality) hand) hor

/-- A primary expression that no predicate and no step follows. -/
theorem takes_pathExpression_of_primary (h : Takes (primary s inner) c e m)
    (hm : m.current.kind ≠ .leftSquare) (hstep : startsStep c.current.kind = false)
    (hslash : c.current.kind ≠ .slash) (hslashes : c.current.kind ≠ .slashSlash) {f : Expr}
    (hf : Takes (continuePath s inner e) m f d) : Takes (pathExpression s inner) c f d := by
  refine takes_bind.mpr ⟨_, c, takes_kind.mpr ⟨rfl, rfl⟩, ?_⟩
  split
  · contradiction
  · contradiction
  · rw [hstep]
    exact takes_bind.mpr ⟨e, m, takes_bind.mpr ⟨e, m, h, takes_bind.mpr ⟨[], m,
      takes_predicates_nil hm, takes_pure.mpr ⟨rfl, rfl⟩⟩⟩, hf⟩

theorem kind_of_pathExpression (h : Takes (pathExpression s inner) c e d) :
    c.current.kind ≠ .negate := by
  intro hc
  obtain ⟨k, c, hk, h⟩ := takes_bind.mp h
  obtain ⟨rfl, rfl⟩ := takes_kind.mp hk
  rw [hc] at h
  obtain ⟨_, _, h, -⟩ := takes_bind.mp h
  obtain ⟨_, _, h, -⟩ := takes_bind.mp h
  obtain ⟨k, c, hk, h⟩ := takes_bind.mp h
  obtain ⟨rfl, rfl⟩ := takes_kind.mp hk
  rw [hc] at h
  exact not_takes_faultHere _ h

theorem takes_string (hc : c.current.kind = .literal) (hstep : c.step = .ok d)
    (hd : closes d.current.kind = true) :
    Takes (expression s (depth + 1)) c (string c.current.value) d := by
  have hprimary : Takes (primary s (expression s depth)) c (string c.current.value) d := by
    refine takes_bind.mpr ⟨_, c, takes_kind.mpr ⟨rfl, rfl⟩, ?_⟩
    rw [hc]
    exact takes_bind.mpr ⟨_, d, takes_advance.mpr ⟨rfl, hstep⟩, takes_pure.mpr ⟨rfl, rfl⟩⟩
  have hkinds : d.current.kind ≠ .leftSquare ∧ d.current.kind ≠ .slash ∧
      d.current.kind ≠ .slashSlash ∧ d.current.kind ≠ .union := by
    refine ⟨?_, ?_, ?_, ?_⟩ <;> intro heq <;> rw [heq] at hd <;> cases hd
  obtain ⟨hsquare, hslash, hslashes, hunion⟩ := hkinds
  refine takes_expression ?_ (by simp [hc]) hd
  refine takes_bind.mpr ⟨_, d, ?_, takes_bind.mpr ⟨_, d, takes_remaining.mpr ⟨rfl, rfl⟩,
    takes_moreUnion_still hunion _⟩⟩
  exact takes_pathExpression_of_primary hprimary hsquare (by simp [hc, startsStep]) (by simp [hc])
    (by simp [hc]) (takes_bind.mpr ⟨_, d, takes_remaining.mpr ⟨rfl, rfl⟩,
      takes_moreSteps_still hslash hslashes _⟩)

theorem takes_literals {c₁ c₂ c₃ : Cursor} (hliteral : c.current.kind = .literal)
    (hstep : c.step = .ok c₁) (hcomma : c₁.current.kind = .comma) (hstep₁ : c₁.step = .ok c₂)
    (hliteral' : c₂.current.kind = .literal) (hstep₂ : c₂.step = .ok c₃)
    (hparen : c₃.current.kind = .rightParen) (hstep₃ : c₃.step = .ok d)
    (hrest : 0 < c₁.rest.length) :
    Takes (arguments (expression s (depth + 1))) c
      [string c.current.value, string c₂.current.value] d := by
  obtain ⟨n, hn⟩ : ∃ n, c₁.rest.length = n + 1 := ⟨c₁.rest.length - 1, by omega⟩
  have hlast : Takes (moreArguments (expression s (depth + 1)) (n + 1)) c₃ [] d := by
    rw [moreArguments]
    refine takes_bind.mpr ⟨_, _, takes_kind.mpr ⟨rfl, rfl⟩, ?_⟩
    rw [hparen]
    exact takes_bind.mpr ⟨_, _, takes_advance.mpr ⟨rfl, hstep₃⟩, takes_pure.mpr ⟨rfl, rfl⟩⟩
  have hsecond : Takes (moreArguments (expression s (depth + 1)) (n + 2)) c₁
      [string c₂.current.value] d := by
    rw [moreArguments]
    refine takes_bind.mpr ⟨_, _, takes_kind.mpr ⟨rfl, rfl⟩, ?_⟩
    rw [hcomma]
    exact takes_bind.mpr ⟨_, _, takes_advance.mpr ⟨rfl, hstep₁⟩, takes_bind.mpr ⟨_, _,
      takes_string hliteral' hstep₂ (by simp [hparen, closes]),
      takes_bind.mpr ⟨_, _, hlast, takes_pure.mpr ⟨rfl, rfl⟩⟩⟩⟩
  refine takes_bind.mpr ⟨false, _, takes_sees.mpr ⟨by simp [hliteral], rfl⟩, ?_⟩
  refine takes_bind.mpr ⟨_, _, takes_string hliteral hstep (by simp [hcomma, closes]),
    takes_bind.mpr ⟨_, _, takes_remaining.mpr ⟨rfl, rfl⟩, ?_⟩⟩
  rw [hn]
  exact takes_bind.mpr ⟨_, _, hsecond, takes_pure.mpr ⟨rfl, rfl⟩⟩

/-- Predicates that can be nested as deep as there are tokens can be nested deeper. -/
theorem takes_predicates {es : List Expr} (h : Takes (predicates (nested s)) c es d)
    (hends : d.Ends) (hdepth : c.rest.length ≤ depth) :
    Takes (predicates (expression s depth)) c es d := by
  have hlist (steps : Nat) : ∀ {c es}, Takes (predicateList (nested s) steps) c es d →
      c.rest.length ≤ depth → Takes (predicateList (expression s depth) steps) c es d := by
    induction steps with
    | zero => exact fun h _ => h
    | succ steps ih =>
        intro c es h hdepth
        rw [predicateList] at h ⊢
        obtain ⟨seen, _, hseen, h⟩ := takes_bind.mp h
        obtain ⟨rfl, rfl⟩ := takes_sees.mp hseen
        refine takes_bind.mpr ⟨_, _, hseen, ?_⟩
        split at h
        · rename_i hsquare
          rw [if_pos hsquare]
          obtain ⟨t, m, hadvance, h⟩ := takes_bind.mp h
          obtain ⟨e, m', he, h⟩ := takes_bind.mp h
          obtain ⟨t', m'', hclose, h⟩ := takes_bind.mp h
          obtain ⟨es', m''', hes, h⟩ := takes_bind.mp h
          obtain ⟨rfl, rfl⟩ := takes_pure.mp h
          have hbehind := (follows_predicateList (follows_nested s) steps).behind hes
          have hbehind' := (Follows.expect _).behind hclose
          have hbehind'' := (follows_nested s).behind he
          have hlt := Cursor.length_step (takes_advance.mp hadvance).2
            (hbehind''.ends (hbehind'.ends (hbehind.ends hends)))
            (by rw [eq_of_beq hsquare]; decide)
          have hle := hbehind'.length_le
          have hle' := hbehind''.length_le
          refine takes_bind.mpr ⟨_, _, hadvance, takes_bind.mpr ⟨_, _,
            takes_expression_of_nested he (by omega), takes_bind.mpr ⟨_, _, hclose,
              takes_bind.mpr ⟨_, _, ih hes (by omega), takes_pure.mpr ⟨rfl, rfl⟩⟩⟩⟩⟩
        · rename_i hsquare
          rw [if_neg hsquare]
          exact h
  obtain ⟨n, _, hn, h⟩ := takes_bind.mp h
  obtain ⟨rfl, rfl⟩ := takes_remaining.mp hn
  exact takes_bind.mpr ⟨_, _, hn, hlist _ h hdepth⟩

theorem makes_kind (axis : Axis) :
    Makes (fun t => t.kind ≠ .document) (nodeTest s axis.principalKind) := by
  have hprincipal (name : NameTest) : (NodeTest.mk axis.principalKind name).kind ≠ .document := by
    cases axis <;> simp [Axis.principalKind]
  unfold nodeTest
  refine .after fun k => ?_
  split
  · exact .after fun _ => .after fun name => .pure (hprincipal _)
  · exact .after fun _ => .after fun uri => .pure (hprincipal _)
  · exact .after fun _ => .pure (hprincipal _)
  · refine .after fun token => ?_
    have hkind {kind : NodeKind} {name : NameTest} (h : kind ≠ .document) :
        Makes (fun t : NodeTest => t.kind ≠ .document) (Pure.pure ⟨kind, name⟩) := .pure h
    dsimp only
    split
    · exact (hkind (by decide)).bind fun _ h => .after fun _ => .pure h
    · exact (hkind (by decide)).bind fun _ h => .after fun _ => .pure h
    · exact (hkind (by decide)).bind fun _ h => .after fun _ => .pure h
    · refine .after fun seen => ?_
      split
      · refine .after fun target => ?_
        exact (hkind (by decide)).bind fun _ h => .after fun _ => .pure h
      · exact (hkind (by decide)).bind fun _ h => .after fun _ => .pure h
  · exact .faultHere _

theorem kind_of_nodeTest {principal : NodeKind} {test : NodeTest}
    (h : Takes (nodeTest s principal) c test d) :
    c.current.kind = .name ∨ c.current.kind = .namespaceWildcard ∨ c.current.kind = .star ∨
      c.current.kind = .nodeType := by
  obtain ⟨k, _, hk, h⟩ := takes_bind.mp h
  obtain ⟨rfl, rfl⟩ := takes_kind.mp hk
  split at h
  · exact .inl ‹_›
  · exact .inr (.inl ‹_›)
  · exact .inr (.inr (.inl ‹_›))
  · exact .inr (.inr (.inr ‹_›))
  · exact absurd h (not_takes_faultHere _)

end Expr

namespace Pattern

variable {s : StaticScope} {p q : Pattern} {e start : Expr} {test' : NodeTest}
  {before : Option (Pattern × Link)} {es : List Expr} {c d m : Cursor} {depth : Nat}

/-! ## Steps -/

theorem follows_stepAxis : Follows stepAxis stepAxis := by
  unfold stepAxis
  refine .bind .kind fun k => ?_
  split
  · exact .bind .advance fun _ => .pure _
  · refine .bind .advance fun t => ?_
    split
    · exact .pure _
    · exact .pure _
    · exact .fault _ _
  · exact .pure _

theorem axis_of_stepAxis {axis : Axis} (h : Takes stepAxis c axis m) :
    axis = .child ∨ axis = .attributeAxis := by
  obtain ⟨k, _, -, h⟩ := takes_bind.mp h
  split at h
  · obtain ⟨_, _, -, h⟩ := takes_bind.mp h
    exact .inr (takes_pure.mp h).1
  · obtain ⟨_, _, -, h⟩ := takes_bind.mp h
    split at h
    · exact .inl (takes_pure.mp h).1
    · exact .inr (takes_pure.mp h).1
    · exact absurd h (not_takes_fault _)
  · exact .inl (takes_pure.mp h).1

/-- The axis of a pattern step begins a step of an expression, too. -/
theorem takes_step_of_stepAxis {axis : Axis} {inner : Reader Expr} {t : Expr.Step}
    (haxis : Takes stepAxis c axis m) (hm : m.current.kind = .name ∨
      m.current.kind = .namespaceWildcard ∨ m.current.kind = .star ∨ m.current.kind = .nodeType)
    (ht : Takes (Expr.testedStep s inner axis) m t d) : Takes (Expr.step s inner) c t d := by
  unfold Expr.step
  refine takes_bind.mpr ⟨_, _, takes_kind.mpr ⟨rfl, rfl⟩, ?_⟩
  obtain ⟨k, _, hk, h⟩ := takes_bind.mp haxis
  obtain ⟨rfl, rfl⟩ := takes_kind.mp hk
  split at h
  · rename_i hkind
    obtain ⟨_, _, hadvance, h⟩ := takes_bind.mp h
    obtain ⟨rfl, rfl⟩ := takes_pure.mp h
    rw [hkind]
    exact takes_bind.mpr ⟨_, _, hadvance, ht⟩
  · rename_i hkind
    obtain ⟨token, _, hadvance, h⟩ := takes_bind.mp h
    rw [hkind]
    refine takes_bind.mpr ⟨_, _, hadvance, ?_⟩
    split at h
    · rename_i hname
      obtain ⟨rfl, rfl⟩ := takes_pure.mp h
      rw [hname]
      dsimp only
      rw [show Axis.ofName? "child" = some .child by decide]
      exact ht
    · rename_i hname
      obtain ⟨rfl, rfl⟩ := takes_pure.mp h
      rw [hname]
      dsimp only
      rw [show Axis.ofName? "attribute" = some .attributeAxis by decide]
      exact ht
    · exact absurd h (not_takes_fault _)
  · obtain ⟨rfl, rfl⟩ := takes_pure.mp h
    rcases hm with hm | hm | hm | hm <;> rw [hm] <;> exact ht

theorem takes_step (h : Takes (testAndPredicates s) c (test', es) d) (hends : d.Ends)
    (hdepth : c.rest.length ≤ depth) :
    ∃ axis test, Tests axis test test' ∧ d.Behind c ∧
      Takes (Expr.step s (Expr.expression s depth)) c ⟨axis, test, es⟩ d := by
  obtain ⟨axis, m, haxis, h⟩ := takes_bind.mp h
  obtain ⟨test, m', htest, h⟩ := takes_bind.mp h
  obtain ⟨es', m'', hes, h⟩ := takes_bind.mp h
  have hresult : test' = (if axis == .attributeAxis then onAttributes test else test) ∧ es' = es ∧
      m'' = d := by
    dsimp only at h
    generalize (if axis == .attributeAxis then onAttributes test else test) = shown at h ⊢
    split at h
    · obtain ⟨_, _, h, -⟩ := takes_bind.mp h
      exact absurd h (not_takes_fault _)
    · obtain ⟨heq, rfl⟩ := takes_pure.mp h
      cases heq
      exact ⟨rfl, rfl, rfl⟩
  obtain ⟨rfl, rfl, rfl⟩ := hresult
  have hbehind := (Expr.follows_predicates (Expr.follows_nested s)).behind hes
  have hbehind' := (Expr.follows_nodeTest s _).behind htest
  have hbehind'' := follows_stepAxis.behind haxis
  have hle := hbehind'.length_le
  have hle' := hbehind''.length_le
  have htested : Takes (Expr.testedStep s (Expr.expression s depth) axis) m ⟨axis, test, es'⟩ m'' :=
    takes_bind.mpr ⟨_, _, htest, takes_bind.mpr ⟨_, _,
      Expr.takes_predicates hes hends (by omega), takes_pure.mpr ⟨rfl, rfl⟩⟩⟩
  refine ⟨axis, test, ?_, hbehind.trans (hbehind'.trans hbehind''),
    takes_step_of_stepAxis haxis (Expr.kind_of_nodeTest htest) htested⟩
  refine ⟨Expr.makes_nodeTest s axis m _ htest, Expr.makes_kind axis m _ htest, ?_⟩
  rcases axis_of_stepAxis haxis with rfl | rfl
  · exact .inl ⟨rfl, rfl⟩
  · exact .inr ⟨rfl, rfl⟩

theorem follows_testAndPredicates : Follows (testAndPredicates s) (testAndPredicates s) := by
  refine .bind follows_stepAxis fun axis => .bind (Expr.follows_nodeTest s _) fun test =>
    .bind (Expr.follows_predicates (Expr.follows_nested s)) fun es => ?_
  dsimp only
  generalize (if axis == .attributeAxis then onAttributes test else test) = shown
  split
  · exact (Follows.fault _ (fault _)).bind fun _ => .pure _
  · exact .pure _

theorem follows_link? : Follows link? link? := by
  unfold link?
  refine .bind .kind fun k => ?_
  split
  · exact .bind .advance fun _ => .pure _
  · exact .bind .advance fun _ => .pure _
  · exact .pure _

theorem follows_afterStep {before : Pattern → Link → Reader Pattern}
    (hbefore : ∀ p link, Follows (before p link) (before p link)) (p : Pattern) (l : Option Link) :
    Follows (match l with | some link => before p link | none => pure p)
      (match l with | some link => before p link | none => pure p) := by
  cases l with
  | some link => exact hbefore p link
  | none => exact .pure _

theorem follows_steps (fuel : Nat) (before : Option (Pattern × Link)) :
    Follows (steps s fuel before) (steps s fuel before) := by
  induction fuel generalizing before with
  | zero => exact .throw _ _
  | succ fuel ih =>
      rw [steps]
      refine .bind (.sees _) fun seen => ?_
      have hstep := Follows.bind (follows_testAndPredicates (s := s)) fun t =>
        Follows.bind follows_link? fun l =>
          follows_afterStep (fun p link => ih (some (p, link))) (tie before t.1 t.2) l
      split
      · have hfault : Follows (fault .functionInsidePattern : Reader PUnit)
            (fault .functionInsidePattern) := .fault _ _
        exact hfault.bind fun _ => hstep
      · exact hstep

theorem takes_link? {l : Option Link} (h : Takes link? c l d) :
    (l = some .parent ∧ c.current.kind = .slash ∧ c.step = .ok d) ∨
      (l = some .ancestor ∧ c.current.kind = .slashSlash ∧ c.step = .ok d) ∨
        (l = none ∧ c.current.kind ≠ .slash ∧ c.current.kind ≠ .slashSlash ∧ d = c) := by
  obtain ⟨k, _, hk, h⟩ := takes_bind.mp h
  obtain ⟨rfl, rfl⟩ := takes_kind.mp hk
  split at h
  · obtain ⟨_, _, hadvance, h⟩ := takes_bind.mp h
    obtain ⟨rfl, rfl⟩ := takes_pure.mp h
    exact .inl ⟨rfl, ‹_›, (takes_advance.mp hadvance).2⟩
  · obtain ⟨_, _, hadvance, h⟩ := takes_bind.mp h
    obtain ⟨rfl, rfl⟩ := takes_pure.mp h
    exact .inr (.inl ⟨rfl, ‹_›, (takes_advance.mp hadvance).2⟩)
  · rename_i hslash hslashes
    obtain ⟨rfl, rfl⟩ := takes_pure.mp h
    exact .inr (.inr ⟨rfl, hslash, hslashes, rfl⟩)

/-- The steps that a pattern goes on with are those that the expression goes on with. -/
def Continues (s : StaticScope) (depth fuel : Nat) : Prop :=
  ∀ {before start c q d}, Starts s before start → Takes (steps s fuel before) c q d → d.Ends →
    c.rest.length ≤ depth → ∃ t m, m.Behind c ∧
      Takes (Expr.step s (Expr.expression s depth)) c t m ∧ ∀ n, m.rest.length < n →
        ∃ r, Spells s q r ∧
          Takes (Expr.moreSteps s (Expr.expression s depth) n (start.thenStep t)) m r d

theorem Continues.link {fuel : Nat} {l : Option Link} (h : Continues s depth fuel)
    (hp : Spells s p e) (hlink : Takes link? c l m)
    (hrest : Takes (match l with
      | some link => steps s fuel (some (p, link))
      | none => pure p) m q d)
    (hends : d.Ends) (hdepth : c.rest.length ≤ depth) {n : Nat} (hn : c.rest.length < n) :
    ∃ r, Spells s q r ∧ Takes (Expr.moreSteps s (Expr.expression s depth) n e) c r d := by
  obtain ⟨k, rfl⟩ : ∃ k, n = k + 1 := ⟨n - 1, by omega⟩
  have hstep {before start} (hstart : Starts s before start)
      (hrest : Takes (steps s fuel before) m q d) (hm : c.step = .ok m)
      (hkind : c.current.kind ≠ .eof) : ∃ r, Spells s q r ∧ Takes (do
        let t ← Expr.step s (Expr.expression s depth)
        Expr.moreSteps s (Expr.expression s depth) k (start.thenStep t)) m r d := by
    have hle := (Cursor.behind_step hm).length_le
    have hlt := Cursor.length_step hm (((follows_steps _ _).behind hrest).ends hends) hkind
    obtain ⟨t, m', hbehind, ht, hmore⟩ := h hstart hrest hends (by omega)
    have hle' := hbehind.length_le
    obtain ⟨r, hr, hread⟩ := hmore k (by omega)
    exact ⟨r, hr, takes_bind.mpr ⟨_, _, ht, hread⟩⟩
  rcases takes_link? hlink with ⟨rfl, hkind, hm⟩ | ⟨rfl, hkind, hm⟩ | ⟨rfl, hslash, hslashes, rfl⟩
  · have hstart : Starts s (some (p, .parent)) e := hp
    obtain ⟨r, hr, hread⟩ := hstep hstart hrest hm (by simp [hkind])
    refine ⟨r, hr, ?_⟩
    rw [Expr.moreSteps]
    refine takes_bind.mpr ⟨_, _, takes_kind.mpr ⟨rfl, rfl⟩, ?_⟩
    rw [hkind]
    exact takes_bind.mpr ⟨_, _, takes_advance.mpr ⟨rfl, hm⟩, hread⟩
  · have hstart : Starts s (some (p, .ancestor)) (e.thenStep Expr.anyDescendant) := ⟨e, hp, rfl⟩
    obtain ⟨r, hr, hread⟩ := hstep hstart hrest hm (by simp [hkind])
    refine ⟨r, hr, ?_⟩
    rw [Expr.moreSteps]
    refine takes_bind.mpr ⟨_, _, takes_kind.mpr ⟨rfl, rfl⟩, ?_⟩
    rw [hkind]
    exact takes_bind.mpr ⟨_, _, takes_advance.mpr ⟨rfl, hm⟩, hread⟩
  · obtain ⟨rfl, rfl⟩ := takes_pure.mp hrest
    exact ⟨e, hp, Expr.takes_moreSteps_still hslash hslashes _⟩

theorem continues (s : StaticScope) (depth fuel : Nat) : Continues s depth fuel := by
  induction fuel with
  | zero => exact fun _ h => absurd h (not_takes_throw _)
  | succ fuel ih =>
      intro before start c q d hstart h hends hdepth
      rw [steps] at h
      obtain ⟨seen, _, hseen, h⟩ := takes_bind.mp h
      obtain ⟨rfl, rfl⟩ := takes_sees.mp hseen
      split at h
      · obtain ⟨_, _, h, -⟩ := takes_bind.mp h
        exact absurd h (not_takes_fault _)
      · obtain ⟨⟨test', es⟩, m, hstep, h⟩ := takes_bind.mp h
        obtain ⟨l, m', hlink, h⟩ := takes_bind.mp h
        have hbehind : d.Behind m' := by
          split at h
          · exact (follows_steps _ _).behind h
          · exact (Follows.pure _).behind h
        have hm := (hbehind.trans (follows_link?.behind hlink)).ends hends
        obtain ⟨axis, test, htest, hbehind', hread⟩ := takes_step hstep hm hdepth
        have hle := hbehind'.length_le
        exact ⟨_, m, hbehind', hread, fun n hn => ih.link (hstart.tie htest) hlink h hends
          (by omega) hn⟩

/-! ## Paths -/

theorem startsStep_of_steps {fuel : Nat} (h : Takes (steps s fuel before) c q d) :
    Expr.startsStep c.current.kind = true := by
  cases fuel with
  | zero => exact absurd h (not_takes_throw _)
  | succ fuel =>
      rw [steps] at h
      obtain ⟨seen, _, hseen, h⟩ := takes_bind.mp h
      obtain ⟨rfl, rfl⟩ := takes_sees.mp hseen
      split at h
      · obtain ⟨_, _, h, -⟩ := takes_bind.mp h
        exact absurd h (not_takes_fault _)
      · obtain ⟨_, _, hstep, -⟩ := takes_bind.mp h
        obtain ⟨axis, m, haxis, hstep⟩ := takes_bind.mp hstep
        obtain ⟨test, _, htest, -⟩ := takes_bind.mp hstep
        obtain ⟨k, _, hk, haxis⟩ := takes_bind.mp haxis
        obtain ⟨rfl, rfl⟩ := takes_kind.mp hk
        split at haxis
        · simp [*, Expr.startsStep]
        · simp [*, Expr.startsStep]
        · obtain ⟨rfl, rfl⟩ := takes_pure.mp haxis
          rcases Expr.kind_of_nodeTest htest with hm | hm | hm | hm <;> simp [hm, Expr.startsStep]

theorem usesId_tie (before : Option (Pattern × Link)) (test : NodeTest) (es : List Expr) :
    (tie before test es).usesId = usesIdOption (before.map (·.1)) := by
  match before with
  | none | some (p, .parent) | some (p, .ancestor) =>
      simp [tie, step, usesId, usesIdOption]

theorem usesId_steps {fuel : Nat} (h : Takes (steps s fuel before) c q d)
    (hq : q.usesId = false) : usesIdOption (before.map (·.1)) = false := by
  induction fuel generalizing before c with
  | zero => exact absurd h (not_takes_throw _)
  | succ fuel ih =>
      rw [steps] at h
      obtain ⟨seen, _, -, h⟩ := takes_bind.mp h
      split at h
      · obtain ⟨_, _, h, -⟩ := takes_bind.mp h
        exact absurd h (not_takes_fault _)
      · obtain ⟨⟨test', es⟩, m, -, h⟩ := takes_bind.mp h
        obtain ⟨l, m', -, h⟩ := takes_bind.mp h
        rw [← usesId_tie before test' es]
        split at h
        · exact ih h
        · obtain ⟨rfl, rfl⟩ := takes_pure.mp h
          exact hq

theorem takes_relativePath {fuel : Nat} (hstart : Starts s before start)
    (h : Takes (steps s fuel before) c q d) (hends : d.Ends) (hdepth : c.rest.length ≤ depth) :
    ∃ r, Spells s q r ∧ Takes (Expr.relativePath s (Expr.expression s depth) start) c r d := by
  obtain ⟨t, m, -, ht, hmore⟩ := continues s depth fuel hstart h hends hdepth
  obtain ⟨r, hr, hread⟩ := hmore _ (Nat.lt_succ_self _)
  exact ⟨r, hr, takes_bind.mpr ⟨_, _, ht, takes_bind.mpr ⟨_, _, takes_remaining.mpr ⟨rfl, rfl⟩,
    hread⟩⟩⟩

theorem follows_anchor : Follows (anchor s) (anchor s) := by
  refine .bind .advance fun t => ?_
  split
  · exact .bind (.expect _) fun _ => .bind (.expect _) fun _ => .pure _
  · exact .bind (.expect _) fun _ => .bind (.expect _) fun _ => .bind (.expect _) fun _ =>
      .bind (.expect _) fun _ => .bind (.lift _) fun _ => .pure _
  · exact .fault _ _

/-- An anchor that is no `id()` is a call of `key()`. -/
theorem takes_anchor (h : Takes (anchor s) c p d) (hc : c.current.kind = .functionName)
    (hp : p.usesId = false) (hends : d.Ends) (hdepth : c.rest.length ≤ depth) :
    ∃ e, Spells s p e ∧ Takes (Expr.primary s (Expr.expression s depth)) c e d := by
  obtain ⟨name, m, hname, h⟩ := takes_bind.mp h
  split at h
  · obtain ⟨_, _, -, h⟩ := takes_bind.mp h
    obtain ⟨_, _, -, h⟩ := takes_bind.mp h
    obtain ⟨rfl, rfl⟩ := takes_pure.mp h
    cases hp
  · rename_i hkey
    obtain ⟨display, m₁, hdisplay, h⟩ := takes_bind.mp h
    obtain ⟨comma, m₂, hcomma, h⟩ := takes_bind.mp h
    obtain ⟨value, m₃, hvalue, h⟩ := takes_bind.mp h
    obtain ⟨paren, m₄, hparen, h⟩ := takes_bind.mp h
    obtain ⟨resolved, m₅, hresolved, h⟩ := takes_bind.mp h
    obtain ⟨rfl, rfl⟩ := takes_pure.mp h
    obtain ⟨hkeyed, rfl⟩ := takes_lift.mp hresolved
    obtain ⟨hliteral, rfl, hstep₁⟩ := takes_expect.mp hdisplay
    obtain ⟨hcomma, -, hstep₂⟩ := takes_expect.mp hcomma
    obtain ⟨hliteral', rfl, hstep₃⟩ := takes_expect.mp hvalue
    obtain ⟨hparen, -, hstep₄⟩ := takes_expect.mp hparen
    obtain ⟨rfl, hstep⟩ := takes_advance.mp hname
    have hends₃ := (Cursor.behind_step hstep₄).ends hends
    have hends₂ := (Cursor.behind_step hstep₃).ends hends₃
    have hends₁ := (Cursor.behind_step hstep₂).ends hends₂
    have hlt := Cursor.length_step hstep₂ hends₂ (by simp [hcomma])
    have hlt' := Cursor.length_step hstep₁ hends₁ (by simp [hliteral])
    have hle := (Cursor.behind_step hstep).length_le
    obtain ⟨k, rfl⟩ : ∃ k, depth = k + 1 := ⟨depth - 1, by omega⟩
    refine ⟨_, .key hkeyed, takes_bind.mpr ⟨_, _, takes_kind.mpr ⟨rfl, rfl⟩, ?_⟩⟩
    rw [hc]
    refine takes_bind.mpr ⟨_, _, takes_advance.mpr ⟨rfl, hstep⟩, ?_⟩
    dsimp only
    rw [hkey]
    have harguments := @Expr.takes_literals s _ _ k _ _ _ hliteral hstep₁ hcomma hstep₂ hliteral'
      hstep₃ hparen hstep₄ (by omega)
    exact takes_bind.mpr ⟨_, _, harguments, takes_lift.mpr ⟨by rfl, rfl⟩⟩
  · exact absurd h (not_takes_fault _)

theorem follows_stepsAfter (before : Option (Pattern × Link)) :
    Follows (do steps s ((← remaining) + 1) before) (do steps s ((← remaining) + 1) before) :=
  .bind .remaining fun _ => follows_steps _ _

theorem follows_pathPattern : Follows (pathPattern s) (pathPattern s) := by
  unfold pathPattern
  refine .bind .kind fun k => ?_
  split
  · refine .bind .advance fun _ => .bind .kind fun k => ?_
    split
    · exact follows_stepsAfter _
    · exact .pure _
  · exact .bind .advance fun _ => follows_stepsAfter _
  · refine follows_anchor.bind fun p => follows_link?.bind fun l => ?_
    split
    · exact follows_stepsAfter _
    · exact .pure _
  · exact follows_stepsAfter _

theorem takes_stepsAfter (h : Takes (do steps s ((← remaining) + 1) before) c q d) :
    Takes (steps s (c.rest.length + 1) before) c q d := by
  obtain ⟨n, _, hn, h⟩ := takes_bind.mp h
  obtain ⟨rfl, rfl⟩ := takes_remaining.mp hn
  exact h

theorem takes_anchored {l : Option Link} {m' : Cursor} (hanchor : Takes (anchor s) c p m)
    (hlink : Takes link? m l m')
    (hmore : Takes (match l with
      | some link => steps s (m'.rest.length + 1) (some (p, link))
      | none => pure p) m' q d)
    (hc : c.current.kind = .functionName) (hq : q.usesId = false)
    (hd : d.current.kind = .union ∨ d.current.kind = .eof) (hends : d.Ends)
    (hdepth : c.rest.length ≤ depth) :
    ∃ r, Spells s q r ∧ Takes (Expr.pathExpression s (Expr.expression s depth)) c r d := by
  have hp : p.usesId = false ∧ d.Behind m' := by
    split at hmore
    · exact ⟨usesId_steps hmore hq, (follows_steps _ _).behind hmore⟩
    · obtain ⟨rfl, rfl⟩ := takes_pure.mp hmore
      exact ⟨hq, .refl _⟩
  have hm := (hp.2.trans (follows_link?.behind hlink)).ends hends
  have hle := Nat.le_trans (follows_anchor.behind hanchor).length_le hdepth
  obtain ⟨e, he, hprimary⟩ := takes_anchor hanchor hc hp.1 hm hdepth
  obtain ⟨r, hr, hread⟩ := Continues.link (continues s depth _) he hlink hmore hends hle
    (Nat.lt_succ_self _)
  have hsquare : m.current.kind ≠ .leftSquare := by
    rcases takes_link? hlink with ⟨-, hkind, -⟩ | ⟨-, hkind, -⟩ | ⟨rfl, -, -, rfl⟩
    · simp [hkind]
    · simp [hkind]
    · obtain ⟨rfl, rfl⟩ := takes_pure.mp hmore
      rcases hd with hd | hd <;> simp [hd]
  exact ⟨r, hr, Expr.takes_pathExpression_of_primary hprimary hsquare
    (by simp [hc, Expr.startsStep]) (by simp [hc]) (by simp [hc])
    (takes_bind.mpr ⟨_, _, takes_remaining.mpr ⟨rfl, rfl⟩, hread⟩)⟩

/-- An alternative of a pattern is a path of an expression, if no more of the path is left. -/
theorem takes_pathExpression (h : Takes (pathPattern s) c q d) (hq : q.usesId = false)
    (hd : d.current.kind = .union ∨ d.current.kind = .eof) (hends : d.Ends)
    (hdepth : c.rest.length ≤ depth) :
    ∃ r, Spells s q r ∧ Takes (Expr.pathExpression s (Expr.expression s depth)) c r d := by
  obtain ⟨k, c, hk, h⟩ := takes_bind.mp h
  obtain ⟨rfl, rfl⟩ := takes_kind.mp hk
  split at h
  · rename_i hslash
    obtain ⟨_, m, hadvance, h⟩ := takes_bind.mp h
    obtain ⟨k, m, hk', h⟩ := takes_bind.mp h
    obtain ⟨rfl, rfl⟩ := takes_kind.mp hk'
    have hstep := (takes_advance.mp hadvance).2
    have hle := Nat.le_trans (Follows.advance.behind hadvance).length_le hdepth
    split at h
    · rename_i hstarts
      have hstarts' : Expr.startsStep m.current.kind = true :=
        startsStep_of_steps (takes_stepsAfter h)
      have hroot : Starts s (some (document, .parent)) .root := .document
      obtain ⟨r, hr, hread⟩ := takes_relativePath hroot (takes_stepsAfter h) hends hle
      refine ⟨r, hr, takes_at hslash (takes_over hstep (takes_at rfl ?_))⟩
      rw [if_pos hstarts']
      exact hread
    · obtain ⟨rfl, rfl⟩ := takes_pure.mp h
      refine ⟨_, .document, takes_at hslash (takes_over hstep (takes_at rfl ?_))⟩
      rcases hd with hd | hd <;> rw [hd] <;> exact takes_pure.mpr ⟨rfl, rfl⟩
  · rename_i hslashes
    obtain ⟨_, m, hadvance, h⟩ := takes_bind.mp h
    have hle := Nat.le_trans (Follows.advance.behind hadvance).length_le hdepth
    have hroot : Starts s (some (document, .ancestor)) (Expr.root.thenStep Expr.anyDescendant) :=
      ⟨_, .document, rfl⟩
    obtain ⟨r, hr, hread⟩ := takes_relativePath hroot (takes_stepsAfter h) hends hle
    exact ⟨r, hr, takes_at hslashes (takes_over (takes_advance.mp hadvance).2 hread)⟩
  · rename_i hfunction
    obtain ⟨p, m, hanchor, h⟩ := takes_bind.mp h
    obtain ⟨l, m', hlink, h⟩ := takes_bind.mp h
    refine takes_anchored hanchor hlink ?_ hfunction hq hd hends hdepth
    split at h
    · exact takes_stepsAfter h
    · exact h
  · have hsteps := takes_stepsAfter h
    have hfree : Starts s none .contextNode := rfl
    obtain ⟨r, hr, hread⟩ := takes_relativePath hfree hsteps hends hdepth
    refine ⟨r, hr, takes_at rfl ?_⟩
    split
    · contradiction
    · contradiction
    · rw [if_pos (startsStep_of_steps hsteps)]
      exact hread

/-! ## Alternatives -/

theorem follows_moreAlternatives (fuel : Nat) (p : Pattern) :
    Follows (moreAlternatives s fuel p) (moreAlternatives s fuel p) := by
  induction fuel generalizing p with
  | zero => exact .pure _
  | succ fuel ih =>
      rw [moreAlternatives]
      refine .bind (.sees _) fun seen => ?_
      split
      · exact .bind .advance fun _ => follows_pathPattern.bind fun _ => ih _
      · exact .pure _

theorem usesId_moreAlternatives {fuel : Nat} (h : Takes (moreAlternatives s fuel p) c q d)
    (hq : q.usesId = false) : p.usesId = false := by
  induction fuel generalizing p c with
  | zero =>
      obtain ⟨rfl, rfl⟩ := takes_pure.mp h
      exact hq
  | succ fuel ih =>
      rw [moreAlternatives] at h
      obtain ⟨seen, _, -, h⟩ := takes_bind.mp h
      split at h
      · obtain ⟨_, _, -, h⟩ := takes_bind.mp h
        obtain ⟨p', _, -, h⟩ := takes_bind.mp h
        have hunion := ih h
        rw [usesId, Bool.or_eq_false_iff] at hunion
        exact hunion.1
      · obtain ⟨rfl, rfl⟩ := takes_pure.mp h
        exact hq

theorem kind_of_moreAlternatives {fuel : Nat} (h : Takes (moreAlternatives s fuel p) c q d)
    (hd : d.current.kind = .eof) : c.current.kind = .union ∨ c.current.kind = .eof := by
  cases fuel with
  | zero =>
      obtain ⟨rfl, rfl⟩ := takes_pure.mp h
      exact .inr hd
  | succ fuel =>
      rw [moreAlternatives] at h
      obtain ⟨seen, _, hseen, h⟩ := takes_bind.mp h
      obtain ⟨rfl, rfl⟩ := takes_sees.mp hseen
      split at h
      · exact .inl (eq_of_beq ‹_›)
      · obtain ⟨rfl, rfl⟩ := takes_pure.mp h
        exact .inr hd

theorem takes_moreUnion {fuel : Nat} (hp : Spells s p e)
    (h : Takes (moreAlternatives s fuel p) c q d) (hq : q.usesId = false)
    (hd : d.current.kind = .eof) (hdepth : c.rest.length ≤ depth) {n : Nat}
    (hn : c.rest.length < n) : ∃ r, Spells s q r ∧
      Takes (Expr.moreUnion (Expr.pathExpression s (Expr.expression s depth)) n e) c r d := by
  induction fuel generalizing p e c n with
  | zero =>
      obtain ⟨rfl, rfl⟩ := takes_pure.mp h
      exact ⟨e, hp, Expr.takes_moreUnion_still (by simp [hd]) n⟩
  | succ fuel ih =>
      have hends : d.Ends := ⟨d.current, by simp, hd⟩
      rw [moreAlternatives] at h
      obtain ⟨seen, _, hseen, h⟩ := takes_bind.mp h
      obtain ⟨rfl, rfl⟩ := takes_sees.mp hseen
      split at h
      · rename_i hunion
        obtain ⟨_, m, hadvance, h⟩ := takes_bind.mp h
        obtain ⟨p', m', hpath, h⟩ := takes_bind.mp h
        obtain ⟨n, rfl⟩ : ∃ k, n = k + 1 := ⟨n - 1, by omega⟩
        have hm' := ((follows_moreAlternatives _ _).behind h).ends hends
        have hbehind := follows_pathPattern.behind hpath
        have hle := hbehind.length_le
        have hlt := Cursor.length_step (takes_advance.mp hadvance).2 (hbehind.ends hm')
          (by rw [eq_of_beq hunion]; decide)
        have hp' := usesId_moreAlternatives h hq
        rw [usesId, Bool.or_eq_false_iff] at hp'
        have hle'' : m.rest.length ≤ depth := by omega
        obtain ⟨e', he', hread⟩ := takes_pathExpression hpath hp'.2
          (kind_of_moreAlternatives h hd) hm' hle''
        have hle' : m'.rest.length ≤ depth := by omega
        have hlt' : m'.rest.length < n := by omega
        obtain ⟨r, hr, hmore⟩ := ih (.union hp he') h hle' hlt'
        refine ⟨r, hr, ?_⟩
        rw [Expr.moreUnion]
        refine takes_bind.mpr ⟨_, _, hseen, ?_⟩
        rw [if_pos hunion]
        refine takes_bind.mpr ⟨_, _, hadvance, takes_bind.mpr ⟨_, _, hread, ?_⟩⟩
        simpa [Expr.isUnionOperand, hp.dataType, he'.dataType] using hmore
      · rename_i hunion
        obtain ⟨rfl, rfl⟩ := takes_pure.mp h
        exact ⟨e, hp, Expr.takes_moreUnion_still (by simpa using hunion) n⟩

theorem spells_of_read {source : String} (h : read s source = .ok q) (hq : q.usesId = false) :
    ∃ e, Expr.read s source = .ok e ∧ Spells s q e := by
  obtain ⟨c, hstart, h⟩ := bind_eq_ok.mp h
  obtain ⟨⟨q', d⟩, hread, h⟩ := bind_eq_ok.mp h
  dsimp only at h
  split at h
  · rename_i hd
    cases h
    obtain ⟨p, m, hpath, h⟩ := takes_bind.mp hread
    obtain ⟨n, _, hn, h⟩ := takes_bind.mp h
    obtain ⟨rfl, rfl⟩ := takes_remaining.mp hn
    have hends : d.Ends := ⟨d.current, by simp, hd⟩
    have hm := ((follows_moreAlternatives _ _).behind h).ends hends
    have hle := (follows_pathPattern.behind hpath).length_le
    obtain ⟨e, he, hpath'⟩ := takes_pathExpression hpath (usesId_moreAlternatives h hq)
      (kind_of_moreAlternatives h hd) hm (Nat.le_refl _)
    obtain ⟨r, hr, hmore⟩ := takes_moreUnion he h hq hd hle (Nat.lt_succ_self _)
    have hnested : Takes (Expr.nested s) c r d :=
      Expr.takes_nested.mpr (Expr.takes_expression (takes_bind.mpr ⟨_, _, hpath',
        takes_bind.mpr ⟨_, _, hn, hmore⟩⟩) (Expr.kind_of_pathExpression hpath')
          (by simp [hd, Expr.closes]))
    refine ⟨r, bind_eq_ok.mpr ⟨c, hstart, bind_eq_ok.mpr ⟨(r, d), hnested, ?_⟩⟩, hr⟩
    dsimp only
    rw [if_pos hd]
    rfl
  · cases h

end Pattern

end XPath
