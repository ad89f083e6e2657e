import XPath.Proofs.Agreement.Engine
import XPath.Proofs.Expr.Dependencies
import XPath.Proofs.Expr.Parser
import XPath.Proofs.Pattern.Selection
import XPath.Proofs.Policy.Lax

/-!
# Patterns and the focus

Whether a node matches a pattern does not depend on the focus that the caller has
(`Pattern.accepts_of_same_scope`). Predicates are asked with the node itself as the context node, so
only the current node could come from outside, and the reader takes no predicate that reads it.
-/

namespace XPath

open XPath.Expr hiding failure

variable {h : Host} {c c' : Context} {e : Expr} {n : Node} {F : Forest}

/-- The contexts bind the variables alike and have the same controller. -/
structure Context.SameScope (c c' : Context) : Prop where
  valueOf : ∀ name, c.valueOf name = c'.valueOf name
  controller : c.controller? = c'.controller?

/-- With a node in focus, contexts of one scope differ in the current node only. -/
theorem Context.SameScope.forItem (hc : c.SameScope c') {d : Dependencies} (hd : d.bit 2 = false)
    (n : Node) (k : Nat) (l : LastPosition) : (c.forItem n k l).AgreeOn d (c'.forItem n k l) where
  valueOf _ := hc.valueOf
  currentNode hi := by simp [hd] at hi
  contextNode _ := rfl
  position _ := rfl
  last _ := rfl
  controller _ := hc.controller

/-! ## Expressions without functions of the host -/

namespace Expr

/-- The expression is no call of a function of the host. -/
def NoExtension : Expr → Prop
  | extension .. => False
  | _ => True

end Expr

namespace Policy

def hostless : Policy where
  node _ := True
  fragment _ := True
  reference _ := True
  function _ := False
  error _ := True
  flags _ := True

theorem lax_hostless : hostless.Lax :=
  ⟨fun _ => trivial, fun _ => trivial, fun _ => trivial, fun _ => trivial, fun _ => trivial⟩

theorem hostless_hostless : hostless.Hostless := ⟨fun _ hf => hf, fun _ => trivial, fun _ => trivial⟩

theorem admits_of_noExtension (he : e.Every NoExtension) : hostless.AdmitsExpr e := by
  refine Every.imp₂ (fun e hpart _ => lax_hostless.part ?_) he he
  rintro name display f args rfl
  exact hpart

end Policy

/-- A predicate that reads no current node comes to the same in contexts of one scope. -/
theorem Engine.alike_of_sameScope (hc : c.SameScope c') (he : e.Every NoExtension)
    (hcurrent : e.dependencies.bit 2 = false) (depth : Nat) (n : Node) :
    (h.engine depth).Alike e (c.forItem n 1 (.known 1)) (c'.forItem n 1 (.known 1)) := by
  apply h.congruent_engine_of_hostless Policy.lax_hostless.closed Policy.hostless_hostless
  · exact Policy.admits_of_noExtension he
  · exact Policy.lax_hostless.context _
  · exact fun _ _ => hc.controller
  · exact hc.forItem hcurrent n 1 _

namespace Pattern

open Reader

variable {s : StaticScope} {p : Pattern} {test : NodeTest} {predicates : List Expr}
  {check : PredicateCheck}

/-! ## Conditions on every step -/

mutual

/-- The condition holds of the test, the predicates and the check of every step. -/
def EveryStep (q : NodeTest → List Expr → PredicateCheck → Prop) : Pattern → Prop
  | location test parent ancestor predicates check =>
    q test predicates check ∧ EveryStepOption q parent ∧ EveryStepOption q ancestor
  | union a b => a.EveryStep q ∧ b.EveryStep q
  | _ => True

def EveryStepOption (q : NodeTest → List Expr → PredicateCheck → Prop) : Option Pattern → Prop
  | none => True
  | some p => p.EveryStep q

end

section

variable {q q' r : NodeTest → List Expr → PredicateCheck → Prop}

mutual

theorem EveryStep.imp₂ (himp : ∀ test predicates check, q test predicates check →
    q' test predicates check → r test predicates check) (p : Pattern) (hq : p.EveryStep q)
    (hq' : p.EveryStep q') : p.EveryStep r := by
  match p with
  | location test parent ancestor predicates check =>
      exact ⟨himp _ _ _ hq.1 hq'.1, EveryStepOption.imp₂ himp parent hq.2.1 hq'.2.1,
        EveryStepOption.imp₂ himp ancestor hq.2.2 hq'.2.2⟩
  | union a b => exact ⟨EveryStep.imp₂ himp a hq.1 hq'.1, EveryStep.imp₂ himp b hq.2 hq'.2⟩
  | document | nodeKind _ | anyChild | named _ | id _ | key .. => exact True.intro
termination_by structural p

theorem EveryStepOption.imp₂ (himp : ∀ test predicates check, q test predicates check →
    q' test predicates check → r test predicates check) (p : Option Pattern)
    (hq : EveryStepOption q p) (hq' : EveryStepOption q' p) : EveryStepOption r p := by
  match p with
  | none => exact True.intro
  | some p => exact EveryStep.imp₂ himp p hq hq'
termination_by structural p

end

end

/-! ## Matching -/

mutual

/-- If all steps pass the same nodes in both contexts, the pattern accepts the same nodes. -/
theorem accepts_congr (hc : c.SameScope c') (p : Pattern) (hp : p.EveryStep fun test es check =>
    ∀ n, passes h c test es check n = passes h c' test es check n) (n : Node) :
    p.accepts h c n = p.accepts h c' n := by
  match p with
  | location test parent ancestor predicates check =>
      obtain ⟨hpasses, hparent, hancestor⟩ := hp
      rw [accepts, accepts, acceptsParent_congr hc parent hparent n,
        acceptsAncestor_congr hc ancestor hancestor n, hpasses n]
  | union a b => rw [accepts, accepts, accepts_congr hc a hp.1 n, accepts_congr hc b hp.2 n]
  | key name display value =>
      have hcontroller : c.controller = c'.controller := by
        rw [Context.controller, Context.controller, hc.controller]
      rw [accepts, accepts, hcontroller]
  | document | nodeKind _ | anyChild | named _ | id _ => rfl
termination_by structural p

theorem acceptsParent_congr (hc : c.SameScope c') (p : Option Pattern)
    (hp : EveryStepOption (fun test es check =>
      ∀ n, passes h c test es check n = passes h c' test es check n) p) (n : Node) :
    acceptsParent h c p n = acceptsParent h c' p n := by
  match p with
  | none => rfl
  | some p =>
      rw [acceptsParent, acceptsParent]
      cases h.forest.parent? n with
      | none => rfl
      | some parent => exact accepts_congr hc p hp parent
termination_by structural p

theorem acceptsAncestor_congr (hc : c.SameScope c') (p : Option Pattern)
    (hp : EveryStepOption (fun test es check =>
      ∀ n, passes h c test es check n = passes h c' test es check n) p) (n : Node) :
    acceptsAncestor h c p n = acceptsAncestor h c' p n := by
  match p with
  | none => rfl
  | some p =>
      have hall : (fun a => p.accepts h c a) = fun a => p.accepts h c' a :=
        funext fun a => accepts_congr hc p hp a
      rw [acceptsAncestor, acceptsAncestor, hall]
termination_by structural p

end

/-! ## Steps that read no current node -/

/-- The predicates read no current node, and they are checked each by itself or in the way that suits
them. -/
structure Unfocused (test : NodeTest) (predicates : List Expr) (check : PredicateCheck) : Prop where
  current : (dependenciesOfList predicates).bit 2 = false
  check : check = .each ∨ check = checkFor test predicates

theorem passesAll_congr (hc : c.SameScope c') (hes : EveryOfList NoExtension predicates)
    (hcurrent : (dependenciesOfList predicates).bit 2 = false) (n : Node) :
    passesAll h (c.forItem n 1 (.known 1)) predicates =
      passesAll h (c'.forItem n 1 (.known 1)) predicates := by
  induction predicates with
  | nil => rfl
  | cons e es ih =>
      rw [dependenciesOfList, Dependencies.bit_or, Bool.or_eq_false_iff] at hcurrent
      have htruth := (Engine.alike_of_sameScope (h := h) hc hes.1 hcurrent.1 (2 * e.size) n).truth
      rw [passesAll, passesAll, ih hes.2 hcurrent.2]
      exact congrArg (· >>= _) htruth

/-- The path that selects from the parent reads as little as its predicates. -/
theorem passes_among (hc : c.SameScope c') (hes : EveryOfList NoExtension predicates)
    (hcurrent : (dependenciesOfList predicates).bit 2 = false) (axis : Axis) (n : Node) :
    passes h c test predicates (.among (.path .parentNode axis test predicates)) n =
      passes h c' test predicates (.among (.path .parentNode axis test predicates)) n := by
  let extent : Expr := .path .parentNode axis test predicates
  have hvalue : extent.evaluate h (c.forItem n 1 (.known 1)) =
      extent.evaluate h (c'.forItem n 1 (.known 1)) := by
    apply (Engine.alike_of_sameScope hc _ _ _ n).value
    · exact ⟨True.intro, True.intro, hes⟩
    · simp [extent, dependencies, hcurrent]
  unfold passes
  dsimp only
  rw [hvalue]

theorem passes_congr (hc : c.SameScope c') (hes : EveryOfList NoExtension predicates)
    (hstep : Unfocused test predicates check) (n : Node) :
    passes h c test predicates check n = passes h c' test predicates check n := by
  have heach : passes h c test predicates .each n = passes h c' test predicates .each n :=
    passesAll_congr hc hes hstep.current n
  have hpositional : passes h c test predicates (checkFor.positional test predicates) n =
      passes h c' test predicates (checkFor.positional test predicates) n := by
    unfold checkFor.positional
    split
    · exact passes_among hc hes hstep.current _ n
    · exact heach
  rcases hstep.check with rfl | rfl
  · exact heach
  · unfold checkFor
    split
    · split
      · rfl
      · exact hpositional
    · exact hpositional

/-! ## Reading -/

theorem bit_of_usesCurrent (h : predicates.any usesCurrent = false) :
    (dependenciesOfList predicates).bit 2 = false := by
  induction predicates with
  | nil => rfl
  | cons e es ih =>
      rw [List.any_cons, Bool.or_eq_false_iff, usesCurrent, Dependencies.contains_currentNode] at h
      rw [dependenciesOfList, Dependencies.bit_or, h.1, ih h.2, Bool.or_false]

theorem makes_testAndPredicates : Makes (fun x : NodeTest × List Expr =>
    (dependenciesOfList x.2).bit 2 = false) (testAndPredicates s) := by
  unfold testAndPredicates
  refine .after fun axis => .after fun test => ?_
  dsimp only
  refine .after fun predicates => ?_
  split
  · exact .fault _
  · rename_i hcurrent
    exact .pure (bit_of_usesCurrent (by simpa using hcurrent))

theorem everyStep_tie {before : Option (Pattern × Link)}
    (hbefore : ∀ p l, before = some (p, l) → p.EveryStep Unfocused)
    (hcurrent : (dependenciesOfList predicates).bit 2 = false) :
    (tie before test predicates).EveryStep Unfocused := by
  have hown : Unfocused test predicates .each := ⟨hcurrent, .inl rfl⟩
  match before with
  | none => exact ⟨hown, True.intro, True.intro⟩
  | some (p, .parent) => exact ⟨hown, hbefore p _ rfl, True.intro⟩
  | some (p, .ancestor) => exact ⟨hown, True.intro, hbefore p _ rfl⟩

theorem makes_steps (fuel : Nat) {before : Option (Pattern × Link)}
    (hbefore : ∀ p l, before = some (p, l) → p.EveryStep Unfocused) :
    Makes (EveryStep Unfocused) (steps s fuel before) := by
  induction fuel generalizing before with
  | zero => exact .error _
  | succ fuel ih =>
      rw [steps]
      refine .after fun seen => ?_
      dsimp only
      split
      · exact .fault _
      · refine .bind makes_testAndPredicates fun x hx => ?_
        obtain ⟨test, predicates⟩ := x
        have hstep : (tie before test predicates).EveryStep Unfocused := everyStep_tie hbefore hx
        refine .after fun l => ?_
        cases l with
        | none => exact .pure hstep
        | some link =>
            apply ih
            rintro p l ⟨⟩
            exact hstep

theorem makes_anchor : Makes (EveryStep Unfocused) (anchor s) := by
  unfold anchor
  refine .after fun t => ?_
  split
  · exact .after fun t => .after fun _ => .pure True.intro
  · refine .after fun t => .after fun _ => .after fun value => .after fun _ => ?_
    exact .after fun name => .pure True.intro
  · exact .fault _

theorem makes_pathPattern : Makes (EveryStep Unfocused) (pathPattern s) := by
  have hsteps {before : Option (Pattern × Link)}
      (hbefore : ∀ p l, before = some (p, l) → p.EveryStep Unfocused) :
      Makes (EveryStep Unfocused) (do steps s ((← remaining) + 1) before) :=
    .after fun fuel => makes_steps _ hbefore
  have hdocument (l : Link) : ∀ p l', some (document, l) = some (p, l') → p.EveryStep Unfocused := by
    rintro p l' ⟨⟩
    exact True.intro
  unfold pathPattern
  dsimp only
  refine .after fun k => ?_
  split
  · refine .after fun _ => .after fun k => ?_
    split
    · exact hsteps (hdocument _)
    · exact .pure True.intro
  · exact .after fun _ => hsteps (hdocument _)
  · refine .bind makes_anchor fun p hp => .after fun l => ?_
    cases l with
    | none => exact .pure hp
    | some link =>
        apply hsteps
        rintro p' l' ⟨⟩
        exact hp
  · exact hsteps (by rintro _ _ ⟨⟩)

theorem makes_moreAlternatives (fuel : Nat) (hp : p.EveryStep Unfocused) :
    Makes (EveryStep Unfocused) (moreAlternatives s fuel p) := by
  induction fuel generalizing p with
  | zero => exact .pure hp
  | succ fuel ih =>
      rw [moreAlternatives]
      refine .after fun seen => ?_
      split
      · exact .after fun _ => makes_pathPattern.bind fun q hq => ih ⟨hp, hq⟩
      · exact .pure hp

/-- No predicate that a text spells in a pattern reads the current node. -/
theorem everyStep_of_read {source : String} (hread : read s source = .ok p) :
    p.EveryStep Unfocused := by
  have hmakes : Makes (EveryStep Unfocused) (alternatives s) :=
    makes_pathPattern.bind fun q hq => .after fun fuel => makes_moreAlternatives _ hq
  exact hmakes.run source p hread

/-! ## Simplification -/

theorem bit_of_simplifyPredicates {kept : List Expr}
    (hcurrent : (dependenciesOfList predicates).bit 2 = false)
    (hkept : simplifyPredicates F predicates = .ok (some kept)) :
    (dependenciesOfList kept).bit 2 = false := by
  have hiff {d : Dependencies} : d.intersects .currentNode = false ↔ d.bit 2 = false := by
    rw [Dependencies.disjoint_iff]
    constructor
    · intro hd
      by_contra hbit
      have := hd 2 (by simpa using hbit)
      simp at this
    · intro hbit i hi
      have hne : i ≠ 2 := by
        rintro rfl
        simp [hbit] at hi
      simpa using hne
  exact hiff.mp (disjoint_of_simplifyPredicates (hiff.mpr hcurrent) hkept kept rfl)

theorem everyStep_ofParts {parent ancestor : Option Pattern}
    (hcurrent : (dependenciesOfList predicates).bit 2 = false)
    (hparent : EveryStepOption Unfocused parent) (hancestor : EveryStepOption Unfocused ancestor) :
    (ofParts test parent ancestor predicates).EveryStep Unfocused := by
  unfold ofParts
  split
  · exact True.intro
  · split
    · split <;> exact True.intro
    · exact ⟨⟨hcurrent, .inr rfl⟩, hparent, hancestor⟩

mutual

theorem everyStep_of_simplify (p : Pattern) (hp : p.EveryStep Unfocused) {p' : Pattern}
    (hsimplify : p.simplify F = .ok p') : p'.EveryStep Unfocused := by
  match p with
  | location test parent ancestor predicates check =>
      obtain ⟨hstep, hparent, hancestor⟩ := hp
      obtain ⟨parent', ancestor', kept, hparent', hancestor', hkept, rfl⟩ :=
        simplify_location hsimplify
      cases kept with
      | none => exact True.intro
      | some kept =>
          apply everyStep_ofParts
          · exact bit_of_simplifyPredicates hstep.current hkept
          · exact everyStepOption_of_simplify parent hparent hparent'
          · exact everyStepOption_of_simplify ancestor hancestor hancestor'
  | union a b =>
      rw [simplify] at hsimplify
      obtain ⟨a', ha, hsimplify⟩ := bind_eq_ok.mp hsimplify
      obtain ⟨b', hb, hsimplify⟩ := bind_eq_ok.mp hsimplify
      cases hsimplify
      exact ⟨everyStep_of_simplify a hp.1 ha, everyStep_of_simplify b hp.2 hb⟩
  | document | nodeKind _ | anyChild | named _ | id _ | key .. =>
      cases hsimplify
      exact True.intro
termination_by structural p

theorem everyStepOption_of_simplify (p : Option Pattern) (hp : EveryStepOption Unfocused p)
    {p' : Option Pattern} (hsimplify : simplifyOption F p = .ok p') :
    EveryStepOption Unfocused p' := by
  match p with
  | none =>
      cases hsimplify
      exact True.intro
  | some p =>
      rw [simplifyOption] at hsimplify
      obtain ⟨q, hq, hsimplify⟩ := bind_eq_ok.mp hsimplify
      cases hsimplify
      exact everyStep_of_simplify p hp hq
termination_by structural p

end

def Hostless (p : Pattern) : Prop := p.EveryStep fun _ es _ => EveryOfList NoExtension es

/-- In contexts that bind the variables alike and have the same controller, a pattern comes to the same
answer or the same error about every node, whatever their focus. -/
theorem accepts_of_same_scope {source : String} (hparse : parse s F source = .ok p)
    (hp : p.Hostless) (hc : c.SameScope c') (n : Node) : p.accepts h c n = p.accepts h c' n := by
  obtain ⟨q, hread, hsimplify⟩ := bind_eq_ok.mp hparse
  have hunfocused := everyStep_of_simplify q (everyStep_of_read hread) hsimplify
  have hpasses := EveryStep.imp₂ (fun test es check hes hstep n =>
    passes_congr (h := h) hc hes hstep n) p hp hunfocused
  exact accepts_congr hc p hpasses n

/-! ## A flagged element -/

/-- `x[$b]` -/
def flagged : Pattern := location ⟨.element, .named (.unprefixed "x")⟩ none none [Expr.flag]
  (.among (.path .parentNode .child ⟨.element, .named (.unprefixed "x")⟩ [Expr.flag]))

def unfocused : Context := { Expr.flagContext with contextNode? := none, currentNode? := none }

theorem accepts_of_same_scope_flagged :
    Expr.flagContext.SameScope unfocused ∧
      flagged.accepts Expr.nestedHost unfocused ⟨0, 2⟩ = .ok true := by
  have hscope : Expr.flagContext.SameScope unfocused := ⟨fun _ => rfl, rfl⟩
  have hread : read Expr.flagScope "x[$b]" =
      .ok (step ⟨.element, .named (.unprefixed "x")⟩ [Expr.flag]) := by cbv
  have hparse : parse Expr.flagScope .nested "x[$b]" = .ok flagged :=
    bind_eq_ok.mpr ⟨_, hread, rfl⟩
  have hhostless : flagged.Hostless := ⟨⟨True.intro, True.intro⟩, True.intro, True.intro⟩
  have haccepts : flagged.accepts Expr.nestedHost Expr.flagContext ⟨0, 2⟩ = .ok true :=
    toOption_eq_some.mp (by decide +kernel)
  exact ⟨hscope, (accepts_of_same_scope hparse hhostless hscope _).symm.trans haccepts⟩

end Pattern

end XPath
