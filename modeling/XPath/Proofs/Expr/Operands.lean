import XPath.Proofs.Expr.Levels

/-!
# Operands

How the words of a path, a filter or a primary expression are read, provided that the words of what
stands in it are. They continue at the level where they stand as operands (`Expr.Continues`).
-/

namespace XPath

open Reader

namespace Expr

/-! ## Steps and predicates -/

variable {s : StaticScope} {inner : Reader Expr} {c d m : Cursor} {e f p : Expr}
  {es : List Expr} {ls ls' : List Lexeme} {axis : Axis} {test : TestPhrase} {t : NodeTest}

def ReadsPredicates (inner : Reader Expr) (ls : List Lexeme) (es : List Expr) : Prop :=
  ∀ c m steps, c.Passes ls m → m.current.kind ≠ .leftSquare → c.rest.length < steps →
    Takes (predicateList inner steps) c es m

theorem ReadsPredicates.nil : ReadsPredicates inner [] [] := by
  rintro c m steps rfl hsquare hsteps
  obtain ⟨steps, rfl⟩ : ∃ k, steps = k + 1 := ⟨steps - 1, by omega⟩
  rw [predicateList]
  exact takes_bind.mpr ⟨false, m, takes_sees.mpr ⟨by simpa using hsquare, rfl⟩,
    takes_pure.mpr ⟨rfl, rfl⟩⟩

theorem ReadsPredicates.cons (h : ReadsNested inner ls e) (hs : ReadsPredicates inner ls' es) :
    ReadsPredicates inner (.symbol .leftSquare :: (ls ++ .symbol .rightSquare :: ls')) (e :: es) := by
  intro c m steps hc hsquare hsteps
  obtain ⟨steps, rfl⟩ : ∃ k, steps = k + 1 := ⟨steps - 1, by omega⟩
  obtain ⟨hkind, -, m₁, hstep, hlength, hc⟩ := Cursor.passes_cons hc
  obtain ⟨m₂, he, hc⟩ := Cursor.passes_append.mp hc
  have hle := he.length
  obtain ⟨hkind', -, m₃, hstep', hlength', hc⟩ := Cursor.passes_cons hc
  have hkind : c.current.kind = .leftSquare := hkind
  have hkind' : m₂.current.kind = .rightSquare := hkind'
  rw [predicateList]
  refine takes_bind.mpr ⟨true, c, takes_sees.mpr ⟨by simp [hkind], rfl⟩, ?_⟩
  refine takes_over hstep (takes_bind.mpr ⟨e, m₂,
    h m₁ m₂ he ⟨0, by rw [hkind']; rfl, Nat.one_pos⟩, takes_bind.mpr ⟨_, m₃,
      takes_expect.mpr ⟨hkind', rfl, hstep'⟩, ?_⟩⟩)
  exact takes_bind.mpr ⟨es, m, hs m₃ m steps hc hsquare (by omega), takes_pure.mpr ⟨rfl, rfl⟩⟩

theorem takes_close (hc : c.Passes [.symbol .rightParen] m) :
    Takes (do let _ ← expect .rightParen; return t) c t m := by
  obtain ⟨hkind, -, m₁, hstep, -, rfl⟩ := Cursor.passes_cons hc
  exact takes_bind.mpr ⟨_, _, takes_expect.mpr ⟨hkind, rfl, hstep⟩, takes_pure.mpr ⟨rfl, rfl⟩⟩

theorem takes_nodeTest {principal : NodeKind} (ht : test.test? s principal = some t)
    (hc : c.Passes test.lexemes m) : Takes (nodeTest s principal) c t m := by
  cases test with
  | name n =>
      obtain ⟨name, hname, ht⟩ := Option.bind_eq_some_iff.mp ht
      obtain ⟨hkind, hvalue, _, hstep, -, rfl⟩ := Cursor.passes_cons hc
      cases ht
      refine takes_at hkind (takes_over hstep ?_)
      rw [hvalue]
      exact takes_bind.mpr ⟨name, _, takes_lift.mpr ⟨toOption_eq_some.mp hname, rfl⟩,
        takes_pure.mpr ⟨rfl, rfl⟩⟩
  | any =>
      obtain ⟨hkind, -, _, hstep, -, rfl⟩ := Cursor.passes_cons hc
      cases ht
      exact takes_at (k := .star) hkind (takes_over hstep (takes_pure.mpr ⟨rfl, rfl⟩))
  | inNamespace p =>
      obtain ⟨uri, huri, ht⟩ := Option.bind_eq_some_iff.mp ht
      obtain ⟨hkind, hvalue, _, hstep, -, rfl⟩ := Cursor.passes_cons hc
      cases ht
      refine takes_at hkind (takes_over hstep ?_)
      rw [hvalue]
      exact takes_bind.mpr ⟨uri, _, takes_lift.mpr ⟨toOption_eq_some.mp huri, rfl⟩,
        takes_pure.mpr ⟨rfl, rfl⟩⟩
  | node | text | comment =>
      obtain ⟨hkind, hvalue, m₁, hstep, -, hc⟩ := Cursor.passes_cons hc
      cases ht
      refine takes_at hkind (takes_over hstep ?_)
      rw [hvalue]
      exact takes_bind.mpr ⟨_, m₁, takes_pure.mpr ⟨rfl, rfl⟩, takes_close hc⟩
  | processingInstruction target =>
      cases target with
      | none =>
          obtain ⟨hkind, hvalue, m₁, hstep, -, hc⟩ := Cursor.passes_cons hc
          obtain ⟨hclose, -⟩ := Cursor.passes_cons hc
          cases ht
          refine takes_at hkind (takes_over hstep ?_)
          rw [hvalue]
          refine takes_bind.mpr ⟨false, m₁, takes_sees.mpr ⟨by rw [hclose]; rfl, rfl⟩, ?_⟩
          exact takes_bind.mpr ⟨_, m₁, takes_pure.mpr ⟨rfl, rfl⟩, takes_close hc⟩
      | some target =>
          obtain ⟨hkind, hvalue, m₁, hstep, -, hc⟩ := Cursor.passes_cons hc
          obtain ⟨hliteral, htarget, m₂, hstep', -, hc⟩ := Cursor.passes_cons hc
          cases ht
          refine takes_at hkind (takes_over hstep ?_)
          rw [hvalue]
          refine takes_bind.mpr ⟨true, m₁, takes_sees.mpr ⟨by rw [hliteral]; rfl, rfl⟩, ?_⟩
          refine takes_over hstep' ?_
          rw [htarget]
          exact takes_bind.mpr ⟨_, m₂, takes_pure.mpr ⟨rfl, rfl⟩, takes_close hc⟩

theorem takes_step (ht : test.test? s axis.principalKind = some t)
    (hs : ReadsPredicates inner ls es) (hc : c.Passes (Phrase.stepLexemes axis test ++ ls) m)
    (hsquare : m.current.kind ≠ .leftSquare) : Takes (step s inner) c ⟨axis, t, es⟩ m := by
  obtain ⟨hkind, hvalue, m₁, hstep, -, hc⟩ := Cursor.passes_cons hc
  obtain ⟨m₂, htest, hls⟩ := Cursor.passes_append.mp hc
  have htested : Takes (testedStep s inner axis) m₁ ⟨axis, t, es⟩ m :=
    takes_bind.mpr ⟨t, m₂, takes_nodeTest ht htest, takes_bind.mpr ⟨es, m,
      takes_bind.mpr ⟨_, m₂, takes_remaining.mpr ⟨rfl, rfl⟩,
        hs m₂ m _ hls hsquare (Nat.lt_succ_self _)⟩, takes_pure.mpr ⟨rfl, rfl⟩⟩⟩
  refine takes_at hkind (takes_over hstep ?_)
  have hname : Axis.ofName? c.current.value = some axis := by rw [hvalue, Axis.ofName?_name]
  simpa only [hname] using htested

theorem takes_relativePath (ht : test.test? s axis.principalKind = some t)
    (hs : ReadsPredicates inner ls es) (hc : c.Passes (Phrase.stepLexemes axis test ++ ls) m)
    (hend : EndsAt 10 m.current.kind) (hrest : ∀ steps, m.rest.length < steps →
      Takes (moreSteps s inner steps (e.thenStep ⟨axis, t, es⟩)) m f d) :
    Takes (relativePath s inner e) c f d :=
  takes_bind.mpr ⟨_, m, takes_step ht hs hc (hend.ne rfl le_rfl), takes_bind.mpr ⟨_, m,
    takes_remaining.mpr ⟨rfl, rfl⟩, hrest _ (Nat.lt_succ_self _)⟩⟩

namespace Continues

theorem relative (ht : test.test? s axis.principalKind = some t)
    (hs : ReadsPredicates inner ls es) :
    Continues s inner 9 (Phrase.stepLexemes axis test ++ ls) (.path .contextNode axis t es) := by
  intro c m f d hc hend hrest
  have hkind := (Cursor.passes_cons hc).1
  exact takes_at hkind (takes_relativePath ht hs hc hend hrest)

theorem absolute (ht : test.test? s axis.principalKind = some t)
    (hs : ReadsPredicates inner ls es) : Continues s inner 9
      (.symbol .slash :: (Phrase.stepLexemes axis test ++ ls)) (.path .root axis t es) := by
  intro c m f d hc hend hrest
  obtain ⟨hkind, -, m₁, hstep, -, hc⟩ := Cursor.passes_cons hc
  have hkind' := (Cursor.passes_cons hc).1
  exact takes_at (k := .slash) hkind (takes_over hstep (takes_at hkind'
    (takes_relativePath ht hs hc hend hrest)))

theorem step (h : Continues s inner 9 ls e) (ht : test.test? s axis.principalKind = some t)
    (hs : ReadsPredicates inner ls' es) :
    Continues s inner 9 (ls ++ .symbol .slash :: (Phrase.stepLexemes axis test ++ ls'))
      (.path e axis t es) := by
  intro c m f d hc hend hrest
  obtain ⟨m₁, hstart, hc⟩ := Cursor.passes_append.mp hc
  have hle := hc.length
  obtain ⟨hkind, -, m₂, hstep, -, hc⟩ := Cursor.passes_cons hc
  have hkind : m₁.current.kind = .slash := hkind
  refine h c m₁ f d hstart ⟨9, by rw [hkind]; rfl, by decide⟩ fun steps hsteps => ?_
  obtain ⟨steps, rfl⟩ : ∃ k, steps = k + 1 := ⟨steps - 1, by omega⟩
  rw [List.length_cons] at hle
  show Takes (moreSteps s inner (steps + 1) e) m₁ f d
  rw [moreSteps]
  exact takes_at hkind (takes_over hstep (takes_bind.mpr ⟨_, m,
    takes_step ht hs hc (hend.ne rfl le_rfl), hrest steps (by omega)⟩))

/-- Behind a slash that no step follows, no path goes on. -/
theorem root : Continues s inner 8 [.symbol .slash] .root := by
  intro c m f d hc hend hrest
  obtain ⟨hkind, -, m, hstep, -, rfl⟩ := Cursor.passes_cons hc
  have hstarts : startsStep m.current.kind = false := by
    obtain ⟨j, hj, -⟩ := hend
    cases hk : m.current.kind <;> rw [hk] at hj <;> first | rfl | cases hj
  have hroot : Takes (pathExpression s inner) c .root m := by
    refine takes_at (k := .slash) hkind (takes_over hstep (takes_at rfl ?_))
    rw [hstarts]
    exact takes_pure.mpr ⟨rfl, rfl⟩
  exact takes_bind.mpr ⟨_, m, hroot, takes_bind.mpr ⟨_, m, takes_remaining.mpr ⟨rfl, rfl⟩,
    hrest _ (Nat.lt_succ_self _)⟩⟩

/-! ## Filters and primary expressions -/

theorem filter (h : Continues s inner 10 ls e) (hp : ReadsNested inner ls' p) :
    Continues s inner 10 (ls ++ .symbol .leftSquare :: (ls' ++ [.symbol .rightSquare]))
      (.filter e p) := by
  intro c m f d hc hend hrest
  obtain ⟨m₁, hbase, hc⟩ := Cursor.passes_append.mp hc
  have hle := hc.length
  obtain ⟨hkind, -, m₂, hstep, -, hc⟩ := Cursor.passes_cons hc
  obtain ⟨m₃, hpredicate, hc⟩ := Cursor.passes_append.mp hc
  obtain ⟨hkind', -, m₄, hstep', -, rfl⟩ := Cursor.passes_cons hc
  have hkind : m₁.current.kind = .leftSquare := hkind
  have hkind' : m₃.current.kind = .rightSquare := hkind'
  refine h c m₁ f d hbase ⟨10, by rw [hkind]; rfl, by decide⟩ fun steps hsteps => ?_
  obtain ⟨steps, rfl⟩ : ∃ k, steps = k + 1 := ⟨steps - 1, by omega⟩
  rw [List.length_cons] at hle
  obtain ⟨es, m₅, hes, hfold⟩ := takes_bind.mp (hrest steps (by omega))
  have hlist : Takes (predicateList inner (steps + 1)) m₁ (p :: es) m₅ := by
    rw [predicateList]
    refine takes_bind.mpr ⟨true, m₁, takes_sees.mpr ⟨by simp [hkind], rfl⟩, ?_⟩
    exact takes_over hstep (takes_bind.mpr ⟨p, m₃,
      hp m₂ m₃ hpredicate ⟨0, by rw [hkind']; rfl, Nat.one_pos⟩, takes_bind.mpr ⟨_, _,
        takes_expect.mpr ⟨hkind', rfl, hstep'⟩, takes_bind.mpr ⟨es, m₅, hes,
          takes_pure.mpr ⟨rfl, rfl⟩⟩⟩⟩)
  exact takes_bind.mpr ⟨p :: es, m₅, hlist, hfold⟩

theorem of_primary (h : ∀ c m, c.Passes ls m → Takes (primary s inner) c e m) :
    Continues s inner 11 ls e := by
  intro c m f d hc _ hrest
  obtain ⟨rfl, rfl⟩ := takes_pure.mp (hrest _ (Nat.lt_succ_self _))
  exact h c _ hc

theorem string (text : String) : Continues s inner 11 [⟨.literal, text⟩] (.string text) := by
  refine of_primary fun c m hc => ?_
  obtain ⟨hkind, hvalue, m, hstep, -, rfl⟩ := Cursor.passes_cons hc
  refine takes_at hkind (takes_over hstep ?_)
  rw [hvalue]
  exact takes_pure.mpr ⟨rfl, rfl⟩

theorem number {numeral : String} {x : Float} (hx : Number.readDecimal? numeral.toList = some x) :
    Continues s inner 11 [⟨.number, numeral⟩] (.number x) := by
  refine of_primary fun c m hc => ?_
  obtain ⟨hkind, hvalue, m, hstep, -, rfl⟩ := Cursor.passes_cons hc
  refine takes_at hkind (takes_over hstep ?_)
  rw [hvalue]
  simp only [hx]
  exact takes_pure.mpr ⟨rfl, rfl⟩

theorem reference {name : String} {expanded : ExpandedName} {binding : VariableBinding}
    (hname : s.resolve name false = .ok expanded)
    (hbinding : s.bindVariable expanded name = .ok binding) :
    Continues s inner 11 [.symbol .dollar, ⟨.name, name⟩]
      (.reference binding.name binding.display binding.constant) := by
  refine of_primary fun c m hc => ?_
  obtain ⟨hkind, -, m₁, hstep, -, hc⟩ := Cursor.passes_cons hc
  obtain ⟨hkind', hvalue, m, hstep', -, rfl⟩ := Cursor.passes_cons hc
  refine takes_at (k := .dollar) hkind (takes_over hstep ?_)
  refine takes_bind.mpr ⟨_, _, takes_expect.mpr ⟨hkind', rfl, hstep'⟩, ?_⟩
  rw [hvalue]
  exact takes_bind.mpr ⟨expanded, _, takes_lift.mpr ⟨hname, rfl⟩, takes_bind.mpr ⟨binding, _,
    takes_lift.mpr ⟨hbinding, rfl⟩, takes_pure.mpr ⟨rfl, rfl⟩⟩⟩

theorem parens (h : ReadsNested inner ls e) :
    Continues s inner 11 (.symbol .leftParen :: (ls ++ [.symbol .rightParen])) e := by
  refine of_primary fun c m hc => ?_
  obtain ⟨hkind, -, m₁, hstep, -, hc⟩ := Cursor.passes_cons hc
  obtain ⟨m₂, hinner, hc⟩ := Cursor.passes_append.mp hc
  obtain ⟨hkind', -, m, hstep', -, rfl⟩ := Cursor.passes_cons hc
  have hkind' : m₂.current.kind = .rightParen := hkind'
  refine takes_at (k := .leftParen) hkind (takes_over hstep ?_)
  exact takes_bind.mpr ⟨e, m₂, h m₁ m₂ hinner ⟨0, by rw [hkind']; rfl, Nat.one_pos⟩,
    takes_bind.mpr ⟨_, _, takes_expect.mpr ⟨hkind', rfl, hstep'⟩, takes_pure.mpr ⟨rfl, rfl⟩⟩⟩

end Continues

/-! ## Calls -/

def ReadsMoreArguments (inner : Reader Expr) (ls : List Lexeme) (es : List Expr) : Prop :=
  ∀ c m steps, c.Passes ls m → c.rest.length < steps → Takes (moreArguments inner steps) c es m

def ReadsArguments (inner : Reader Expr) (ls : List Lexeme) (es : List Expr) : Prop :=
  ∀ c m, c.Passes ls m → Takes (arguments inner) c es m

theorem ReadsMoreArguments.nil : ReadsMoreArguments inner [.symbol .rightParen] [] := by
  intro c m steps hc hsteps
  obtain ⟨steps, rfl⟩ : ∃ k, steps = k + 1 := ⟨steps - 1, by omega⟩
  obtain ⟨hkind, -, m, hstep, -, rfl⟩ := Cursor.passes_cons hc
  rw [moreArguments]
  exact takes_at (k := .rightParen) hkind (takes_over hstep (takes_pure.mpr ⟨rfl, rfl⟩))

theorem endsAt_of_moreArguments {steps : Nat} (h : Takes (moreArguments inner steps) c es d) :
    EndsAt 1 c.current.kind := by
  cases steps with
  | zero => exact absurd h (not_takes_faultHere _)
  | succ steps =>
      rw [moreArguments] at h
      obtain ⟨k, _, hk, h⟩ := takes_bind.mp h
      obtain ⟨rfl, rfl⟩ := takes_kind.mp hk
      split at h
      · rename_i hkind
        exact ⟨0, by rw [hkind]; rfl, Nat.one_pos⟩
      · rename_i hkind
        exact ⟨0, by rw [hkind]; rfl, Nat.one_pos⟩
      · exact absurd h (not_takes_faultHere _)

theorem ReadsMoreArguments.cons (h : ReadsNested inner ls e) (hs : ReadsMoreArguments inner ls' es) :
    ReadsMoreArguments inner (.symbol .comma :: (ls ++ ls')) (e :: es) := by
  intro c m steps hc hsteps
  obtain ⟨steps, rfl⟩ : ∃ k, steps = k + 1 := ⟨steps - 1, by omega⟩
  obtain ⟨hkind, -, m₁, hstep, hlength, hc⟩ := Cursor.passes_cons hc
  obtain ⟨m₂, he, hc⟩ := Cursor.passes_append.mp hc
  have hle := he.length
  have hmore := hs m₂ m steps hc (by omega)
  rw [moreArguments]
  exact takes_at (k := .comma) hkind (takes_over hstep (takes_bind.mpr ⟨e, m₂,
    h m₁ m₂ he (endsAt_of_moreArguments hmore), takes_bind.mpr ⟨es, m, hmore,
      takes_pure.mpr ⟨rfl, rfl⟩⟩⟩))

theorem ReadsArguments.nil : ReadsArguments inner [.symbol .rightParen] [] := by
  intro c m hc
  obtain ⟨hkind, -, m, hstep, -, rfl⟩ := Cursor.passes_cons hc
  have hkind : c.current.kind = .rightParen := hkind
  exact takes_bind.mpr ⟨true, c, takes_sees.mpr ⟨by simp [hkind], rfl⟩,
    takes_over hstep (takes_pure.mpr ⟨rfl, rfl⟩)⟩

theorem ReadsArguments.cons {l : Lexeme} (hl : l.kind ≠ .rightParen)
    (h : ReadsNested inner (l :: ls) e) (hs : ReadsMoreArguments inner ls' es) :
    ReadsArguments inner (l :: ls ++ ls') (e :: es) := by
  intro c m hc
  have hkind := (Cursor.passes_cons hc).1
  obtain ⟨m₁, he, hc⟩ := Cursor.passes_append.mp hc
  have hmore := hs m₁ m _ hc (Nat.lt_succ_self _)
  refine takes_bind.mpr ⟨false, c, takes_sees.mpr ⟨by simp [hkind, hl], rfl⟩, ?_⟩
  exact takes_bind.mpr ⟨e, m₁, h c m₁ he (endsAt_of_moreArguments hmore), takes_bind.mpr ⟨_, m₁,
    takes_remaining.mpr ⟨rfl, rfl⟩, takes_bind.mpr ⟨es, m, hmore, takes_pure.mpr ⟨rfl, rfl⟩⟩⟩⟩

theorem resolveCall_label {function : Builtin} (h : Phrase.callTree? s function es = some e) :
    resolveCall s function.label es = .ok e := by
  have hcolon : function.label.toList.contains ':' = false := by
    cases function <;> decide
  unfold Phrase.callTree? at h
  split at h
  · cases h
  · rename_i hfault
    have harity : function.checkArity es.length = .ok () := by
      rw [Builtin.checkArity, Option.not_isSome_iff_eq_none.mp hfault]
    unfold resolveCall
    rw [hcolon, Builtin.ofName?_label]
    dsimp only
    rw [if_neg (by decide), harity, ok_bind]
    cases function <;> exact congrArg Except.ok (Option.some.inj h)

theorem Continues.call {function : Builtin} (hs : ReadsArguments inner ls es)
    (h : Phrase.callTree? s function es = some e) :
    Continues s inner 11 (⟨.functionName, function.label⟩ :: ls) e := by
  refine of_primary fun c m hc => ?_
  obtain ⟨hkind, hvalue, m₁, hstep, -, hc⟩ := Cursor.passes_cons hc
  refine takes_at hkind (takes_over hstep ?_)
  rw [hvalue]
  exact takes_bind.mpr ⟨es, m, hs m₁ m hc, takes_lift.mpr ⟨resolveCall_label h, rfl⟩⟩

end Expr

end XPath
