import XPath.Host.Routine
import XPath.Proofs.Evaluation.Rules
import XPath.Proofs.Expr.Compiled
import XPath.Proofs.Tree.Contract

/-!
# The ways to ask for a value

An expression can be evaluated, asked for a truth value, a number, a string or its first node, and
its nodes can be drained one by one. All of them answer what its meaning says, so the answers agree
(`Expr.Compiled.answers_agree`).
-/

namespace XPath

variable {h : Host} {Φ : Calls h.forest} {Γ : Typing} {inner : Bool} {c : Context} {e : Expr}
  {D : Meaning} {ns ms : List Node} {w : Outcome}

namespace Value

def listed (F : Forest) : Value → Except Error Outcome
  | nodeSet s => (s.toList F).map .nodes
  | v => .ok (v.outcome F)

theorem Means.listed {F : Forest} {v : Value} {u : Outcome} (W : F.WellFormed) (hv : v.Means F w)
    (hu : v.listed F = .ok u) : w = u := by
  cases v with
  | nodeSet s =>
      obtain ⟨ns, hns, rfl⟩ := map_eq_ok.mp hu
      exact NodeSet.Means.toList W hv hns
  | fragment f => exact hv.elim
  | boolean | number | string | object =>
      cases hu
      exact hv

end Value

namespace Expr

variable (h)

def answer (e : Expr) (c : Context) : Except Error Outcome := do
  (← e.evaluate h c).listed h.forest

def select (e : Expr) (c : Context) : Except Error (List Node) := do
  (← (← e.evaluate h c).toNodeSet c).toList h.forest

/-- The nodes as they are found. -/
def drain (e : Expr) (c : Context) : Except Error (List Node) := do (← e.enumerate h c).nodes

/-- All ways to ask for the value give the same. -/
structure Consistent (e : Expr) (c : Context) : Prop where
  ascending : ∀ ns, e.select h c = .ok ns → h.forest.Ascending ns
  drained : ∀ ns ms, e.select h c = .ok ns → e.drain h c = .ok ms → ∀ n, n ∈ ms ↔ n ∈ ns
  first : ∀ ns n, e.select h c = .ok ns → e.selectFirst h c = .ok n → n = ns.head?
  truth : Agree (e.evaluateAsBool h c) (do (← e.evaluate h c).toBool h.forest)
  number : Agree (e.evaluateAsNumber h c) (do (← e.evaluate h c).toNumber h.forest)
  text : Agree (e.evaluateAsText h c) (do (← e.evaluate h c).toText h.forest)

variable {h}

namespace Means

variable [h.Realizes Φ Γ] (W : h.forest.WellFormed) (hD : e.Means h.forest Φ Γ inner D)
  (hc : c.Sound h.forest Γ)

include W hD hc

theorem answer (hw : e.answer h c = .ok w) : D c = w := by
  obtain ⟨v, hv, hw⟩ := bind_eq_ok.mp hw
  exact ((h.sound_engine W _).value hD (.refl _) hc hv).1.listed W hw

theorem select (hns : e.select h c = .ok ns) : D c = .nodes ns := by
  obtain ⟨v, hv, hns⟩ := bind_eq_ok.mp hns
  obtain ⟨s, hs, hns⟩ := bind_eq_ok.mp hns
  have hmeans := ((h.sound_engine W _).value hD (.refl _) hc hv).1
  cases v with
  | nodeSet t =>
      cases hs
      exact NodeSet.Means.toList W hmeans hns
  | fragment f => exact hmeans.elim
  | boolean | number | string | object => cases hs

theorem drain (hms : e.drain h c = .ok ms) :
    ∃ ns, D c = .nodes ns ∧ h.forest.Ascending ns ∧ ∀ n, n ∈ ms ↔ n ∈ ns := by
  obtain ⟨en, hen, hms⟩ := bind_eq_ok.mp hms
  obtain ⟨ns, hns, hlists, -⟩ := (h.sound_engine W _).enumerate hD (.refl _) hc hen
  exact ⟨ns, hns, hlists.ascending, hlists.mem_iff hms⟩

theorem consistent : e.Consistent h c := by
  have hE := h.sound_engine (Φ := Φ) (Γ := Γ) W (2 * e.size)
  refine ⟨fun ns hns => ?_, fun ns ms hns hms => ?_, fun ns n hns hn => ?_, ?_, ?_, ?_⟩
  · exact hD.inOrder ns (hD.select W hc hns)
  · obtain ⟨ns', hns', -, hmem⟩ := hD.drain W hc hms
    rw [hD.select W hc hns] at hns'
    cases hns'
    exact hmem
  · obtain ⟨ns', hns', rfl⟩ := hE.first hD (.refl _) hc hn
    rw [hD.select W hc hns] at hns'
    cases hns'
    rfl
  · refine .of_eq (fun b hb => (hE.truth hD (.refl _) hc hb).1) fun b hb => ?_
    obtain ⟨v, hv, hb⟩ := bind_eq_ok.mp hb
    exact (hE.value hD (.refl _) hc hv).1.toBool W hb
  · refine .of_eq (fun x hx => (hE.number hD (.refl _) hc hx).1) fun x hx => ?_
    obtain ⟨v, hv, hx⟩ := bind_eq_ok.mp hx
    exact (hE.value hD (.refl _) hc hv).1.toNumber W hx
  · refine .of_eq (fun t ht => hE.text hD (.refl _) hc ht) fun t ht => ?_
    obtain ⟨v, hv, ht⟩ := bind_eq_ok.mp ht
    exact (hE.value hD (.refl _) hc hv).1.toText W ht

end Means

/-! ## A document to try them on -/

/-- The steps `//name`, with predicates on the last one. -/
def everywhere (name : String) (predicates : List Expr) : Expr :=
  path (path root .descendantOrSelf .anyNode []) .child
    ⟨.element, .named (.unprefixed name)⟩ predicates

def flag : Expr := reference (.unprefixed "b") "b" none

def flagScope : StaticScope := { declarations := [(.unprefixed "b", none)] }

/-- The root of `<r><x/></r>`, where the variable is true. -/
def flagContext : Context :=
  { Context.ofNode ⟨0, 0⟩ with bindings := [(.unprefixed "b", .boolean true)] }

theorem eq_true_of_valueOf {name : ExpandedName} {v : Value}
    (hv : flagContext.valueOf name = .ok v) : v = .boolean true := by
  simp only [Context.valueOf, flagContext, List.find?_singleton] at hv
  split at hv
  · rename_i hfound
    split at hfound <;> cases hfound
    cases hv
    rfl
  · cases hv

/-- A host of the document `<r><x/></r>`. -/
def nestedHost : Host := .ofRoutines .nested []

theorem sound_flagContext : flagContext.Sound .nested fun _ => some .any where
  contextNode n hn := by
    cases hn
    decide
  currentNode n hn := by
    cases hn
    decide
  bindings name t v ht hv := by
    cases ht
    obtain rfl := eq_true_of_valueOf hv
    exact ⟨trivial, .inl rfl⟩
  controller k hk := by cases hk

/-- `//x[$b or //none <= //x]` -/
def guarded : Expr :=
  everywhere "x"
    [binary .or flag (binary .lessThanOrEqual (everywhere "none" []) (everywhere "x" []))]

theorem compiled_guarded : Compiled .nested guarded := by
  have hparse : parse flagScope .nested "//x[$b or //none <= //x]" = .ok guarded := by cbv
  exact .parsed hparse

theorem plain_guarded : guarded.Every (Plain .nested fun _ => some .any) := by
  simp [Every, EveryOfList, Plain, guarded, everywhere, flag]

theorem falseOnEmpty_guarded : guarded.Every (FalseOnEmpty .nested fun _ => some .any) := by
  have hsteps : Compares .nested (fun _ => some .any) .lessThanOrEqual (everywhere "x" [])
      ((everywhere "none" []).reading .nested) ((everywhere "x" []).reading .nested) := by
    intro _ _ σ _ hnone
    rw [hnone]
    exact Outcome.compare_empty (by decide) (by decide) _
  have hor : Compares .nested (fun _ => some .any) .or
      (binary .lessThanOrEqual (everywhere "none" []) (everywhere "x" [])) (flag.reading .nested)
      ((binary .lessThanOrEqual (everywhere "none" []) (everywhere "x" [])).reading .nested) := by
    rintro ⟨⟩
  simp only [Every, EveryOfList, FalseOnEmpty, guarded, everywhere, flag, and_true, true_and]
  exact ⟨hor, hsteps⟩

/-- `//none <= (//a = //b)[$b]`, or another comparison of the two: the filter keeps a truth value,
but is never listed. -/
def stopped (op : BinaryOperator) : Expr :=
  binary op (everywhere "none" [])
    (filter (binary .equals (everywhere "a" []) (everywhere "b" [])) flag)

theorem plain_stopped (op : BinaryOperator) :
    (stopped op).Every (Plain .nested fun _ => some .any) := by
  simp [Every, EveryOfList, Plain, everywhere, stopped, flag]

/-! ## All answers agree -/

/-- All ways to ask a compiled expression for its value give the same. -/
theorem Compiled.answers_agree (W : h.forest.WellFormed) (he : Compiled h.forest e)
    (hplain : e.Every (Plain h.forest Γ)) (hempty : e.Every (FalseOnEmpty h.forest Γ))
    (hc : c.Sound h.forest Γ) : e.Consistent h c :=
  (he.means W hplain hempty).consistent W hc

theorem answers_agree_nested : guarded.Consistent nestedHost flagContext ∧
    guarded.select nestedHost flagContext = .ok [⟨0, 2⟩] :=
  ⟨Compiled.answers_agree (h := nestedHost) Forest.wellFormed_nested compiled_guarded plain_guarded
    falseOnEmpty_guarded sound_flagContext, toOption_eq_some.mp (by decide +kernel)⟩

/-- Reduction drops the predicate of the filter in `//x[//none <= (//a = //b)[$b]]`, so the value has
a node that is not found when the nodes are drained. -/
theorem not_answers_agree : ¬∀ (h : Host) (Γ : Typing) (e : Expr) (c : Context),
    h.forest.WellFormed → Compiled h.forest e → e.Every (Plain h.forest Γ) →
      c.Sound h.forest Γ → e.Consistent h c := by
  intro hagree
  have hparse : parse flagScope .nested "//x[//none <= (//a = //b)[$b]]" =
      .ok (everywhere "x" [stopped .lessThanOrEqual]) := by cbv
  have hplain : (everywhere "x" [stopped .lessThanOrEqual]).Every
      (Plain .nested fun _ => some .any) := by
    simp [Every, EveryOfList, Plain, everywhere, plain_stopped]
  have hselect : (everywhere "x" [stopped .lessThanOrEqual]).select nestedHost flagContext =
      .ok [⟨0, 2⟩] := toOption_eq_some.mp (by decide +kernel)
  have hdrain : (everywhere "x" [stopped .lessThanOrEqual]).drain nestedHost flagContext =
      .ok [] := toOption_eq_some.mp (by decide +kernel)
  have hmem := (hagree nestedHost _ _ _ Forest.wellFormed_nested (.parsed hparse) hplain
    sound_flagContext).drained _ _ hselect hdrain ⟨0, 2⟩
  simp at hmem

end Expr

end XPath
