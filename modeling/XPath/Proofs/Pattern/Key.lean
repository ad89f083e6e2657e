import XPath.Proofs.Expr.Simplify
import XPath.Proofs.Function.Call
import XPath.Scope

/-!
# Calls of `key()` with literals

A call that names its key by a literal resolves the name in the scope that was captured where it
was written, as the reader of patterns does at once (`StaticScope.resolve_nameScope`), and so it
selects what the controller finds in the document of the context node (`Meaning.run_keyFrame`).
-/

namespace XPath

variable {F : Forest} {n : Node} {ns : List Node}

/-! ## Captured names -/

section

variable {d : String × String} {known : List (String × String)} {boundPrefix : String}

theorem boundUri?_cons (d : String × String) (known : List (String × String)) :
    boundUri? (d :: known) boundPrefix =
      if d.1 = boundPrefix then some d.2 else boundUri? known boundPrefix := by
  unfold boundUri?
  rw [List.find?_cons]
  by_cases h : d.1 = boundPrefix
  · simp [h]
  · have hbeq : (d.1 == boundPrefix) = false := by simpa using h
    rw [hbeq, if_neg h]

theorem boundUri?_insertSorted {before : String × String → String × String → Bool}
    (h : ∀ x ∈ known, x.1 ≠ d.1) : boundUri? (insertSorted before d known) boundPrefix =
      if d.1 = boundPrefix then some d.2 else boundUri? known boundPrefix := by
  induction known with
  | nil => exact boundUri?_cons d []
  | cons x known ih =>
      have hx := h x List.mem_cons_self
      have hne : (d == x) = false := by
        refine beq_eq_false_iff_ne.mpr ?_
        rintro rfl
        exact hx rfl
      rw [insertSorted, hne]
      rw [if_neg (by decide)]
      split
      · exact boundUri?_cons d _
      · rw [boundUri?_cons, ih fun y hy => h y (List.mem_cons_of_mem _ hy), boundUri?_cons]
        split
        · rename_i heq
          rw [if_neg fun hd => hx (heq.trans hd.symm)]
        · rfl

theorem boundUri?_filter (h : d.1 ≠ boundPrefix) :
    boundUri? (known.filter (·.1 != d.1)) boundPrefix = boundUri? known boundPrefix := by
  induction known with
  | nil => rfl
  | cons x known ih =>
      rw [List.filter_cons, boundUri?_cons]
      split
      · rw [boundUri?_cons, ih]
      · rename_i hx
        have heq : x.1 = d.1 := by simpa using hx
        rw [ih, if_neg (heq ▸ h)]

theorem boundUri?_nameScope (s : StaticScope) :
    boundUri? s.nameScope.namespaces boundPrefix = boundUri? s.namespaces boundPrefix := by
  change boundUri? (s.namespaces.reverse.foldl StaticScope.nameScope.declare []) _ = _
  rw [List.foldl_reverse]
  induction s.namespaces with
  | nil => rfl
  | cons d known ih =>
      rw [List.foldr_cons, StaticScope.nameScope.declare, boundUri?_insertSorted (by simp),
        boundUri?_cons]
      split
      · rfl
      · rw [boundUri?_filter ‹_›, ih]

theorem StaticScope.resolve_nameScope (s : StaticScope) (name : String) :
    s.nameScope.resolve name = s.resolve name false := by
  unfold NameScope.resolve StaticScope.resolve
  cases splitColon name with
  | none => rfl
  | some parts =>
      obtain ⟨before, after⟩ := parts
      dsimp only
      unfold StaticScope.namespaceUri
      rw [boundUri?_nameScope]
      split
      · rfl
      · cases boundUri? s.namespaces before <;> rfl

end

/-! ## What a key selects -/

namespace Meaning

variable {s : StaticScope} {name : ExpandedName} {display value : String} {σ : Context}

/-- The call of `key()` with literals. -/
def keyFrame (F : Forest) (s : StaticScope) (display value : String) (σ : Context) : CallFrame :=
  frame F .key [.string display, .string value]
    { CallBinding.free with scope := some s.nameScope } σ

/-- Made at a node, the call asks the controller about the document of the node. -/
theorem run_keyFrame (hname : s.resolve display false = .ok name) (hn : σ.contextNode? = some n) :
    (keyFrame F s display value σ).run = (do
      let k ← (keyFrame F s display value σ).controller
      let ns ← k.selectByKey name value (F.documentRoot n)
      return .nodeSet ((Extent.ofNodes ns false).sort F).toNodeSet) := by
  have hscope : (keyFrame F s display value σ).scope.resolve display = .ok name :=
    (s.resolve_nameScope display).trans hname
  have hfocus : (keyFrame F s display value σ).focus = .ok n := by
    change σ.contextNode = _
    rw [Context.contextNode, hn]
  have htext : (keyFrame F s display value σ).text 0 = .ok display :=
    Engine.text_constants (.string display)
  have htexts : (keyFrame F s display value σ).texts 1 = .ok [value] := rfl
  change CallFrame.nodesByKey _ = _
  unfold CallFrame.nodesByKey
  rw [htext, hfocus, htexts]
  simp only [ok_bind, hscope]
  refine bind_congr_of_ok rfl fun k _ => ?_
  change ((List.mapM (fun value => k.selectByKey name value (F.documentRoot n)) [value]) >>= _) = _
  cases hfound : k.selectByKey name value (F.documentRoot n) with
  | error e => simp [hfound]
  | ok found =>
      simp only [List.mapM_cons, List.mapM_nil, hfound, ok_bind]
      simp [CallFrame.ofNodes, keyFrame, frame]

theorem controller_keyFrame {k : Controller} :
    (keyFrame F s display value σ).controller = .ok k ↔ σ.controller? = some k := by
  have hframe : (keyFrame F s display value σ).controller? = σ.controller? := rfl
  unfold CallFrame.controller
  rw [hframe]
  cases σ.controller? <;> simp

/-- The meaning of a call of `key()` with literals. -/
def keyed (F : Forest) (s : StaticScope) (display value : String) : Meaning :=
  call F .key [fun _ => .string display, fun _ => .string value]
    { CallBinding.free with scope := some s.nameScope }

theorem keyed_eq : keyed F s display value σ =
    match (keyFrame F s display value σ).run with
    | .ok v => v.outcome F
    | .error _ => .nodes [] := rfl

theorem keyed_of_error {e : Error} (h : (keyFrame F s display value σ).run = .error e) :
    keyed F s display value σ = .nodes [] := by
  rw [keyed_eq, h]

theorem keyed_of_found {k : Controller} {found : List Node} (W : F.WellFormed)
    (hname : s.resolve display false = .ok name) (hn : σ.contextNode? = some n)
    (hk : σ.controller? = some k)
    (hfound : k.selectByKey name value (F.documentRoot n) = .ok found)
    (hhas : ∀ m ∈ found, F.Has m) :
    ∃ ms, keyed F s display value σ = .nodes ms ∧ ∀ m, m ∈ ms ↔ m ∈ found := by
  refine ⟨F.inOrder found, ?_, fun m => W.mem_inOrder hhas⟩
  rw [keyed_eq, run_keyFrame hname hn, controller_keyFrame.mpr hk, ok_bind, hfound, ok_bind]
  exact outcome_ofNodes F found

/-- The call fails if there is no controller, or if the controller fails. -/
theorem keyed_of_not_found (hname : s.resolve display false = .ok name)
    (hn : σ.contextNode? = some n) (hnone : ∀ k found, σ.controller? = some k →
      k.selectByKey name value (F.documentRoot n) ≠ .ok found) :
    keyed F s display value σ = .nodes [] := by
  have hrun : (keyFrame F s display value σ).run = _ := run_keyFrame hname hn
  cases hk : (keyFrame F s display value σ).controller with
  | error e => exact keyed_of_error (hrun.trans (by rw [hk]; rfl))
  | ok k =>
      cases hfound : k.selectByKey name value (F.documentRoot n) with
      | error e => exact keyed_of_error (hrun.trans (by rw [hk, ok_bind, hfound]; rfl))
      | ok found => exact absurd hfound (hnone k found (controller_keyFrame.mp hk))

end Meaning

end XPath
