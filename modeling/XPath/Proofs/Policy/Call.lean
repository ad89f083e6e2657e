import XPath.Proofs.Policy.Value

/-!
# Calls under a policy

A call of a built-in function whose arguments are served comes to an admitted value
(`Policy.AdmitsFrame.run`).
-/

namespace XPath

namespace Policy

variable {α : Type} {P : Policy} {h : Host} {c : Context}

/-- What the engine makes of the expression is admitted, whatever it is asked for. -/
structure Serves (P : Policy) (E : Engine) (e : Expr) (c : Context) : Prop where
  value : Ends P.error P.AdmitsValue (E.value e c)
  truth : P.Computes (E.truth e c)
  number : P.Computes (E.number e c)
  text : P.Computes (E.text e c)
  first : Ends P.error (fun first => ∀ k ∈ first, P.node k) (E.first e c)

/-- A call whose arguments are served, with all it has captured admitted. -/
structure AdmitsFrame (P : Policy) (f : CallFrame) : Prop where
  arg : ∀ i, P.Serves f.engine (f.arg i) f.context
  args : ∀ e ∈ f.args, P.Serves f.engine e f.context
  binding : P.AdmitsBinding f.binding
  context : P.AdmitsContext f.context

theorem contextNode_ends (hP : P.Closed h) (hc : P.AdmitsContext c) :
    Ends P.error P.node c.contextNode := by
  unfold Context.contextNode
  split
  · rename_i n hn
    exact hc.contextNode n hn
  · exact hP.error _ (by simp)

theorem currentNode_ends (hP : P.Closed h) (hc : P.AdmitsContext c) :
    Ends P.error P.node c.currentNode := by
  unfold Context.currentNode
  split
  · rename_i n hn
    exact hc.currentNode n hn
  · exact hP.error _ (by simp)

theorem last_computes (hP : P.Closed h) (c : Context) : P.Computes c.last := by
  unfold Context.last
  split
  · exact Ends.pure trivial
  · exact hP.error _ (by simp)
  · exact hP.error _ (by simp)

theorem valueOf_ends (hP : P.Closed h) (hc : P.AdmitsContext c) {name : ExpandedName}
    (hname : P.reference name) : Ends P.error P.AdmitsValue (c.valueOf name) := by
  cases hv : c.valueOf name with
  | ok v => exact hc.bindings name v hname hv
  | error e =>
      unfold Context.valueOf at hv
      split at hv
      · cases hv
      · cases hv
        exact hP.error _ (by simp)

theorem resolve_computes (hP : P.Closed h) (s : NameScope) (name : String) :
    P.Computes (s.resolve name) := by
  unfold NameScope.resolve
  split
  · exact Ends.pure trivial
  · split
    · exact Ends.pure trivial
    · split
      · exact Ends.pure trivial
      · exact hP.error _ (by simp)

theorem format_computes (hP : P.Closed h) (format : DecimalFormat) (x : Float)
    (picture : String) : P.Computes (format.format x picture) := by
  unfold DecimalFormat.format
  split
  · exact Ends.pure trivial
  · exact hP.error _ (by simp)

namespace AdmitsFrame

variable {f : CallFrame} (hP : P.Closed h) (hf : P.AdmitsFrame f)

include hf

theorem text (i : Nat) : P.Computes (f.text i) := (hf.arg i).text

theorem number (i : Nat) : P.Computes (f.number i) := (hf.arg i).number

theorem truth (i : Nat) : P.Computes (f.truth i) := (hf.arg i).truth

theorem value (i : Nat) : Ends P.error P.AdmitsValue (f.value i) := (hf.arg i).value

theorem twoTexts {g : String → String → Value} (hg : ∀ a b, P.AdmitsValue (g a b)) :
    Ends P.error P.AdmitsValue (do return g (← f.text 0) (← f.text 1)) :=
  (hf.text 0).bind fun _ _ _ => (hf.text 1).bind fun _ _ _ => Ends.pure (hg _ _)

theorem ofNumber {g : Float → Value} (hg : ∀ x, P.AdmitsValue (g x)) :
    Ends P.error P.AdmitsValue (do return g (← f.number 0)) :=
  (hf.number 0).bind fun _ _ _ => Ends.pure (hg _)

include hP

theorem nodeSet (i : Nat) : Ends P.error P.AdmitsSet (f.nodeSet i) := by
  refine (hf.value i).bind fun v _ hv => ?_
  split
  · exact Ends.pure hv
  · exact admits_toNodeSet_value hP hv hf.context
  · exact hP.error _ (by simp)

theorem focus : Ends P.error P.node f.focus := by
  unfold CallFrame.focus
  split
  · rename_i n hn
    exact hf.binding.node n hn
  · exact contextNode_ends hP hf.context

omit hP in
theorem controller? {k : Controller} (hk : f.controller? = some k) : P.AdmitsController k := by
  unfold CallFrame.controller? at hk
  split at hk
  · rename_i k' hbound
    exact hf.binding.controller k (by rw [hbound, hk])
  · exact hf.context.controller k hk

theorem controller : Ends P.error P.AdmitsController f.controller := by
  unfold CallFrame.controller
  split
  · rename_i k hk
    exact hf.controller? hk
  · exact hP.error _ (by simp)

variable (hforest : f.forest = h.forest)

include hforest

theorem target : P.Computes f.target := by
  unfold CallFrame.target
  split
  · exact (hf.focus hP).map fun _ _ => trivial
  · rw [hforest]
    exact (hf.nodeSet hP 0).bind fun s _ hs =>
      Ends.mono (AdmitsSet.first? hP hs) fun _ _ _ => trivial

theorem ofTarget (g : Node → String) : Ends P.error P.AdmitsValue (f.ofTarget g) :=
  (hf.target hP hforest).map fun _ _ => trivial

omit hforest in
theorem textOrFocus : P.Computes f.textOrFocus := by
  unfold CallFrame.textOrFocus
  split
  · exact (hf.focus hP).map fun _ _ => trivial
  · exact hf.text 0

theorem texts (i : Nat) : P.Computes (f.texts i) := by
  refine (hf.value i).bind fun v _ hv => ?_
  rw [hforest]
  split
  · exact (AdmitsSet.toList hP hv).bind fun _ _ _ => Ends.pure trivial
  · exact (computes_toText hP hv).bind fun _ _ _ => Ends.pure trivial

omit hf in
theorem ofNodes {ns : List Node} (hns : P.AdmitsNodes ns) : P.AdmitsValue (f.ofNodes ns) := by
  unfold CallFrame.ofNodes
  rw [hforest]
  exact admits_ofNodes hP hns

theorem elementsById : Ends P.error P.AdmitsValue f.elementsById := by
  refine (hf.focus hP).bind fun n _ hn => ?_
  refine (hf.texts hP hforest 0).bind fun texts _ _ => Ends.pure (ofNodes hP hforest fun m hm => ?_)
  obtain ⟨word, -, hm⟩ := List.mem_filterMap.mp hm
  rw [hforest] at hm
  exact hP.elementById (hP.documentRoot hn) hm

theorem nodesByKey : Ends P.error P.AdmitsValue f.nodesByKey := by
  refine (hf.text 0).bind fun text _ _ => (resolve_computes hP _ _).bind fun name _ _ => ?_
  refine (hf.focus hP).bind fun n _ hn => (hf.controller hP).bind fun k _ hk => ?_
  refine (hf.texts hP hforest 1).bind fun texts _ _ => ?_
  refine (Ends.mapM (R := P.AdmitsNodes) fun value _ => hk.selectByKey name value _).bind
    fun found _ hfound => Ends.pure (ofNodes hP hforest fun m hm => ?_)
  obtain ⟨ns, hns, hm⟩ := List.mem_flatten.mp hm
  exact hfound ns hns m hm

omit hP hf hforest in
theorem loadAll {k : Controller} (hk : P.AdmitsController k) (base : Option Node)
    {items : List Item} (he : ∀ e, .error e ∈ items → P.error e) :
    Ends P.error P.AdmitsNodes (CallFrame.documents.loadAll f k base items) := by
  induction items with
  | nil => exact fun n hn => absurd hn List.not_mem_nil
  | cons item items ih =>
      cases item with
      | error e => exact he e List.mem_cons_self
      | ok n =>
          refine (hk.loadDocument _ _).bind fun root _ hroot => ?_
          refine (ih fun e h => he e (List.mem_cons_of_mem _ h)).bind fun roots _ hroots => ?_
          exact Ends.pure (List.forall_mem_cons.mpr ⟨hroot, hroots⟩)

theorem documentsFrom {k : Controller} (hk : P.AdmitsController k) (base : Option Node) :
    Ends P.error P.AdmitsValue (do
      match ← f.value 0 with
      | .nodeSet s =>
        let enumeration ← s.enumerate f.forest
        return f.ofNodes (← CallFrame.documents.loadAll f k base enumeration.items)
      | v => return f.ofNodes [← k.loadDocument (← v.toText f.forest) base]) := by
  refine (hf.value 0).bind fun v _ hv => ?_
  split
  · rw [hforest]
    refine (AdmitsSet.enumerate hP hv).bind fun en _ hen => ?_
    refine (loadAll hk base hen.errors).bind fun roots _ hroots => ?_
    exact Ends.pure (ofNodes hP hforest hroots)
  · rw [hforest]
    refine (computes_toText hP hv).bind fun text _ _ => ?_
    refine (hk.loadDocument _ _).bind fun root _ hroot => ?_
    exact Ends.pure (ofNodes hP hforest (List.forall_mem_singleton.mpr hroot))

theorem documents : Ends P.error P.AdmitsValue f.documents := by
  refine (hf.controller hP).bind fun k _ hk => ?_
  have hrest := documentsFrom hP hf hforest hk
  dsimp only
  split
  · refine (hf.nodeSet hP 1).bind fun s _ hs => ?_
    rw [hforest] at hrest ⊢
    exact (AdmitsSet.first? hP hs).bind fun base _ _ => hrest base
  · exact hrest none

omit hforest in
theorem formatNumber : Ends P.error P.AdmitsValue f.formatNumber := by
  refine (hf.number 0).bind fun x _ _ => (hf.text 1).bind fun picture _ _ => ?_
  have hformat (format : DecimalFormat) :
      Ends P.error P.AdmitsValue (do return .string (← format.format x picture)) :=
    (format_computes hP format x picture).bind fun _ _ _ => Ends.pure trivial
  split
  · refine (hf.text 2).bind fun text _ _ => (resolve_computes hP _ _).bind fun name _ _ => ?_
    split
    · exact hformat _
    · exact hP.error _ (by simp)
  · exact hformat _

omit hforest in
theorem systemProperty : Ends P.error P.AdmitsValue f.systemProperty := by
  refine (hf.text 0).bind fun text _ _ => (resolve_computes hP _ _).bind fun name _ _ => ?_
  split
  · refine Ends.pure ?_
    split <;> trivial
  · exact Ends.pure trivial

theorem sum : Ends P.error P.AdmitsValue f.sum := by
  refine (hf.nodeSet hP 0).bind fun s _ hs => ?_
  rw [hforest]
  exact (AdmitsSet.toList hP hs).bind fun _ _ _ => Ends.pure trivial

theorem run : Ends P.error P.AdmitsValue f.run := by
  have hscalar {g : String → Value} (hg : ∀ t, P.AdmitsValue (g t)) :
      Ends P.error P.AdmitsValue (do return g (← f.textOrFocus)) :=
    (hf.textOrFocus hP).bind fun _ _ _ => Ends.pure (hg _)
  have htruth {g : Bool → Bool} : Ends P.error P.AdmitsValue (do
      return .boolean (g (← f.truth 0))) :=
    (hf.truth 0).bind fun _ _ _ => Ends.pure trivial
  have hresolved {g : ExpandedName → Bool} : Ends P.error P.AdmitsValue (do
      return .boolean (g (← f.scope.resolve (← f.text 0)))) :=
    (hf.text 0).bind fun _ _ _ => (resolve_computes hP _ _).bind fun _ _ _ => Ends.pure trivial
  unfold CallFrame.run
  split
  · exact (last_computes hP _).bind fun _ _ _ => Ends.pure trivial
  · exact Ends.pure trivial
  · refine (hf.nodeSet hP 0).bind fun s _ hs => ?_
    rw [hforest]
    exact (AdmitsSet.count hP hs).bind fun _ _ _ => Ends.pure trivial
  · exact (currentNode_ends hP hf.context).bind fun n _ hn => Ends.pure (admits_singleton hP hn)
  · exact hf.elementsById hP hforest
  · exact hf.nodesByKey hP hforest
  · exact hf.documents hP hforest
  · exact hf.ofTarget hP hforest _
  · exact hf.ofTarget hP hforest _
  · exact hf.ofTarget hP hforest _
  · exact hf.ofTarget hP hforest _
  · exact htruth
  · exact Ends.pure trivial
  · exact Ends.pure trivial
  · exact htruth (g := id)
  · exact (hf.text 0).bind fun _ _ _ => (hf.focus hP).bind fun _ _ _ => Ends.pure trivial
  · split
    · exact (hf.focus hP).bind fun _ _ _ => Ends.pure trivial
    · exact hf.ofNumber fun _ => trivial
  · exact hf.ofNumber fun _ => trivial
  · exact hf.ofNumber fun _ => trivial
  · exact hf.ofNumber fun _ => trivial
  · exact hf.sum hP hforest
  · exact hscalar fun _ => trivial
  · exact hf.twoTexts fun _ _ => trivial
  · exact hscalar fun _ => trivial
  · refine (hf.text 0).bind fun _ _ _ => (hf.number 1).bind fun _ _ _ => ?_
    split
    · exact ((hf.number 2).map (R := fun _ => True) fun _ _ => trivial).bind fun _ _ _ =>
        Ends.pure trivial
    · exact Ends.pure trivial
  · exact hf.twoTexts fun _ _ => trivial
  · exact hf.twoTexts fun _ _ => trivial
  · exact hf.twoTexts fun _ _ => trivial
  · exact hscalar fun _ => trivial
  · exact (hf.text 0).bind fun _ _ _ => (hf.text 1).bind fun _ _ _ => (hf.text 2).bind
      fun _ _ _ => Ends.pure trivial
  · exact (Ends.mapM (R := fun _ => True) fun e he => (hf.args e he).text).bind fun _ _ _ =>
      Ends.pure trivial
  · exact hf.formatNumber hP
  · exact hf.systemProperty hP
  · exact hresolved
  · exact hresolved
  · exact (hf.text 0).bind fun _ _ _ => (hf.focus hP).bind fun _ _ _ => Ends.pure trivial

end AdmitsFrame

end Policy

end XPath
