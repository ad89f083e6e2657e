import XPath.Proofs.Meaning.Expr

/-!
# Calls of built-in functions

A call whose arguments come to the same outcomes as those of another call comes to the same result
(`CallFrame.Follows.run`). A result is of the type of the function (`CallFrame.dataType_run`), its
nodes are nodes of the forest (`CallFrame.denotes_run`), and it depends only on the facets that the
function is said to read (`Meaning.call_congr`).
-/

namespace XPath

variable {F : Forest} {f g : CallFrame} {α : Type} {v : Value} {w : Outcome} {ns : List Node}

namespace CallFrame

/-! ## Calls with the same arguments -/

def documentsFrom (f : CallFrame) (F : Forest) (k : Controller) (base : Option Node) :
    Except Error Value := do
  match ← f.value 0 with
  | .nodeSet s =>
    let enumeration ← s.enumerate F
    return f.ofNodes (← documents.loadAll f k base enumeration.items)
  | v => return f.ofNodes [← k.loadDocument (← v.toText F) base]

/-- The facets that the function of a call reads while nothing is captured. -/
def reads (f : CallFrame) : Dependencies :=
  intrinsicDependencies f.function f.args.length .free

/-- The arguments of `f` come to the outcomes that those of `g` are given as, and what else the
function reads is the same for both; `g` may know the length of the list in addition. -/
structure Follows (F : Forest) (f g : CallFrame) : Prop where
  forest : f.forest = F
  forest' : g.forest = F
  function : f.function = g.function
  count : f.args.length = g.args.length
  scope : f.scope = g.scope
  currentNode : g.reads.bit 2 = true → f.context.currentNode = g.context.currentNode
  focus : g.reads.bit 3 = true → f.focus = g.focus
  position : g.reads.bit 4 = true → f.context.position = g.context.position
  last : g.reads.bit 5 = true → Refines f.context.last g.context.last
  controller? : g.reads.bit 6 = true → f.controller? = g.controller?
  text : ∀ i, Refines (f.text i) (g.text i)
  number : ∀ i, Refines (f.number i) (g.number i)
  truth : ∀ i, Refines (f.truth i) (g.truth i)
  value : ∀ i v, f.value i = .ok v →
    ∃ w : Outcome, (v.Means F w ∨ v = w.value) ∧ g.value i = .ok w.value
  texts : Refines (f.args.mapM fun e => f.engine.text e f.context)
    (g.args.mapM fun e => g.engine.text e g.context)

namespace Follows

variable (h : f.Follows F g)

include h

theorem isEmpty_args : f.args.isEmpty = g.args.isEmpty := by
  rw [Bool.eq_iff_iff, List.isEmpty_iff_length_eq_zero, List.isEmpty_iff_length_eq_zero, h.count]

/-- What is asked of a node-set argument is answered by the nodes of its outcome. -/
theorem nodeSet_bind (i : Nat) {use use' : NodeSet → Except Error α}
    (hsame : ∀ s, Refines (use s) (use' s))
    (huse : ∀ s w a, s.Means F w → use s = .ok a →
      ∃ ns, w = .nodes ns ∧ use' (.ofNodes ns true) = .ok a) :
    Refines (f.nodeSet i >>= use) (g.nodeSet i >>= use') := by
  intro a ha
  obtain ⟨s, hs, ha⟩ := bind_eq_ok.mp ha
  obtain ⟨v, hv, hs⟩ := bind_eq_ok.mp hs
  obtain ⟨w, hw | rfl, hg⟩ := h.value i v hv
  · cases v with
    | nodeSet t =>
        cases hs
        obtain ⟨ns, rfl, ha⟩ := huse s w a hw ha
        exact bind_eq_ok.mpr ⟨_, bind_eq_ok.mpr ⟨_, hg, rfl⟩, ha⟩
    | fragment x => exact hw.elim
    | boolean | number | string | object => exact (throw_ne_ok hs).elim
  · cases w with
    | nodes ns =>
        cases hs
        exact bind_eq_ok.mpr ⟨_, bind_eq_ok.mpr ⟨_, hg, rfl⟩, hsame _ a ha⟩
    | boolean | number | string | object => exact (throw_ne_ok hs).elim

theorem controller (hk : g.reads.bit 6 = true) : f.controller = g.controller := by
  unfold CallFrame.controller
  rw [h.controller? hk, h.function]

/-- Functions that work on the context node read it when they are called without arguments. -/
theorem focus_of_default (hd : g.function.defaultsToContextNode = true)
    (hargs : g.args.isEmpty = true) : f.focus = g.focus := by
  refine h.focus ?_
  rw [List.isEmpty_iff] at hargs
  unfold reads
  rw [hargs]
  cases hg : g.function <;> rw [hg] at hd <;>
    first
    | cases hd; done
    | simp [intrinsicDependencies, CallBinding.free, Builtin.defaultsToContextNode]

theorem textOrFocus (hd : g.function.defaultsToContextNode = true) :
    Refines f.textOrFocus g.textOrFocus := by
  unfold CallFrame.textOrFocus
  rw [h.isEmpty_args, h.forest, h.forest']
  split
  · rw [h.focus_of_default hd (by assumption)]
    exact Refines.refl _
  · exact h.text 0

theorem formatNumber (hk : g.reads.bit 6 = true) : Refines f.formatNumber g.formatNumber := by
  unfold CallFrame.formatNumber
  rw [h.count, h.scope, h.controller? hk]
  refine (h.number 0).bind fun x => (h.text 1).bind fun picture => ?_
  split
  · exact (h.text 2).bind fun name => Refines.refl _
  · exact Refines.refl _

theorem systemProperty (hk : g.reads.bit 6 = true) :
    Refines f.systemProperty g.systemProperty := by
  unfold CallFrame.systemProperty
  rw [h.scope, h.controller? hk]
  exact (h.text 0).bind fun name => Refines.refl _

theorem loadAll {k : Controller} {base : Option Node} {items : List Item} {roots : List Node}
    (hroots : documents.loadAll f k base items = .ok roots) :
    ∃ ns : List Node, items = ns.map .ok ∧
      documents.loadAll g k base (ns.map .ok) = .ok roots := by
  induction items generalizing roots with
  | nil => exact ⟨[], rfl, hroots⟩
  | cons item items ih =>
      cases item with
      | error e => cases hroots
      | ok n =>
          obtain ⟨root, hroot, hrest⟩ := bind_eq_ok.mp hroots
          obtain ⟨others, hothers, heq⟩ := bind_eq_ok.mp hrest
          obtain ⟨ns, rfl, hns⟩ := ih hothers
          refine ⟨n :: ns, rfl, bind_eq_ok.mpr ⟨root, ?_, bind_eq_ok.mpr ⟨others, hns, heq⟩⟩⟩
          rw [h.forest']
          rwa [h.forest] at hroot

theorem ofNodes : f.ofNodes = g.ofNodes := by
  funext ns
  unfold CallFrame.ofNodes
  rw [h.forest, h.forest']

variable (W : F.WellFormed)

include W

theorem target (hd : g.function.defaultsToContextNode = true) : Refines f.target g.target := by
  unfold CallFrame.target
  rw [h.isEmpty_args, h.forest, h.forest']
  split
  · rw [h.focus_of_default hd (by assumption)]
    exact Refines.refl _
  · refine h.nodeSet_bind 0 (fun s => Refines.refl _) fun s w a hs ha => ?_
    obtain ⟨ns, rfl, rfl⟩ := hs.first? W ha
    exact ⟨ns, rfl, first?_value ns⟩

theorem ofTarget (hd : g.function.defaultsToContextNode = true) (name : Node → String) :
    Refines (f.ofTarget name) (g.ofTarget name) :=
  (h.target W hd).map _

theorem textsOf (i : Nat) : Refines (f.texts i) (g.texts i) := by
  intro texts ht
  obtain ⟨v, hv, ht⟩ := bind_eq_ok.mp ht
  rw [h.forest] at ht
  obtain ⟨w, hw | rfl, hg⟩ := h.value i v hv
  · refine bind_eq_ok.mpr ⟨_, hg, ?_⟩
    rw [h.forest']
    cases v with
    | nodeSet s =>
        obtain ⟨ns, hns, ht⟩ := bind_eq_ok.mp ht
        obtain rfl := NodeSet.Means.toList W hw hns
        exact bind_eq_ok.mpr ⟨ns, toList_value ns, ht⟩
    | fragment x => exact hw.elim
    | boolean | number | string | object =>
        rw [hw.value_eq (by simp [Value.dataType])]
        exact ht
  · refine bind_eq_ok.mpr ⟨_, hg, ?_⟩
    rw [h.forest']
    exact ht

theorem elementsById (hn : g.reads.bit 3 = true) : Refines f.elementsById g.elementsById := by
  unfold CallFrame.elementsById
  rw [h.focus hn, h.forest, h.forest']
  refine (Refines.refl _).bind fun n => (h.textsOf W 0).bind fun texts => ?_
  rw [h.ofNodes]
  exact Refines.refl _

theorem nodesByKey (hn : g.reads.bit 3 = true) (hk : g.reads.bit 6 = true) :
    Refines f.nodesByKey g.nodesByKey := by
  unfold CallFrame.nodesByKey
  rw [h.focus hn, h.forest, h.forest', h.scope, h.controller hk]
  refine (h.text 0).bind fun name => (Refines.refl _).bind fun name => ?_
  refine (Refines.refl _).bind fun n => (Refines.refl _).bind fun k => ?_
  refine (h.textsOf W 1).bind fun texts => (Refines.refl _).bind fun found => ?_
  rw [h.ofNodes]
  exact Refines.refl _

theorem sum : Refines f.sum g.sum := by
  unfold CallFrame.sum
  simp only [h.forest, h.forest']
  have hsum := h.nodeSet_bind 0 (fun s => Refines.refl _) fun s w ns hs hns =>
    ⟨ns, hs.toList W hns, @toList_value F ns⟩
  intro v hv
  obtain ⟨s, hs, hv⟩ := bind_eq_ok.mp hv
  obtain ⟨ns, hns, hv⟩ := bind_eq_ok.mp hv
  obtain ⟨s', hs', hns'⟩ := bind_eq_ok.mp (hsum ns (bind_eq_ok.mpr ⟨s, hs, hns⟩))
  exact bind_eq_ok.mpr ⟨s', hs', bind_eq_ok.mpr ⟨ns, hns', hv⟩⟩

theorem documentsFrom (k : Controller) (base : Option Node) :
    Refines (f.documentsFrom F k base) (g.documentsFrom F k base) := by
  intro a ha
  obtain ⟨v, hv, ha⟩ := bind_eq_ok.mp ha
  rw [h.ofNodes] at ha
  obtain ⟨w, hw | rfl, hg⟩ := h.value 0 v hv
  · refine bind_eq_ok.mpr ⟨_, hg, ?_⟩
    cases v with
    | nodeSet s =>
        obtain ⟨en, hen, ha⟩ := bind_eq_ok.mp ha
        obtain ⟨roots, hroots, ha⟩ := bind_eq_ok.mp ha
        obtain ⟨ns, rfl, hns, hsorted⟩ := NodeSet.Means.enumerate W hw hen
        obtain ⟨ms, hms, hroots⟩ := h.loadAll hroots
        obtain rfl := hns.nodes_eq hsorted (collect_eq_ok.mpr hms)
        exact bind_eq_ok.mpr ⟨_, enumerate_value _, bind_eq_ok.mpr ⟨roots, hroots, ha⟩⟩
    | fragment x => exact hw.elim
    | boolean | number | string | object =>
        rw [hw.value_eq (by simp [Value.dataType])]
        exact ha
  · refine bind_eq_ok.mpr ⟨_, hg, ?_⟩
    cases w with
    | nodes ns =>
        obtain ⟨en, hen, ha⟩ := bind_eq_ok.mp ha
        obtain ⟨roots, hroots, ha⟩ := bind_eq_ok.mp ha
        obtain ⟨ms, hms, hroots⟩ := h.loadAll hroots
        rw [← hms] at hroots
        exact bind_eq_ok.mpr ⟨en, hen, bind_eq_ok.mpr ⟨roots, hroots, ha⟩⟩
    | boolean | number | string | object => exact ha

theorem documents (hk : g.reads.bit 6 = true) : Refines f.documents g.documents := by
  have hvalue (k : Controller) (base : Option Node) :
      Refines (f.documentsFrom F k base) (g.documentsFrom F k base) := h.documentsFrom W k base
  unfold CallFrame.documents
  rw [h.controller hk, h.forest, h.forest']
  refine (Refines.refl _).bind fun k => ?_
  rw [h.count]
  split
  · refine h.nodeSet_bind 1 (fun s => (Refines.refl _).bind fun base => hvalue k base)
      fun s w a hs ha => ?_
    obtain ⟨base, hbase, ha⟩ := bind_eq_ok.mp ha
    obtain ⟨ns, rfl, rfl⟩ := hs.first? W hbase
    exact ⟨ns, rfl, bind_eq_ok.mpr ⟨_, first?_value ns, hvalue k _ a ha⟩⟩
  · exact (Refines.refl _).bind fun base => hvalue k base

theorem run : Refines f.run g.run := by
  have hreads : g.reads = intrinsicDependencies g.function g.args.length .free := rfl
  unfold CallFrame.run
  rw [h.function, h.forest, h.forest', h.scope]
  cases hg : g.function with
  | last =>
      rw [hg] at hreads
      exact (h.last (by simp [hreads, intrinsicDependencies])).bind fun k => .refl _
  | position =>
      rw [hg] at hreads
      rw [h.position (by simp [hreads, intrinsicDependencies])]
      exact .refl _
  | count =>
      refine h.nodeSet_bind 0 (fun s => .refl _) fun s w v hs hv => ?_
      obtain ⟨k, hk, hv⟩ := bind_eq_ok.mp hv
      obtain ⟨ns, rfl, rfl⟩ := hs.count W hk
      exact ⟨ns, rfl, bind_eq_ok.mpr ⟨_, count_value ns, hv⟩⟩
  | current =>
      rw [hg] at hreads
      rw [h.currentNode (by simp [hreads, intrinsicDependencies])]
      exact .refl _
  | id =>
      rw [hg] at hreads
      exact h.elementsById W (by simp [hreads, intrinsicDependencies, CallBinding.free])
  | key =>
      rw [hg] at hreads
      exact h.nodesByKey W (by simp [hreads, intrinsicDependencies, CallBinding.free])
        (by simp [hreads, intrinsicDependencies, CallBinding.free])
  | document =>
      rw [hg] at hreads
      exact h.documents W (by simp [hreads, intrinsicDependencies, CallBinding.free])
  | localName | namespaceUri | name | generateId => exact h.ofTarget W (by rw [hg]; rfl) _
  | not | boolean => exact (h.truth 0).bind fun b => .refl _
  | true | false => exact .refl _
  | lang | unparsedEntityUri =>
      rw [hg] at hreads
      rw [h.focus (by simp [hreads, intrinsicDependencies, CallBinding.free])]
      exact (h.text 0).bind fun wanted => .refl _
  | number =>
      dsimp only
      rw [h.isEmpty_args]
      split
      · rw [h.focus_of_default (by rw [hg]; rfl) (by assumption)]
        exact .refl _
      · exact (h.number 0).bind fun x => .refl _
  | floor | ceiling | round => exact (h.number 0).bind fun x => .refl _
  | sum => exact h.sum W
  | string | stringLength | normalizeSpace =>
      exact (h.textOrFocus (by rw [hg]; rfl)).bind fun t => .refl _
  | startsWith | contains | substringBefore | substringAfter =>
      exact (h.text 0).bind fun t => (h.text 1).bind fun t' => .refl _
  | substring =>
      dsimp only
      rw [h.count]
      refine (h.text 0).bind fun t => (h.number 1).bind fun start => ?_
      split
      · exact ((h.number 2).map some).bind fun length => .refl _
      · exact .refl _
  | translate =>
      exact (h.text 0).bind fun t => (h.text 1).bind fun t' => (h.text 2).bind fun t'' => .refl _
  | concat => exact h.texts.bind fun ts => .refl _
  | formatNumber =>
      rw [hg] at hreads
      exact h.formatNumber (by simp [hreads, intrinsicDependencies, CallBinding.free])
  | systemProperty =>
      rw [hg] at hreads
      exact h.systemProperty (by simp [hreads, intrinsicDependencies, CallBinding.free])
  | functionAvailable | elementAvailable => exact (h.text 0).bind fun t => .refl _

end Follows

/-! ## Results -/

/-- A call in a sound context that has captured what belongs to the forest. -/
structure Sound (F : Forest) (Γ : Typing) (f : CallFrame) : Prop where
  forest : f.forest = F
  binding : f.binding.Sound F
  context : f.context.Sound F Γ

variable {Γ : Typing}

namespace Sound

variable (h : f.Sound F Γ)

include h

theorem sound_controller {k : Controller} (hk : f.controller = .ok k) : k.Sound F := by
  unfold CallFrame.controller CallFrame.controller? at hk
  split at hk
  · rename_i k' hk'
    cases hk
    cases hb : f.binding.controller with
    | bound k' =>
        rw [hb] at hk'
        exact h.binding.controller k (by rw [hb, show k' = some k from hk'])
    | unbound =>
        rw [hb] at hk'
        exact h.context.controller k hk'
  · cases hk

theorem elementsById (hv : f.elementsById = .ok v) :
    ∃ ns, (∀ n ∈ ns, F.Has n) ∧ v = f.ofNodes ns := by
  unfold CallFrame.elementsById at hv
  simp only [bind_eq_ok, pure_eq_ok] at hv
  obtain ⟨n, -, texts, -, rfl⟩ := hv
  refine ⟨_, fun m hm => ?_, rfl⟩
  obtain ⟨id, -, hid⟩ := List.mem_filterMap.mp hm
  rw [h.forest] at hid
  exact Forest.has_of_elementById hid

theorem nodesByKey (hv : f.nodesByKey = .ok v) :
    ∃ ns, (∀ n ∈ ns, F.Has n) ∧ v = f.ofNodes ns := by
  unfold CallFrame.nodesByKey at hv
  simp only [bind_eq_ok, pure_eq_ok] at hv
  obtain ⟨text, -, name, -, n, -, k, hk, texts, -, found, hfound, rfl⟩ := hv
  refine ⟨_, fun m hm => ?_, rfl⟩
  obtain ⟨ns, hns, hm⟩ := List.mem_flatten.mp hm
  obtain ⟨text, htext⟩ := exists_of_mapM_eq_ok hfound hns
  exact (h.sound_controller hk).keyed _ _ _ ns htext m hm

omit h in
theorem loadAll {k : Controller} (hk : k.Sound F) {base : Option Node} {items : List Item}
    {roots : List Node} (hroots : documents.loadAll f k base items = .ok roots) :
    ∀ n ∈ roots, F.Has n := by
  induction items generalizing roots with
  | nil =>
      cases hroots
      simp
  | cons item items ih =>
      cases item with
      | error e => cases hroots
      | ok n =>
          obtain ⟨root, hroot, hrest⟩ := bind_eq_ok.mp hroots
          obtain ⟨others, hothers, heq⟩ := bind_eq_ok.mp hrest
          cases heq
          intro m hm
          rcases List.mem_cons.mp hm with rfl | hm
          · exact hk.loaded _ _ m hroot
          · exact ih hothers m hm

omit h in
theorem documentsFrom {k : Controller} (hk : k.Sound F) {base : Option Node}
    (hv : f.documentsFrom f.forest k base = .ok v) :
    ∃ ns, (∀ n ∈ ns, F.Has n) ∧ v = f.ofNodes ns := by
  obtain ⟨u, -, hv⟩ := bind_eq_ok.mp hv
  split at hv
  · obtain ⟨en, -, hv⟩ := bind_eq_ok.mp hv
    obtain ⟨roots, hroots, hv⟩ := bind_eq_ok.mp hv
    cases hv
    exact ⟨roots, loadAll hk hroots, rfl⟩
  · obtain ⟨text, -, hv⟩ := bind_eq_ok.mp hv
    obtain ⟨root, hroot, hv⟩ := bind_eq_ok.mp hv
    cases hv
    exact ⟨[root], fun n hn => List.mem_singleton.mp hn ▸ hk.loaded _ _ root hroot, rfl⟩

theorem documents (hv : f.documents = .ok v) :
    ∃ ns, (∀ n ∈ ns, F.Has n) ∧ v = f.ofNodes ns := by
  unfold CallFrame.documents at hv
  obtain ⟨k, hk, hv⟩ := bind_eq_ok.mp hv
  have hsound := h.sound_controller hk
  dsimp only at hv
  split at hv
  · obtain ⟨s, -, hv⟩ := bind_eq_ok.mp hv
    obtain ⟨base, -, hv⟩ := bind_eq_ok.mp hv
    exact documentsFrom hsound hv
  · exact documentsFrom hsound hv

end Sound

/-- A result is of the type of the function, if that has one. -/
theorem dataType_run (hany : f.function.dataType ≠ .any) :
    Returns (fun v => v.dataType = f.function.dataType ∧
      (v.outcome F).dataType = f.function.dataType) f.run := by
  unfold CallFrame.run
  cases hf : f.function with
  | systemProperty => exact absurd (by rw [hf]; rfl) hany
  | position | true | false => exact .pure ⟨rfl, rfl⟩
  | id => exact .after fun _ => .after fun _ => .pure ⟨rfl, rfl⟩
  | key =>
      exact .after fun _ => .after fun _ => .after fun _ => .after fun _ => .after fun _ =>
        .after fun _ => .pure ⟨rfl, rfl⟩
  | document =>
      dsimp only [CallFrame.documents]
      refine .after fun k => ?_
      split
      · refine .after fun s => .after fun base => .after fun v => ?_
        split <;> exact .after fun _ => .after fun _ => .pure ⟨rfl, rfl⟩
      · refine .after fun base => .after fun v => ?_
        split <;> exact .after fun _ => .after fun _ => .pure ⟨rfl, rfl⟩
  | localName | namespaceUri | name | generateId => exact .map fun _ => ⟨rfl, rfl⟩
  | last | current | not | boolean | floor | ceiling | round | string | stringLength
  | normalizeSpace | concat => exact .after fun _ => .pure ⟨rfl, rfl⟩
  | count | lang | sum | startsWith | contains | substringBefore | substringAfter
  | functionAvailable | elementAvailable | unparsedEntityUri =>
      exact .after fun _ => .after fun _ => .pure ⟨rfl, rfl⟩
  | translate => exact .after fun _ => .after fun _ => .after fun _ => .pure ⟨rfl, rfl⟩
  | number =>
      dsimp only
      split <;> exact .after fun _ => .pure ⟨rfl, rfl⟩
  | substring =>
      dsimp only
      refine .after fun _ => .after fun _ => ?_
      split <;> exact .after fun _ => .pure ⟨rfl, rfl⟩
  | formatNumber =>
      dsimp only [CallFrame.formatNumber]
      refine .after fun _ => .after fun _ => ?_
      split
      · refine .after fun _ => .after fun _ => ?_
        split
        · exact .after fun _ => .after fun _ => .pure ⟨rfl, rfl⟩
        · exact .after fun _ => .after fun _ => .pure ⟨rfl, rfl⟩
      · exact .after fun _ => .after fun _ => .pure ⟨rfl, rfl⟩

theorem sound_systemProperty : Returns (Value.Sound F) f.systemProperty := by
  unfold CallFrame.systemProperty
  refine .after fun text => .after fun name => ?_
  split
  · refine .pure ?_
    split <;> trivial
  · exact .pure trivial

/-- A result denotes an outcome of its own: no fragment is made, and nodes are nodes of the
forest. -/
theorem denotes_run (W : F.WellFormed) (h : f.Sound F Γ) (hv : f.run = .ok v) :
    v.Denotes F (v.outcome F) := by
  have hscalar (hany : f.function.dataType ≠ .any) (hnodes : f.function.dataType ≠ .nodeSet) :
      v.Denotes F (v.outcome F) := by
    have htype : v.dataType ≠ .nodeSet := (@dataType_run F f hany v hv).1 ▸ hnodes
    refine Value.Sound.denotes W ?_
    cases v with
    | nodeSet s => exact absurd rfl htype
    | fragment x => exact absurd rfl htype
    | boolean | number | string | object => trivial
  have hofNodes (hns : ∃ ns, (∀ n ∈ ns, F.Has n) ∧ v = f.ofNodes ns) :
      v.Denotes F (v.outcome F) := by
    obtain ⟨ns, hns, rfl⟩ := hns
    unfold CallFrame.ofNodes
    rw [h.forest]
    exact denotes_ofNodes W hns
  unfold CallFrame.run at hv
  cases hf : f.function with
  | current =>
      rw [hf] at hv
      obtain ⟨n, hn, hv⟩ := bind_eq_ok.mp hv
      cases hv
      have hhas := h.context.currentNode n (Context.currentNode_eq_ok.mp hn)
      exact denotes_nodeSet W (.singleton W hhas) rfl rfl
  | id =>
      rw [hf] at hv
      exact hofNodes (h.elementsById hv)
  | key =>
      rw [hf] at hv
      exact hofNodes (h.nodesByKey hv)
  | document =>
      rw [hf] at hv
      exact hofNodes (h.documents hv)
  | systemProperty =>
      rw [hf] at hv
      exact (sound_systemProperty v hv).denotes W
  | _ => exact hscalar (by rw [hf]; decide) (by rw [hf]; decide)

end CallFrame

/-! ## Calls of outcomes -/

namespace Meaning

variable {function : Builtin} {ws : List Outcome} {As As' : List Meaning} {b b' : CallBinding}
  {σ σ' τ : Context} {m : Dependencies} {Γ : Typing}

def focus? (b : CallBinding) (σ : Context) : Option Node := b.node.or σ.contextNode?

def controller? (b : CallBinding) (σ : Context) : Option Controller :=
  match b.controller with
  | .bound k => k
  | .unbound => σ.controller?

/-- Two calls agree on what a function with these facets reads. -/
structure Agree (reads : Dependencies) (b b' : CallBinding) (σ σ' : Context) : Prop where
  scope : b.scope = b'.scope
  currentNode : reads.bit 2 = true → σ.currentNode? = σ'.currentNode?
  focus : reads.bit 3 = true → focus? b σ = focus? b' σ'
  position : reads.bit 4 = true → σ.position = σ'.position
  last : reads.bit 5 = true → σ.lastPosition = σ'.lastPosition
  controller : reads.bit 6 = true → controller? b σ = controller? b' σ'

theorem Agree.symm {reads : Dependencies} (h : Agree reads b b' σ σ') :
    Agree reads b' b σ' σ where
  scope := h.scope.symm
  currentNode hr := (h.currentNode hr).symm
  focus hr := (h.focus hr).symm
  position hr := (h.position hr).symm
  last hr := (h.last hr).symm
  controller hr := (h.controller hr).symm

theorem focus_frame : (frame F function ws b σ).focus =
    match focus? b σ with
    | some n => .ok n
    | none => .error (.evaluation .noContextNode) := by
  unfold CallFrame.focus frame focus? Context.contextNode
  cases b.node <;> rfl

@[simp] theorem reads_frame : (frame F function ws b σ).reads =
    intrinsicDependencies function ws.length .free := by
  unfold CallFrame.reads frame
  rw [List.length_map]

theorem arg_frame (i : Nat) :
    (frame F function ws b σ).arg i = .literal (ws[i]?.getD (.string "")).value := by
  unfold CallFrame.arg frame
  rw [List.getElem?_map]
  cases ws[i]? <;> rfl

theorem value_frame (i : Nat) :
    (frame F function ws b σ).value i = .ok (ws[i]?.getD (.string "")).value := by
  unfold CallFrame.value
  rw [arg_frame]
  cases ws[i]?.getD (.string "") with
  | nodes ns =>
      change (NodeSet.sorted F (.ofNodes ns true)).map Value.nodeSet = _
      rw [sorted_value]
      rfl
  | boolean | number | string | object => rfl

theorem follows_frame
    (h : Agree (intrinsicDependencies function ws.length .free) b b' σ σ') :
    (frame F function ws b σ).Follows F (frame F function ws b' σ') where
  forest := rfl
  forest' := rfl
  function := rfl
  count := rfl
  scope := congrArg (·.getD .empty) h.scope
  currentNode hr := by
    rw [reads_frame] at hr
    unfold Context.currentNode frame
    rw [h.currentNode hr]
  focus hr := by
    rw [reads_frame] at hr
    rw [focus_frame, focus_frame, h.focus hr]
  position hr := h.position (reads_frame ▸ hr)
  last hr := by
    rw [reads_frame] at hr
    unfold Context.last frame
    rw [h.last hr]
    exact .refl _
  controller? hr := h.controller (reads_frame ▸ hr)
  text _ := .refl _
  number _ := .refl _
  truth _ := .refl _
  value i v hv := by
    rw [value_frame] at hv
    cases hv
    exact ⟨_, Or.inr rfl, value_frame i⟩
  texts := .refl _

/-- Calls that agree on what the function reads come to the same outcome. -/
theorem call_congr (W : F.WellFormed)
    (h : Agree (intrinsicDependencies function As.length .free) b b' σ σ')
    (hargs : As.map (fun A => A σ) = As'.map fun A => A σ') :
    call F function As b σ = call F function As' b' σ' := by
  have hlength : As.length = (As'.map fun A => A σ').length := by rw [← hargs, List.length_map]
  rw [hlength] at h
  have hto := (follows_frame h).run W
  have hfrom := (follows_frame h.symm).run W
  unfold call
  rw [hargs]
  cases hv : (frame F function (As'.map fun A => A σ') b σ).run with
  | ok v => rw [hto v hv]
  | error e =>
      cases hv' : (frame F function (As'.map fun A => A σ') b' σ').run with
      | ok v =>
          rw [hfrom v hv'] at hv
          cases hv
      | error e' => rfl

theorem dataType_call (hany : function.dataType ≠ .any) :
    (call F function As b σ).dataType = function.dataType := by
  unfold call
  split
  · rename_i v hv
    exact (CallFrame.dataType_run hany v hv).2
  · cases function <;> first | rfl | contradiction

/-! ## Facets of a call -/

/-- A call depends on the context node only as long as it has captured none. -/
theorem bit_contextNode_intrinsic (function : Builtin) (count : Nat) (b : CallBinding) :
    (intrinsicDependencies function count b).bit 3 =
      ((intrinsicDependencies function count .free).bit 3 && b.node.isNone) := by
  obtain ⟨node, controller, scope⟩ := b
  cases node <;> cases controller <;> cases function <;>
    simp [intrinsicDependencies, CallBinding.free, Builtin.defaultsToContextNode]

/-- It depends on the controller only as long as it has captured none. -/
theorem bit_controller_intrinsic (function : Builtin) (count : Nat) (b : CallBinding) :
    (intrinsicDependencies function count b).bit 6 =
      ((intrinsicDependencies function count .free).bit 6 &&
        match b.controller with
        | .unbound => true
        | .bound _ => false) := by
  obtain ⟨node, controller, scope⟩ := b
  cases node <;> cases controller <;> cases function <;>
    simp [intrinsicDependencies, CallBinding.free, Builtin.defaultsToContextNode]

theorem bit_intrinsic {i : Nat} (hnode : i ≠ 3) (hcontroller : i ≠ 6) (function : Builtin)
    (count : Nat) (b : CallBinding) :
    (intrinsicDependencies function count b).bit i =
      (intrinsicDependencies function count .free).bit i := by
  obtain ⟨node, controller, scope⟩ := b
  cases node <;> cases controller <;> cases function <;>
    simp [intrinsicDependencies, CallBinding.free, Builtin.defaultsToContextNode, hnode,
      hcontroller]

/-- The current node, the position and the size are each read by the one function made for it. -/
theorem bit_intrinsic_of_ne (function : Builtin) (count : Nat) (b : CallBinding) :
    (function ≠ .current → (intrinsicDependencies function count b).bit 2 = false) ∧
      (function ≠ .position → (intrinsicDependencies function count b).bit 4 = false) ∧
      (function ≠ .last → (intrinsicDependencies function count b).bit 5 = false) := by
  obtain ⟨node, controller, scope⟩ := b
  cases node <;> cases controller <;> cases function <;>
    simp [intrinsicDependencies, Builtin.defaultsToContextNode]

theorem bit_intrinsic_of_notin {i : Nat} (h2 : i ≠ 2) (h3 : i ≠ 3) (h4 : i ≠ 4) (h5 : i ≠ 5)
    (h6 : i ≠ 6) (function : Builtin) (count : Nat) (b : CallBinding) :
    (intrinsicDependencies function count b).bit i = false := by
  obtain ⟨node, controller, scope⟩ := b
  cases node <;> cases controller <;> cases function <;>
    simp [intrinsicDependencies, Builtin.defaultsToContextNode, h2, h3, h4, h5, h6]

/-- A call in a context in which the facets of a mask were rebound, and the call that has captured
what it reads of them. -/
theorem agree_rebind {d : Dependencies} {count : Nat}
    (hd : d = intrinsicDependencies function count b) (hscope : b'.scope = b.scope)
    (hcurrent : (d &&& m).bit 2 = false) (hposition : (d &&& m).bit 4 = false)
    (hlast : (d &&& m).bit 5 = false)
    (hnode : if (d &&& m).bit 3 then ∃ n, b'.node = some n ∧ τ.contextNode? = some n
      else b'.node = b.node)
    (hcontroller : b'.controller =
      if (d &&& m).bit 6 then .bound τ.controller? else b.controller) :
    Agree (intrinsicDependencies function count .free) b b' (σ.rebind m τ) σ where
  scope := hscope.symm
  currentNode hr := by
    rw [← bit_intrinsic (by decide) (by decide) function count b, ← hd] at hr
    rw [Dependencies.bit_and, hr, Bool.true_and] at hcurrent
    simp [Context.rebind, hcurrent]
  position hr := by
    rw [← bit_intrinsic (by decide) (by decide) function count b, ← hd] at hr
    rw [Dependencies.bit_and, hr, Bool.true_and] at hposition
    simp [Context.rebind, hposition]
  last hr := by
    rw [← bit_intrinsic (by decide) (by decide) function count b, ← hd] at hr
    rw [Dependencies.bit_and, hr, Bool.true_and] at hlast
    simp [Context.rebind, hlast]
  focus hr := by
    have hbit : d.bit 3 = b.node.isNone := by
      rw [hd, bit_contextNode_intrinsic, hr, Bool.true_and]
    unfold focus? Context.rebind
    rw [Dependencies.bit_and, hbit] at hnode
    cases hb : b.node with
    | some n =>
        rw [hb] at hnode
        rw [show b'.node = some n from hnode]
        rfl
    | none =>
        rw [hb] at hnode
        cases hm : m.bit 3 with
        | false =>
            rw [hm] at hnode
            rw [show b'.node = none from hnode]
            rfl
        | true =>
            rw [hm] at hnode
            obtain ⟨n, hn, hτ⟩ := hnode
            rw [hn, hτ]
            rfl
  controller hr := by
    have hbit := bit_controller_intrinsic function count b
    rw [← hd, hr, Bool.true_and] at hbit
    unfold controller? Context.rebind
    rw [hcontroller, Dependencies.bit_and, hbit]
    cases hb : b.controller with
    | bound k => rfl
    | unbound => cases hm : m.bit 6 <;> rfl

end Meaning

end XPath
