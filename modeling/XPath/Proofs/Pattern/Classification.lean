import XPath.Proofs.Evaluation.Classification
import XPath.Proofs.Evaluation.Extensions
import XPath.Proofs.Pattern.Agreement

/-!
# How predicates select, in steps, filters and patterns

A step, a filter expression and a pattern each decide from the type of a predicate whether its values
may be positions. They agree (`Host.predicates_agree`): a number selects by position, along the axis
in a step and in document order in a filter expression, any other value by its truth, and a pattern
step accepts what the step selects from the parent. A function that declares objects and returns
numbers is taken for positional by the scan of a list, but not where the list is put in order, so in
a filter of nodes in reverse order the positions are counted from the wrong end
(`Host.not_predicates_agree`).
-/

namespace XPath

variable {h : Host} {Γ : Typing} {c : Context} {e p : Expr} {m n : Node} {ns ms : List Node}
  {axis : Axis} {test test' : NodeTest} {es : List Expr} {b : Bool}

/-! ## Pattern steps -/

namespace Pattern

/-- A step of a pattern accepts a node exactly if the step of the expression finds it from the
parent of the node. -/
theorem accepts_step_iff {q : Pattern} (W : h.forest.WellFormed) (R : h.forest.Rooted)
    (ht : Tests axis test test') (hes : Expr.EveryOfList (Expr.Answerable h Γ) es)
    (hsettles : Expr.EveryOfList Expr.Settles es) (hc : c.Sound h.forest Γ) (hn : h.forest.Has n)
    (hq : (step test' es).simplify h.forest = .ok q)
    (he : (Expr.path .contextNode axis test es).simplify h.forest = .ok e)
    (hb : q.accepts h c n = .ok b)
    (hdrain : ∀ m, h.forest.parent? n = some m → ∃ ns, e.drain h (c.withNode m) = .ok ns) :
    b = true ↔ ∃ m ns, h.forest.parent? n = some m ∧ e.drain h (c.withNode m) = .ok ns ∧ n ∈ ns := by
  obtain ⟨Bs, hBs⟩ := Expr.exists_meansList W es hes fun _ => hsettles
  have hD : (Expr.path .contextNode axis test es).Means h.forest (h.lawfulCalls Γ) Γ false
      (.path h.forest (.oneNode none some) axis test Bs) := by
    rw [Expr.Means]
    exact ⟨ht.fits, _, Bs, by rw [Expr.Means], hBs, rfl⟩
  have hdecides := decides W R (Spells.first (s := {}) ht es) hc hD hq
  -- what is found from a node are the nodes that the meaning lists there
  have hlists {m : Node} {ns : List Node} (hm : h.forest.Has m)
      (hns : e.drain h (c.withNode m) = .ok ns) :
      n ∈ ns ↔ (Meaning.path h.forest (.oneNode none some) axis test Bs).Selects (c.withNode m) n := by
    obtain ⟨ks, hks, -, hmem⟩ := (hD.simplify W he).drain W (hc.withNode hm) hns
    rw [hmem]
    exact ⟨fun hn => ⟨ks, hks, hn⟩, fun ⟨ks', hks', hn⟩ => by cases hks.symm.trans hks'; exact hn⟩
  constructor
  · rintro rfl
    obtain ⟨m, hupward, hselects⟩ := hdecides.sound n hn hb
    have hm := Forest.has_of_mem_upward W hn hupward
    obtain ⟨k, ⟨_, ⟨rfl⟩, hk⟩, hstep⟩ :=
      (selects_path W ((leads_first W).lists m hm)).mp hselects
    obtain rfl : k = m := by simpa [Context.withNode] using hk
    have hparent := ((mem_step W R ht).mp (Meaning.selected_subset hstep)).1
    obtain ⟨ns, hns⟩ := hdrain k hparent
    exact ⟨k, ns, hparent, hns, (hlists hm hns).mpr hselects⟩
  · rintro ⟨m, ns, hparent, hns, hmem⟩
    have hm := W.linked.has_parent hparent
    exact hdecides.complete m n b hm (W.linked.documentRoot_of_parent hparent).symm
      ((hlists hm hns).mp hmem) hb

end Pattern

/-! ## The three places -/

namespace Expr

/-- Of what a step finds from one node, its last predicate leaves the nodes that pass it. -/
theorem filters_of_drain_path (W : h.forest.WellFormed) (hh : h.Truthful) {start : Expr}
    {origins : List Node} {f : Node → List Node}
    (hstart : (Policy.truthful h.forest).AdmitsExpr start)
    (hc : (Policy.truthful h.forest).AdmitsContext c) (hp : p.Typed h)
    (horigins : start.drain h c = .ok origins)
    (hf : ∀ n ∈ origins, (path contextNode axis test es).drain h (c.withNode n) = .ok (f n))
    (hms : (path start axis test (es ++ [p])).drain h c = .ok ms) :
    ∃ g : Node → List Node, ms = origins.flatMap g ∧ ∀ n ∈ origins,
      (f n).Sublist (h.forest.onAxis axis n) ∧ p.Filters h c (f n) (g n) := by
  obtain ⟨g, rfl, hg⟩ := drain_path horigins hms
  obtain ⟨en, hen, hitems⟩ := drain_eq_ok.mp horigins
  have htruthful := ((Policy.enumerate_admits (hh.closed W) hstart hc).of_ok hen).flags.truthful
  refine ⟨g, rfl, fun n hn => ?_⟩
  have hhas : h.forest.Has n := htruthful.has n (by rwa [hitems, leading_map_ok])
  have hsub : (f n).Sublist (h.forest.onAxis axis n) := by
    have hstep := (drain_step axis test es c n).symm.trans (hf n hn)
    rw [← leading_of_collect hstep]
    exact leading_step _ W axis test es c n
  have hbound : (f n).length < 2 ^ 53 :=
    W.length_lt ((W.linked.nodup_onAxis axis n).sublist hsub) fun m hm =>
      W.linked.has_of_mem_onAxis hhas (hsub.subset hm)
  exact ⟨hsub, filters_of_drain_step hp hbound (hf n hn) (hg n hn)⟩

/-- The value of a predicate whose type is none of those that may be positions is no number. -/
theorem Typed.ne_number (hp : p.Typed h) (hpositional : p.isPositional = false)
    (hobject : p.dataType ≠ .object) (x : Float) : p.evaluate h c ≠ .ok (.number x) := by
  intro hx
  obtain ⟨hnumber, hany⟩ := dataType_of_not_positional hpositional
  exact hnumber ((hp.number_iff hany hobject hx).mp rfl)

/-- A filter expression tests the nodes of its base in document order, or else by a predicate that
does not look at positions and has no numbers for values. -/
theorem exists_filters_of_drain_filter (W : h.forest.WellFormed) (hh : h.Truthful) {base : Expr}
    (hbase : (Policy.truthful h.forest).AdmitsExpr base)
    (hc : (Policy.truthful h.forest).AdmitsContext c) (hp : p.Typed h)
    (hns : base.drain h c = .ok ns) (hms : (filter base p).drain h c = .ok ms)
    (hobject : p.dataType = .object → ∀ n k l x, p.evaluate h (c.forItem n k l) = .ok (.number x) →
      h.forest.Ascending ns) :
    ∃ ks, p.Filters h c ks ms ∧ (ks = h.forest.inOrder ns ∨ ks = ns ∧ p.isRelative = false ∧
      ∀ n k l x, p.evaluate h (c.forItem n k l) ≠ .ok (.number x)) := by
  have hfilters := filters_of_drain_filter W hh hbase hc hp hns hms
  refine ⟨_, hfilters, ?_⟩
  cases hpositional : p.isPositional with
  | true => exact .inl rfl
  | false =>
      by_cases hascending : h.forest.Ascending ns
      · exact .inl (Forest.inOrder_of_ascending hascending).symm
      · refine .inr ⟨rfl, ?_, fun n k l x hx => ?_⟩
        · simp only [isPositional, Bool.or_eq_false_iff] at hpositional
          exact hpositional.2
        · by_cases htype : p.dataType = .object
          · exact hascending (hobject htype n k l x hx)
          · exact hp.ne_number hpositional htype x hx

/-! ## A function that returns its argument -/

def echo (t : DataType) : ExtensionFunction := ⟨0, "f", 1, 1, .empty, t⟩

/-- `u:f(1)` -/
def echoed (t : DataType) : Expr := extension ⟨"urn:u", "f"⟩ "u:f" (echo t) [number 1]

/-- `ancestor::node()`, with predicates. -/
def ancestry (predicates : List Expr) : Expr := path contextNode .ancestor .anyNode predicates

/-- `child::x[u:f(1)]` -/
def echoedChild : Expr := path contextNode .child (Pattern.elementNamed "x") [echoed .any]

/-- The element `x` of `<r><x/></r>`. -/
def deepContext : Context := .ofNode ⟨0, 2⟩

theorem truthful_returningHost : returningHost.Truthful := by
  intro f vs c hvs _
  rcases hf : f.identity with - | k
  · show Ends _ _ (Except.ok (vs.head?.getD (.string "")))
    cases vs with
    | nil => exact Ends.pure (P := (Policy.truthful returningHost.forest).AdmitsValue) trivial
    | cons v vs =>
        exact Ends.pure (P := (Policy.truthful returningHost.forest).AdmitsValue)
          (hvs v List.mem_cons_self)
  · exact (trivial : Ends (fun _ => True) _ (Except.error Routine.failure))

theorem truthful_deepContext : (Policy.truthful .nested).AdmitsContext deepContext :=
  Policy.admits_ofNode (show Forest.nested.Has _ by decide)

theorem typed_echoed {t : DataType} (ht : t = .any ∨ t = .object) :
    (echoed t).Typed returningHost := ht.imp_right .inl

theorem keep_echoed (t : DataType) (c : Context) (l : LastPosition) (m n : Node) :
    (echoed t).keep returningHost c l 0 [m, n] = .ok [m] := by
  have hfirst : ((1 : Float) == Float.ofNat 1) = true := by decide
  have hsecond : ((1 : Float) == Float.ofNat 2) = false := by decide
  have hpasses (k : Nat) (m : Node) : (echoed t).passes returningHost (c.forItem m k l) =
      .ok ((1 : Float) == Float.ofNat k) := rfl
  exact keep_cons ((hpasses 1 m).trans (congrArg Except.ok hfirst))
    (keep_cons ((hpasses 2 n).trans (congrArg Except.ok hsecond)) rfl)

def firstOf : List Outcome → Outcome
  | [] => .string ""
  | .nodes ns :: _ => .nodes (Forest.nested.inOrder ns)
  | w :: _ => w

theorem lawful_echo : returningHost.Lawful Γ (echo .any) := by
  refine ⟨fun ws _ => firstOf ws, ⟨fun _ _ _ _ _ => rfl, fun hany => absurd rfl hany,
    fun ws σ ns hns => ?_⟩, ⟨?_⟩⟩
  · unfold firstOf at hns
    split at hns
    · cases hns
    · cases hns
      exact Forest.ascending_inOrder _ _
    · rename_i w _ hnodes
      exact absurd hns (hnodes ns)
  · rintro vs ws c σ v hargs - - hv
    cases hargs with
    | nil =>
        cases hv
        exact ⟨rfl, rfl, fun _ hns => by cases hns⟩
    | @cons v' w vs ws hhead _ =>
        cases hv
        cases w with
        | nodes ns =>
            have hsame : Forest.nested.inOrder ns = ns :=
              Forest.inOrder_of_ascending (hhead.ascending ns rfl)
            show Value.Denotes .nested v' (.nodes (Forest.nested.inOrder ns))
            rw [hsame]
            exact hhead
        | boolean | number | string | object => exact hhead

theorem answerable_echoed : (echoed .any).Every (Answerable returningHost Γ) := by
  refine ⟨⟨⟨lawful_echo, ?_⟩, trivial, trivial⟩, ⟨⟨trivial, trivial, trivial⟩, trivial⟩⟩
  simp [number, isLazy]

theorem settles_echoed (t : DataType) : (echoed t).Every Settles := by
  have houter : Dependencies.empty.intersects .outer = false := by decide
  simp [Every, EveryOfList, Settles, echoed, echo, number, houter]

theorem sound_deepContext : deepContext.Sound .nested Γ := .ofNode (by decide) Γ

theorem admits_ancestry : (Policy.truthful .nested).AdmitsExpr (ancestry []) := by
  simp [Every, EveryOfList, Policy.AdmitsPart, ancestry]

theorem drain_ancestry : (ancestry []).drain returningHost deepContext = .ok [⟨0, 1⟩, ⟨0, 0⟩] :=
  toOption_eq_some.mp (by decide +kernel)

theorem inOrder_ancestry : Forest.nested.inOrder [⟨0, 1⟩, ⟨0, 0⟩] = [⟨0, 0⟩, ⟨0, 1⟩] := by
  have hascending : Forest.nested.Ascending [⟨0, 0⟩, ⟨0, 1⟩] :=
    List.pairwise_pair.mpr (show Forest.nested.compareNodes _ _ = .lt by decide)
  refine (Forest.ascending_inOrder _ _).eq_of_mem_iff hascending fun n => ?_
  rw [Forest.wellFormed_nested.mem_inOrder (by decide)]
  simp [or_comm]

end Expr

/-! ## Agreement -/

open XPath.Expr hiding failure

namespace Host

/-- A predicate selects by position where its value is a number, and by its truth elsewhere: in a step,
where the positions are those along the axis, in a filter expression, where they are those in document
order, and in the step of a pattern, which accepts what the step of the expression finds from the
parent. A function that declares a truth value, a number, a string or a node-set has to keep to it, as far
as numbers go (`Expr.Typed`): under another type than the declared one the code selects by the
declared one. In a step it does not matter what is returned under the types `any` and `object`. A filter
of nodes that are not in order asks that nothing declared as an object is a number, and so do the
lawful functions of a pattern. -/
theorem predicates_agree (W : h.forest.WellFormed) (R : h.forest.Rooted) (hh : h.Truthful) :
    (∀ start axis test es p c origins (f : Node → List Node) ms,
      (Policy.truthful h.forest).AdmitsExpr start → (Policy.truthful h.forest).AdmitsContext c →
      p.Typed h → start.drain h c = .ok origins →
      (∀ n ∈ origins, (path contextNode axis test es).drain h (c.withNode n) = .ok (f n)) →
      (path start axis test (es ++ [p])).drain h c = .ok ms →
      ∃ g : Node → List Node, ms = origins.flatMap g ∧ ∀ n ∈ origins,
        (f n).Sublist (h.forest.onAxis axis n) ∧ p.Filters h c (f n) (g n)) ∧
    (∀ base p c ns ms,
      (Policy.truthful h.forest).AdmitsExpr base → (Policy.truthful h.forest).AdmitsContext c →
      p.Typed h → base.drain h c = .ok ns → (filter base p).drain h c = .ok ms →
      (p.dataType = .object → ∀ n k l x, p.evaluate h (c.forItem n k l) = .ok (.number x) →
        h.forest.Ascending ns) →
      ∃ ks, p.Filters h c ks ms ∧ (ks = h.forest.inOrder ns ∨ ks = ns ∧ p.isRelative = false ∧
        ∀ n k l x, p.evaluate h (c.forItem n k l) ≠ .ok (.number x))) ∧
    ∀ Γ axis test test' es e q c n b, Pattern.Tests axis test test' →
      EveryOfList (Answerable h Γ) es → EveryOfList Settles es → c.Sound h.forest Γ →
      h.forest.Has n → (Pattern.step test' es).simplify h.forest = .ok q →
      (path contextNode axis test es).simplify h.forest = .ok e → q.accepts h c n = .ok b →
      (∀ m, h.forest.parent? n = some m → ∃ ns, e.drain h (c.withNode m) = .ok ns) →
      (b = true ↔ ∃ m ns, h.forest.parent? n = some m ∧ e.drain h (c.withNode m) = .ok ns ∧ n ∈ ns) :=
  ⟨fun _ _ _ _ _ _ _ _ _ hstart hc hp horigins hf hms =>
      filters_of_drain_path W hh hstart hc hp horigins hf hms,
    fun _ _ _ _ _ hbase hc hp hns hms hobject =>
      exists_filters_of_drain_filter W hh hbase hc hp hns hms hobject,
    fun _ _ _ _ _ _ _ _ _ _ ht hes hsettles hc hn hq he hb hdrain =>
      Pattern.accepts_step_iff W R ht hes hsettles hc hn hq he hb hdrain⟩

/-- With `f` declared as an object `ancestor::node()[u:f(1)]` finds the parent, with `f` declared as any
value `(ancestor::node())[u:f(1)]` finds the root, and the pattern `x[u:f(1)]` accepts the element. -/
theorem predicates_agree_echoed :
    (∃ g : Node → List Node, [⟨0, 1⟩] = [⟨0, 2⟩].flatMap g ∧ ∀ n ∈ [(⟨0, 2⟩ : Node)],
      [⟨0, 1⟩, ⟨0, 0⟩].Sublist (Forest.nested.onAxis .ancestor n) ∧
        (echoed .object).Filters returningHost deepContext [⟨0, 1⟩, ⟨0, 0⟩] (g n)) ∧
    (∃ ks, (echoed .any).Filters returningHost deepContext ks [⟨0, 0⟩] ∧
      (ks = Forest.nested.inOrder [⟨0, 1⟩, ⟨0, 0⟩] ∨ ks = [⟨0, 1⟩, ⟨0, 0⟩] ∧
        (echoed .any).isRelative = false ∧ ∀ n k l x,
          (echoed .any).evaluate returningHost (deepContext.forItem n k l) ≠ .ok (.number x))) ∧
    ∃ m ns, Forest.nested.parent? ⟨0, 2⟩ = some m ∧
      echoedChild.drain returningHost (deepContext.withNode m) = .ok ns ∧ ⟨0, 2⟩ ∈ ns := by
  have hagree := predicates_agree (h := returningHost) Forest.wellFormed_nested Pattern.rooted_nested
    truthful_returningHost
  have hstart : contextNode.drain returningHost deepContext = .ok [⟨0, 2⟩] := rfl
  have hstep : (ancestry [echoed .object]).drain returningHost deepContext = .ok [⟨0, 1⟩] :=
    toOption_eq_some.mp (by decide +kernel)
  have hfilter : (filter (ancestry []) (echoed .any)).drain returningHost deepContext =
      .ok [⟨0, 0⟩] := toOption_eq_some.mp (by decide +kernel)
  have hpattern : (Pattern.step (Pattern.elementNamed "x") [echoed .any]).simplify .nested =
      .ok (.location (Pattern.elementNamed "x") none none [echoed .any]
        (.among (path parentNode .child (Pattern.elementNamed "x") [echoed .any]))) := by rfl
  have hpath : echoedChild.simplify .nested = .ok echoedChild := by rfl
  have haccepts : (Pattern.location (Pattern.elementNamed "x") none none [echoed .any]
      (.among (path parentNode .child (Pattern.elementNamed "x") [echoed .any]))).accepts
        returningHost deepContext ⟨0, 2⟩ = .ok true := toOption_eq_some.mp (by decide +kernel)
  have hchild : echoedChild.drain returningHost (deepContext.withNode ⟨0, 1⟩) = .ok [⟨0, 2⟩] :=
    toOption_eq_some.mp (by decide +kernel)
  refine ⟨hagree.1 contextNode .ancestor .anyNode [] (echoed .object) deepContext [⟨0, 2⟩]
      (fun _ => [⟨0, 1⟩, ⟨0, 0⟩]) [⟨0, 1⟩] ?_ truthful_deepContext (typed_echoed (.inr rfl)) hstart ?_
      hstep,
    hagree.2.1 (ancestry []) (echoed .any) deepContext [⟨0, 1⟩, ⟨0, 0⟩] [⟨0, 0⟩] admits_ancestry
      truthful_deepContext (typed_echoed (.inl rfl)) drain_ancestry hfilter nofun,
    (hagree.2.2 (fun _ => none) .child (Pattern.elementNamed "x") (Pattern.elementNamed "x")
      [echoed .any] _ _ deepContext ⟨0, 2⟩ true ?_ ⟨answerable_echoed, trivial⟩
      ⟨settles_echoed .any, trivial⟩ sound_deepContext (by decide) hpattern hpath haccepts ?_).mp rfl⟩
  · simp [Every, Policy.AdmitsPart]
  · rintro n hn
    obtain rfl := List.mem_singleton.mp hn
    exact drain_ancestry
  · exact ⟨⟨nofun, nofun, nofun⟩, nofun, .inl ⟨rfl, rfl⟩⟩
  · intro m hm
    cases hm
    exact ⟨_, hchild⟩

/-- With `f` declared as an object `(ancestor::node())[u:f(1)]` finds the parent, which is not first in
document order. -/
theorem not_predicates_agree : ¬∀ (h : Host) (base p : Expr) (c : Context) (ns ms : List Node),
    h.forest.WellFormed → h.Truthful → (Policy.truthful h.forest).AdmitsExpr base →
      (Policy.truthful h.forest).AdmitsContext c → p.Typed h → base.drain h c = .ok ns →
      (filter base p).drain h c = .ok ms →
      ∃ ks, p.Filters h c ks ms ∧ (ks = h.forest.inOrder ns ∨ ks = ns ∧ p.isRelative = false ∧
        ∀ n k l x, p.evaluate h (c.forItem n k l) ≠ .ok (.number x)) := by
  intro hagree
  have hfilter : (filter (ancestry []) (echoed .object)).drain returningHost deepContext =
      .ok [⟨0, 1⟩] := toOption_eq_some.mp (by decide +kernel)
  obtain ⟨ks, ⟨l, -, hkeep⟩, hks | ⟨-, -, hnone⟩⟩ := hagree returningHost (ancestry []) (echoed .object)
    deepContext [⟨0, 1⟩, ⟨0, 0⟩] [⟨0, 1⟩] Forest.wellFormed_nested truthful_returningHost
    admits_ancestry truthful_deepContext (typed_echoed (.inr rfl)) drain_ancestry hfilter
  · obtain rfl : ks = [⟨0, 0⟩, ⟨0, 1⟩] := hks.trans inOrder_ancestry
    cases (keep_echoed .object deepContext l ⟨0, 0⟩ ⟨0, 1⟩).symm.trans hkeep
  · exact hnone ⟨0, 1⟩ 1 .unknown 1 rfl

end Host

end XPath
