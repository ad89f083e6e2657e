import XPath.Proofs.Agreement.Parts
import XPath.Proofs.Evaluation.Depth
import XPath.Proofs.Evaluation.Flags

/-!
# How a predicate selects

A predicate selects by position where its value is a number, and by its truth value elsewhere
(`Expr.passes`). Enumerations do not look at the value first: they go by the static type of the
predicate. The type tells as much as the value, also for a call of a function of the host that
returns numbers for some items only (`Expr.Typed.passes_eq`), so what a scan of a list keeps are
the nodes that pass at their positions (`Engine.filters_of_filter`).
-/

namespace XPath

open XPath.Expr hiding failure

variable {F : Forest} {h : Host} {E : Engine} {c : Context} {e p : Expr} {v : Value}
  {base en : Enumeration} {n : Node} {ns ms : List Node} {k total : Nat} {l : LastPosition}
  {size : ListSize}

/-! ## Values that are numbers -/

theorem Engine.dataType_binary (E : Engine) (F : Forest) (op : BinaryOperator) (lhs rhs : Expr)
    (c : Context) : Returns (fun v => v.dataType = if op.isArithmetic then .number else .boolean)
      (E.binary F op lhs rhs c) := by
  unfold Engine.binary
  cases op with
  | or =>
      refine .after fun b => ?_
      cases b with
      | true => exact .pure rfl
      | false => exact .after fun _ => .pure rfl
  | and =>
      refine .after fun b => ?_
      cases b with
      | true => exact .after fun _ => .pure rfl
      | false => exact .pure rfl
  | plus | minus | multiply | divide | modulo => exact .after fun _ => .after fun _ => .pure rfl
  | equals | notEquals | lessThan | lessThanOrEqual | greaterThan | greaterThanOrEqual =>
      exact .after fun _ => .after fun _ => .after fun _ => .pure rfl

def Expr.isExtension : Expr → Bool
  | extension .. => Bool.true
  | _ => Bool.false

/-- A value is of the static type of the expression, if that has one. -/
theorem Engine.dataType_ruleValue (E : Engine) (c : Context) (e : Expr)
    (hown : e.isExtension = false) (hany : e.dataType ≠ .any) :
    Returns (fun v => v.dataType = e.dataType) (E.ruleValue h e c) := by
  match e with
  | literal (.nodeSet s) => exact .map fun _ => rfl
  | literal (.boolean _) | literal (.number _) | literal (.string _) | literal (.fragment _)
  | literal (.object _) | .reference _ _ (some _) => exact .pure rfl
  | .reference _ _ none | .failure _ => exact absurd rfl hany
  | .binary op lhs rhs => exact E.dataType_binary h.forest op lhs rhs c
  | negate _ | nodeComparison .. | template _ | .path .. | .filter .. | setOperation ..
  | sorted .. => exact .after fun _ => .pure rfl
  | contextNode | parentNode | root | attributeNamed .. =>
      refine .after fun n => ?_
      cases n <;> exact .pure rfl
  | call function args binding => exact fun v hv =>
      (CallFrame.dataType_run (F := h.forest) (f := ⟨E, h.forest, function, args, binding, c⟩) hany v
        hv).1
  | extension .. => cases hown

/-- The function returns numbers if that is the type that it declares, and none if it declares another
type. A function that declares values of any type, or objects, may return both. -/
def Host.Types (h : Host) (f : ExtensionFunction) : Prop :=
  f.dataType = .any ∨ f.dataType = .object ∨
    ∀ vs c v, h.apply f.identity vs c = .ok v → (v.dataType = .number ↔ f.dataType = .number)

namespace Expr

/-- The expression is no call of a function that returns numbers against its declared type. -/
def Typed (h : Host) : Expr → Prop
  | extension _ _ f _ => h.Types f
  | _ => True

theorem dataType_of_isNodeSetExpression (he : e.isNodeSetExpression = true) :
    e.dataType = .nodeSet := by
  cases e <;> first | rfl | cases he

theorem isNodeSetExpression_of_either (hp : p.predicateKind = .either) :
    p.isNodeSetExpression = false := by
  cases p <;> first | rfl | cases hp

/-- If the static type is one of the four, it tells whether the value is a number. -/
theorem Typed.number_iff (hp : p.Typed h) (hany : p.dataType ≠ .any) (hobject : p.dataType ≠ .object)
    (hv : p.evaluate h c = .ok v) : v.dataType = .number ↔ p.dataType = .number := by
  rw [evaluate_eq] at hv
  cases hown : p.isExtension with
  | false => rw [Engine.dataType_ruleValue _ c p hown hany v hv]
  | true =>
      cases p <;> try cases hown
      obtain ⟨vs, -, hv⟩ := bind_eq_ok.mp hv
      rcases hp with hf | hf | hf
      · exact absurd hf hany
      · exact absurd hf hobject
      · exact hf vs c v hv

/-! ## The test of one item -/

/-- Whether the item in focus passes a predicate: a number must be its position, and any other value
must be true. -/
def passes (h : Host) (p : Expr) (c : Context) : Except Error Bool :=
  match p.evaluate h c with
  | .ok (.number x) => .ok (x == Float.ofNat c.position)
  | _ => p.evaluateAsBool h c

/-- The nodes of a list that pass a predicate, where `k` nodes stand before the list and its length is
told by `l`. -/
def keep (h : Host) (p : Expr) (c : Context) (l : LastPosition) : Nat → List Node →
    Except Error (List Node)
  | _, [] => .ok []
  | k, n :: ns => do
    let passes ← p.passes h (c.forItem n (k + 1) l)
    let rest ← keep h p c l (k + 1) ns
    return if passes then n :: rest else rest

theorem keep_cons {b : Bool} {rest : List Node} (htest : p.passes h (c.forItem n (k + 1) l) = .ok b)
    (hrest : p.keep h c l (k + 1) ns = .ok rest) :
    p.keep h c l k (n :: ns) = .ok (if b then n :: rest else rest) := by
  rw [keep, htest, ok_bind, hrest]
  rfl

theorem Typed.passes_eq (hp : p.Typed h) (c : Context) :
    h.evaluator.passes h.forest p c = p.passes h c := by
  have hscalar (hnode : p.dataType ≠ .nodeSet) : p.isNodeSetExpression = false := by
    by_contra hset
    exact hnode (dataType_of_isNodeSetExpression (by simpa using hset))
  have htruth (hset : p.isNodeSetExpression = false) :
      p.evaluateAsBool h c = (do (← p.evaluate h c).toBool h.forest) := by
    rw [evaluateAsBool_eq, evaluate_eq, Engine.ruleTruth, if_neg (by simp [hset])]
  unfold Engine.passes
  cases hkind : p.predicateKind with
  | constant x =>
      rw [predicateKind_eq_constant hkind]
      exact congrArg Except.ok (Number.beq_comm _ _)
  | positional =>
      have htype := dataType_of_positional hkind
      have hnumber : p.evaluateAsNumber h c = (do (← p.evaluate h c).toNumber h.forest) := by
        rw [evaluateAsNumber_eq, evaluate_eq, Engine.ruleNumber,
          if_neg (by simp [hscalar (by simp [htype])])]
      change (do return (← p.evaluateAsNumber h c) == Float.ofNat c.position) = _
      unfold Expr.passes
      rw [hnumber, htruth (hscalar (by simp [htype]))]
      cases hv : p.evaluate h c with
      | error _ => rfl
      | ok v =>
          have hnumber := (hp.number_iff (by simp [htype]) (by simp [htype]) hv).mpr htype
          cases v with
          | number x => rfl
          | boolean | string | nodeSet | fragment | object => cases hnumber
  | boolean =>
      obtain ⟨hnumber, hany, hobject⟩ := dataType_of_boolean hkind
      change p.evaluateAsBool h c = _
      unfold Expr.passes
      split
      · rename_i x hv
        exact absurd ((hp.number_iff hany hobject hv).mp rfl) hnumber
      · rfl
  | either =>
      change (p.evaluate h c >>= _) = _
      unfold Expr.passes
      rw [htruth (isNodeSetExpression_of_either hkind)]
      cases hv : p.evaluate h c with
      | error _ => rfl
      | ok v => cases v <;> rfl

/-- What a test is told of the length of the list: the length, or nothing if the predicate does not ask
for it. -/
def Told (p : Expr) (total : Nat) (l : LastPosition) : Prop :=
  l = .known total ∨ l = .unknown ∧ p.dependencies.contains .last = false

/-- The nodes of `ns` that pass the predicate, each tested at its position in `ns`, are `ms`. -/
def Filters (h : Host) (p : Expr) (c : Context) (ns ms : List Node) : Prop :=
  ∃ l, p.Told ns.length l ∧ p.keep h c l 0 ns = .ok ms

end Expr

/-! ## The scan of a list without errors -/

def ListSize.told (size : ListSize) (total : Nat) : LastPosition :=
  match size with
  | .known total => .known total
  | .unknown => .unknown
  | .ahead => .known total

theorem collect_keepIf_append {test : Except Error Bool} {items : List Item}
    (h : collect (keepIf n test ++ items) = .ok ms) :
    ∃ b rest, test = .ok b ∧ collect items = .ok rest ∧ ms = if b then n :: rest else rest := by
  obtain ⟨as, rest, has, hrest, rfl⟩ := collect_append_eq_ok h
  match test with
  | .ok true =>
      cases has
      exact ⟨true, rest, rfl, hrest, rfl⟩
  | .ok false =>
      cases has
      exact ⟨false, rest, rfl, hrest, rfl⟩
  | .error _ => cases has

theorem filterItems_map_ok (hkind : ∀ x, p.predicateKind ≠ .constant x) (k : Nat) (n : Node)
    (ns : List Node) :
    filterItems E F p c size k false ((n :: ns).map .ok) =
      keepIf n (E.passes F p (c.forItem n (k + 1) (size.told (k + 1 + ns.length)))) ++
        filterItems E F p c size (k + 1) false (ns.map .ok) := by
  rw [List.map_cons, filterItems.eq_def]
  dsimp only
  split
  · exact absurd (by assumption) (hkind _)
  · cases size with
    | known total => rfl
    | unknown => rfl
    | ahead => simp only [collect_map_ok, ListSize.told]

namespace Expr

variable (hp : ∀ c, E.passes F p c = p.passes h c)

include hp

theorem keep_of_collect (hkind : ∀ x, p.predicateKind ≠ .constant x)
    (hms : collect (filterItems E F p c size k false (ns.map .ok)) = .ok ms) :
    p.keep h c (size.told (k + ns.length)) k ns = .ok ms := by
  induction ns generalizing k ms with
  | nil =>
      rw [List.map_nil, filterItems] at hms
      exact hms
  | cons n ns ih =>
      rw [filterItems_map_ok hkind] at hms
      obtain ⟨b, rest, htest, hrest, rfl⟩ := collect_keepIf_append hms
      have hlength : k + (n :: ns).length = k + 1 + ns.length := by
        rw [List.length_cons]
        omega
      rw [hlength]
      exact keep_cons (hp _ ▸ htest) (ih hrest)

omit hp in
theorem keep_eq_nil {x : Float} (hk : 0 < k) (hx : Float.ofNat k ≥ x)
    (hbound : k + ns.length < 2 ^ 53) : (number x).keep h c l k ns = .ok [] := by
  suffices hrest : ∀ i, k ≤ i → i + ns.length < 2 ^ 53 → (number x).keep h c l i ns = .ok [] from
    hrest k (Nat.le_refl k) hbound
  clear hbound
  induction ns with
  | nil => exact fun _ _ _ => rfl
  | cons n ns ih =>
      intro i hi hbound
      rw [List.length_cons] at hbound
      have hbehind : (number x).passes h (c.forItem n (i + 1) l) = .ok false :=
        congrArg Except.ok (Number.beq_ofNat_eq_false (k := i + 1) hk (by omega) (by omega) hx)
      exact keep_cons hbehind (ih (i + 1) (by omega) (by omega))

/-- A scan for a constant position keeps the node that stands there, though it reads no further. -/
theorem keep_of_collect_constant {x : Float} (hkind : p.predicateKind = .constant x)
    (hbound : k + ns.length < 2 ^ 53)
    (hms : collect (filterItems E F p c size k false (ns.map .ok)) = .ok ms) :
    p.keep h c l k ns = .ok ms := by
  obtain rfl := predicateKind_eq_constant hkind
  induction ns generalizing k ms with
  | nil =>
      rw [List.map_nil, filterItems] at hms
      exact hms
  | cons n ns ih =>
      rw [List.length_cons] at hbound
      rw [List.map_cons, filterItems_constant hkind, hp] at hms
      obtain ⟨b, rest, htest, hrest, rfl⟩ := collect_keepIf_append hms
      have hkeep : (number x).keep h c l (k + 1) ns = .ok rest := by
        split at hrest
        · cases hrest
          exact keep_eq_nil (by omega) (by assumption) (by omega)
        · exact ih (by omega) hrest
      exact keep_cons htest hkeep

end Expr

/-- A filter of a list that is read to the end keeps the nodes that pass at their positions. -/
theorem Engine.filters_of_filter (hp : p.Typed h) (hbase : base.items = ns.map .ok)
    (hsize : ∀ t, base.size = .known t → t = ns.length)
    (hbound : ∀ x, p.predicateKind = .constant x → ns.length < 2 ^ 53)
    (hms : (h.evaluator.filter h.forest base p c).nodes = .ok ms) : p.Filters h c ns ms := by
  obtain ⟨size, errors, hitems, hknown, hunknown, -⟩ := h.evaluator.filter_spec h.forest base p c
  rw [Enumeration.nodes, hitems, hbase] at hms
  obtain ⟨ks, rest, hks, hrest, rfl⟩ := collect_append_eq_ok hms
  obtain rfl : rest = [] := by
    cases errors with
    | nil => exact (Except.ok.inj hrest).symm
    | cons e errors => cases hrest
  rw [List.append_nil]
  have htold : p.Told ns.length (size.told ns.length) := by
    cases hs : size with
    | known t => exact .inl (congrArg LastPosition.known (hsize t (hknown t hs)))
    | unknown => exact .inr ⟨rfl, hunknown hs⟩
    | ahead => exact .inl rfl
  refine ⟨_, htold, ?_⟩
  by_cases hkind : ∃ x, p.predicateKind = .constant x
  · obtain ⟨x, hkind⟩ := hkind
    have hlength := hbound x hkind
    exact keep_of_collect_constant hp.passes_eq hkind (by omega) hks
  · have hkeep := keep_of_collect hp.passes_eq (not_exists.mp hkind) hks
    rwa [Nat.zero_add] at hkeep

/-! ## Steps -/

/-- The length of the list is not known before a step is read. -/
theorem Engine.size_step (axis : Axis) (test : NodeTest) (ps : List Expr) (n : Node) :
    (E.step F axis test ps c n).size = .unknown := by
  unfold Engine.step
  have hbase : (axisEnumeration F axis n (some test)).size = .unknown := rfl
  generalize axisEnumeration F axis n (some test) = base at hbase
  induction ps generalizing base with
  | nil => exact hbase
  | cons p ps ih =>
      obtain ⟨-, -, -, -, -, -, -, -, hfilter⟩ := E.filter_spec F base p c
      exact ih _ hfilter

theorem exists_of_collect_flatMap {f : Item → List Item}
    (h : collect ((ns.map Except.ok).flatMap f) = .ok ms) :
    ∃ g : Node → List Node, ms = ns.flatMap g ∧ ∀ n ∈ ns, collect (f (.ok n)) = .ok (g n) := by
  refine ⟨fun n => (collect (f (.ok n))).toOption.getD [], ?_⟩
  induction ns generalizing ms with
  | nil =>
      cases h
      exact ⟨rfl, by simp⟩
  | cons n ns ih =>
      obtain ⟨as, bs, has, hbs, rfl⟩ := collect_append_eq_ok h
      obtain ⟨rfl, hrest⟩ := ih hbs
      have hhead : (collect (f (.ok n))).toOption.getD [] = as := by
        rw [has]
        rfl
      refine ⟨by rw [List.flatMap_cons, hhead], List.forall_mem_cons.mpr ⟨?_, hrest⟩⟩
      exact has.trans (congrArg Except.ok hhead.symm)

namespace Expr

variable {axis : Axis} {test : NodeTest} {ps : List Expr} {start : Expr} {origins : List Node}

theorem drain_eq_ok : e.drain h c = .ok ns ↔
    ∃ en, e.enumerate h c = .ok en ∧ en.items = ns.map .ok := by
  rw [drain, bind_eq_ok]
  exact exists_congr fun en => and_congr_right fun _ => collect_eq_ok

/-- The path of one step lists what the step selects from the context node. -/
theorem drain_step (axis : Axis) (test : NodeTest) (ps : List Expr) (c : Context) (n : Node) :
    (path contextNode axis test ps).drain h (c.withNode n) =
      (h.evaluator.step h.forest axis test ps c n).nodes := by
  have hstart : h.evaluator.enumerate contextNode (c.withNode n) = .ok (.ofOption (some n)) :=
    enumerate_eq (h := h) contextNode (c.withNode n)
  rw [drain, enumerate_eq, Engine.ruleEnumerate, hstart, ok_bind]
  have hstep : h.evaluator.step h.forest axis test ps (c.withNode n) n =
      h.evaluator.step h.forest axis test ps c n :=
    Engine.step_congr (fun _ _ _ _ _ => by rfl) axis test n
  change collect ((h.evaluator.step h.forest axis test ps (c.withNode n) n).items ++ []) = _
  rw [List.append_nil, hstep]
  rfl

/-- A path takes its step from one node of the start after the other. -/
theorem drain_path (horigins : start.drain h c = .ok origins)
    (hms : (path start axis test ps).drain h c = .ok ms) :
    ∃ g : Node → List Node, ms = origins.flatMap g ∧
      ∀ n ∈ origins, (path contextNode axis test ps).drain h (c.withNode n) = .ok (g n) := by
  obtain ⟨en, hen, hitems⟩ := drain_eq_ok.mp horigins
  rw [drain, enumerate_eq (path start axis test ps), Engine.ruleEnumerate,
    show h.evaluator.enumerate start c = .ok en from hen, ok_bind] at hms
  change collect (en.items.flatMap _) = .ok ms at hms
  rw [hitems] at hms
  obtain ⟨g, rfl, hg⟩ := exists_of_collect_flatMap hms
  exact ⟨g, rfl, fun n hn => (drain_step axis test ps c n).trans (hg n hn)⟩

/-- A step that has one predicate more keeps of the nodes those that pass it. -/
theorem filters_of_drain_step (hp : p.Typed h) (hbound : ns.length < 2 ^ 53)
    (hns : (path contextNode axis test ps).drain h (c.withNode n) = .ok ns)
    (hms : (path contextNode axis test (ps ++ [p])).drain h (c.withNode n) = .ok ms) :
    p.Filters h c ns ms := by
  rw [drain_step] at hns hms
  rw [Engine.step, List.foldl_append] at hms
  refine Engine.filters_of_filter hp (collect_eq_ok.mp hns) (fun t ht => ?_) (fun _ _ => hbound) hms
  cases (Engine.size_step axis test ps n).symm.trans ht

end Expr

/-! ## Filter expressions -/

/-- A list without errors, in document order, is one without errors. -/
theorem Enumeration.Truthful.inDocumentOrder (W : F.WellFormed) (hen : en.Truthful F)
    (hitems : en.items = ns.map .ok) {en' : Enumeration} (h : en.inDocumentOrder F = .ok en') :
    en'.items = (F.inOrder ns).map .ok ∧ ∀ t, en'.size = .known t → t = (F.inOrder ns).length := by
  have hlists := hen.lists W
  rw [hitems, leading_map_ok] at hlists
  obtain ⟨hlists', hsorted⟩ := hlists.inDocumentOrder W h
  obtain ⟨ks, hks⟩ : ∃ ks : List Node, en'.items = ks.map .ok := by
    unfold Enumeration.inDocumentOrder at h
    split at h
    · cases h
      exact ⟨ns, hitems⟩
    · obtain ⟨x, -, rfl⟩ := map_eq_ok.mp h
      exact ⟨(x.sort F).nodes, rfl⟩
  have hsame : ks = F.inOrder ns := hlists'.nodes_eq hsorted (collect_eq_ok.mpr hks)
  exact ⟨hsame ▸ hks, fun t ht => hlists'.size hsorted t ht⟩

namespace Expr

/-- A filter whose predicate may look at positions tests the nodes of its base in document order. -/
theorem filters_of_drain_filter (W : h.forest.WellFormed) (hh : h.Truthful) {e : Expr}
    (he : (Policy.truthful h.forest).AdmitsExpr e) (hc : (Policy.truthful h.forest).AdmitsContext c)
    (hp : p.Typed h) (hns : e.drain h c = .ok ns) (hms : (filter e p).drain h c = .ok ms) :
    p.Filters h c (if p.isPositional then h.forest.inOrder ns else ns) ms := by
  obtain ⟨en, hen, hitems⟩ := drain_eq_ok.mp hns
  have htruthful := ((Policy.enumerate_admits (hh.closed W) he hc).of_ok hen).flags.truthful
  rw [drain, enumerate_eq (filter e p), Engine.ruleEnumerate] at hms
  split at hms
  · rename_i hempty
    obtain rfl : e = emptyNodeSet := by
      cases e with
      | literal v =>
          cases v with
          | nodeSet s => cases s <;> first | rfl | cases hempty
          | boolean | number | string | fragment | object => cases hempty
      | _ => cases hempty
    cases hns
    cases hms
    rw [Forest.inOrder_of_ascending Forest.ascending_nil, ite_self]
    exact ⟨.known 0, .inl rfl, rfl⟩
  · rw [show h.evaluator.enumerate e c = .ok en from hen, ok_bind] at hms
    cases hpositional : p.isPositional with
    | true =>
        rw [hpositional, if_pos rfl] at hms
        obtain ⟨filtered, hfiltered, hms⟩ := bind_eq_ok.mp hms
        obtain ⟨en', hen', hfiltered⟩ := bind_eq_ok.mp hfiltered
        cases hfiltered
        obtain ⟨hitems', hsize⟩ := htruthful.inDocumentOrder W hitems hen'
        have hbound : (h.forest.inOrder ns).length < 2 ^ 53 :=
          W.length_lt (Forest.ascending_inOrder _ ns).nodup fun n hn =>
            htruthful.has n (by rw [hitems, leading_map_ok]; exact Forest.mem_of_mem_inOrder hn)
        exact Engine.filters_of_filter hp hitems' hsize (fun _ _ => hbound) hms
    | false =>
        rw [hpositional] at hms
        have hsize (t : Nat) (ht : en.size = .known t) : t = ns.length := by
          obtain ⟨ks, hks, rfl⟩ := htruthful.size t ht
          rw [hitems] at hks
          simpa using (congrArg List.length hks).symm
        exact Engine.filters_of_filter hp hitems hsize
          (fun x hx => absurd hx (not_constant_of_not_positional hpositional x)) hms

end Expr

end XPath
