import XPath.Proofs.Expr.Impossible
import XPath.Proofs.Expr.Rewriting
import XPath.Proofs.Evaluation.Operators

/-!
# Simplification keeps the meaning

What a rule of simplification makes of an expression has the meanings of the expression
(`Expr.Means.rewrites`). By induction a simplified expression has them (`Expr.Means.simplify`).
-/

namespace XPath

variable {F : Forest} {Φ : Calls F} {Γ : Typing} {inner : Bool} {σ : Context} {A B D : Meaning}
  {As Bs : List Meaning} {v : Value} {w : Outcome} {ns : List Node}
  {e e' lhs rhs start base predicate : Expr} {op : BinaryOperator} {axis : Axis} {test : NodeTest}
  {predicates : List Expr}

/-! ## Constant predicates -/

namespace Meaning

theorem select_of_holds (hnumber : w.dataType ≠ .number) (hw : w.holds = true) (σ : Context)
    (u : Outcome) : select (fun _ => w) σ u = u := by
  have hselects (k : Nat) : w.selects k = true := by rw [Outcome.selects_of_dataType hnumber, hw]
  cases u with
  | nodes ns =>
      unfold select keep
      simp only [hselects]
      rw [List.filter_true, List.zipIdx_map_fst]
  | boolean | number | string | object =>
      unfold select
      simp only [hselects, if_true]

theorem select_of_not_holds (hnumber : w.dataType ≠ .number) (hw : w.holds = false) (σ : Context)
    (u : Outcome) : select (fun _ => w) σ u = .nodes [] := by
  have hselects (k : Nat) : w.selects k = false := by rw [Outcome.selects_of_dataType hnumber, hw]
  cases u with
  | nodes ns =>
      unfold select keep
      simp only [hselects]
      rw [List.filter_false, List.map_nil]
  | boolean | number | string | object =>
      unfold select
      simp [hselects]

theorem selects_nodes (Bs : List Meaning) (σ : Context) (ns : List Node) :
    Bs.foldl (fun w B => B.select σ w) (.nodes ns) =
      .nodes (Bs.foldl (fun ns B => B.keep σ ns) ns) := by
  induction Bs generalizing ns with
  | nil => rfl
  | cons B Bs ih => exact ih _

theorem select_nil (Bs : List Meaning) (σ : Context) :
    .nodes (Bs.foldl (fun ns B => B.keep σ ns) []) = Outcome.nodes [] := by
  induction Bs with
  | nil => rfl
  | cons B Bs ih => exact ih

theorem path_congr {Bs Bs' : List Meaning} (A : Meaning) (axis : Axis) (test : NodeTest)
    (h : ∀ σ w, Bs.foldl (fun w B => B.select σ w) w = Bs'.foldl (fun w B => B.select σ w) w) :
    path F A axis test Bs = path F A axis test Bs' := by
  have hstep : stepNodes F axis test Bs = stepNodes F axis test Bs' := by
    funext σ n
    have hnodes := h σ (.nodes ((F.onAxis axis n).filter (test.accepts F)))
    rw [selects_nodes, selects_nodes] at hnodes
    exact Outcome.nodes.inj hnodes
  funext σ
  unfold path
  simp only [hstep, h]

/-- Templates whose first parts make the same text and that go on alike. -/
theorem template_cons {As As' : List Meaning} (htext : ∀ σ, (A σ).text F = (B σ).text F)
    (h : template F As = template F As') : template F (A :: As) = template F (B :: As') := by
  funext σ
  have hσ := Outcome.string.inj (congrFun h σ)
  simp only [template, List.map_cons, String.join_cons, hσ, htext]

end Meaning

/-! ## Constants -/

/-- A value that is neither a node-set nor a fragment denotes itself. -/
theorem Value.Means.denotes (h : v.Means F w) (htype : w.dataType ≠ .nodeSet)
    (hv : w.dataType = v.dataType) : v.Denotes F w where
  means := h
  type := hv
  ascending ns hns := by
    rw [hns] at htype
    exact absurd rfl htype

theorem Value.Denotes.dataType_ne_number (h : v.Denotes F w) (hv : ∀ x, v ≠ .number x) :
    w.dataType ≠ .number := by
  rw [h.type]
  cases v with
  | number x => exact absurd rfl (hv x)
  | boolean | string | nodeSet | fragment | object => simp [Value.dataType]

namespace Expr

theorem means_literal (h : v.Denotes F w) : (literal v).Means F Φ Γ inner fun _ => w := by
  rw [Means]
  exact ⟨w, h, rfl⟩

theorem means_number (x : Float) : (number x).Means F Φ Γ inner fun _ => .number x :=
  means_literal ⟨rfl, rfl, by rintro ns ⟨⟩⟩

theorem means_string (s : String) : (string s).Means F Φ Γ inner fun _ => .string s :=
  means_literal ⟨rfl, rfl, by rintro ns ⟨⟩⟩

theorem means_boolean (b : Bool) : (boolean b).Means F Φ Γ inner fun _ => .boolean b :=
  means_literal ⟨rfl, rfl, by rintro ns ⟨⟩⟩

theorem means_emptyNodeSet (W : F.WellFormed) : emptyNodeSet.Means F Φ Γ inner fun _ => .nodes [] := by
  refine means_literal ⟨.empty W, rfl, ?_⟩
  rintro ns ⟨⟩
  exact Forest.ascending_nil

theorem Means.of_isEmptyNodeSet (h : e.Means F Φ Γ inner D) (he : e.isEmptyNodeSet = true) :
    D = fun _ => .nodes [] := by
  unfold isEmptyNodeSet at he
  split at he
  · rw [Means] at h
    obtain ⟨w, hw, rfl⟩ := h
    rw [NodeSet.Means.eq_of_empty hw.means]
  · cases he

theorem Means.of_literal (h : (literal v).Means F Φ Γ inner D) : ∃ w, v.Denotes F w ∧ D = fun _ => w := by
  rwa [Means] at h

/-! ## Rules for operators -/

/-- An operand that a comparison with one node can hold: a string or a number. -/
theorem Means.of_isComparable (h : e.Means F Φ Γ inner D) (hv : e.isComparable = some v) :
    (v.dataType = .string ∨ v.dataType = .number) ∧ D = fun _ => v.outcome F := by
  unfold isComparable at hv
  split at hv
  · cases hv
    obtain ⟨w, hw, rfl⟩ := h.of_literal
    obtain rfl := hw.means
    exact ⟨Or.inl rfl, rfl⟩
  · cases hv
    obtain ⟨w, hw, rfl⟩ := h.of_literal
    obtain rfl := hw.means
    exact ⟨Or.inr rfl, rfl⟩
  · cases hv

/-- A comparison of a string or a number with nodes, seen from the nodes. -/
theorem compare_inverse (hv : v.dataType = .string ∨ v.dataType = .number) (op : BinaryOperator)
    (ns : List Node) :
    (v.outcome F).compare F op (.nodes ns) = (Outcome.nodes ns).compare F op.inverse (v.outcome F) := by
  cases v with
  | string s | number x =>
      cases op <;> simp [Value.outcome, Outcome.compare, Outcome.value, Value.compare,
        Value.equals, BinaryOperator.inverse]
  | boolean | nodeSet | fragment | object => simp [Value.dataType] at hv

theorem binary_of_isComparison (hop : op.isComparison = true) (a b : Outcome) :
    a.binary F op b = .boolean (a.compare F op b) := by
  cases op <;> first | rfl | cases hop

theorem sound_free (F : Forest) : CallBinding.free.Sound F where
  node n h := by cases h
  controller k h := by cases h

theorem call_boolean (B : Meaning) (σ : Context) :
    Meaning.call F .boolean [B] .free σ = .boolean (B σ).holds := by
  have hrun : (Meaning.frame F .boolean [B σ] .free σ).run = .ok (.boolean (B σ).holds) :=
    bind_eq_ok.mpr ⟨(B σ).holds, Engine.truth_constants (B σ), rfl⟩
  rw [Meaning.call, List.map_cons, List.map_nil, hrun]
  rfl

theorem means_truth (hB : rhs.Means F Φ Γ inner B) :
    (call .boolean [rhs] .free).Means F Φ Γ inner fun σ => .boolean (B σ).holds := by
  rw [Means]
  refine ⟨sound_free F, [B], ?_, funext fun σ => (call_boolean B σ).symm⟩
  rw [MeansList]
  exact ⟨B, [], hB, by rw [MeansList], rfl⟩

theorem means_folded (W : F.WellFormed) {a b : Value}
    (h : (binary op (literal a) (literal b)).Means F Φ Γ inner D)
    (hv : (Engine.constants F).binary F op (literal a) (literal b) .standalone = .ok v) :
    (literal v).Means F Φ Γ inner D := by
  rw [Means] at h
  obtain ⟨A, B, hA, hB, hcompares, rfl⟩ := h
  obtain ⟨hmeans, htype⟩ := (Engine.sound_constants W).binary W hA hB hcompares (.refl _)
    (.standalone F Γ) hv
  obtain ⟨a, -, rfl⟩ := hA.of_literal
  obtain ⟨b, -, rfl⟩ := hB.of_literal
  refine means_literal (hmeans.denotes ?_ htype)
  cases op <;> simp [Outcome.binary, Outcome.dataType]

/-- With a constant on the left its truth value decides, or the right side does. -/
theorem Means.of_known_left (W : F.WellFormed) {known : Bool}
    (h : (binary op (literal v) rhs).Means F Φ Γ inner D) (hv : v.toBool F = .ok known) :
    ∃ (w : Outcome) (B : Meaning), w.holds = known ∧ rhs.Means F Φ Γ inner B ∧
      D = fun σ => w.binary F op (B σ) := by
  rw [Means] at h
  obtain ⟨A, B, hA, hB, -, rfl⟩ := h
  obtain ⟨w, hw, rfl⟩ := hA.of_literal
  exact ⟨w, B, (hw.means.toBool W hv).symm, hB, rfl⟩

theorem means_leftNode (h : (binary op lhs rhs).Means F Φ Γ inner D) (hop : op.isComparison = true)
    (hnode : lhs.isSingleton = true) (hv : rhs.isComparable = some v) :
    (nodeComparison lhs op v).Means F Φ Γ inner D := by
  rw [Means] at h
  obtain ⟨A, B, hA, hB, -, rfl⟩ := h
  obtain ⟨htype, rfl⟩ := hB.of_isComparable hv
  rw [Means]
  exact ⟨hnode, htype, A, hA, funext fun σ => binary_of_isComparison hop _ _⟩

theorem means_rightNode (h : (binary op lhs rhs).Means F Φ Γ inner D)
    (hop : op.isComparison = true) (hnode : rhs.isSingleton = true)
    (hv : lhs.isComparable = some v) : (nodeComparison rhs op.inverse v).Means F Φ Γ inner D := by
  rw [Means] at h
  obtain ⟨A, B, hA, hB, -, rfl⟩ := h
  obtain ⟨htype, rfl⟩ := hA.of_isComparable hv
  rw [Means]
  refine ⟨hnode, htype, B, hB, funext fun σ => ?_⟩
  obtain ⟨n, hn⟩ := hB.of_isSingleton hnode (σ := σ)
  rw [binary_of_isComparison hop, hn, compare_inverse htype]

theorem means_negated (W : F.WellFormed) {x : Float}
    (h : (negate (literal v)).Means F Φ Γ inner D) (hx : v.toNumber F = .ok x) :
    (number (-x)).Means F Φ Γ inner D := by
  rw [Means] at h
  obtain ⟨A, hA, rfl⟩ := h
  obtain ⟨w, hw, rfl⟩ := hA.of_literal
  rw [hw.means.toNumber W hx]
  exact means_number _

theorem means_compared (W : F.WellFormed) {u : Value} {b : Bool}
    (h : (nodeComparison (literal u) op v).Means F Φ Γ inner D)
    (hb : (Engine.constants F).compareNode F (literal u) op v .standalone = .ok b) :
    (boolean b).Means F Φ Γ inner D := by
  rw [Means] at h
  obtain ⟨hnode, hv, A, hA, rfl⟩ := h
  have hb := (Engine.sound_constants W).compareNode hA hnode hv (.refl _) (.standalone F Γ) hb
  obtain ⟨a, -, rfl⟩ := hA.of_literal
  rw [hb]
  exact means_boolean _

/-! ## Rules for what selects nodes -/

theorem filter_anyNode (hkind : test.kind = .node) (hname : test.name = .any) (ns : List Node) :
    ns.filter (test.accepts F) = ns := by
  rw [List.filter_eq_self]
  intro n _
  simp [NodeTest.accepts, hkind, hname, NodeKind.accepts, NameTest.accepts]

theorem path_self (hkind : test.kind = .node) (hname : test.name = .any)
    (hA : ∀ σ, (A σ).InOrder F) : Meaning.path F A .selfAxis test [] = A := by
  funext σ
  unfold Meaning.path
  split
  · rename_i ns hns
    have hstep : Meaning.stepNodes F .selfAxis test [] σ = fun n => [n] :=
      funext fun n => filter_anyNode hkind hname [n]
    rw [hstep, List.flatMap_singleton', Forest.inOrder_of_ascending (hA σ ns hns), hns]
  · simp [hkind]

theorem path_oneNode {find : Node → Option Node}
    (h : ∀ n, (F.onAxis axis n).filter (test.accepts F) = (find n).toList) :
    Meaning.path F (.oneNode none some) axis test [] = .oneNode none find := by
  funext σ
  unfold Meaning.path Meaning.oneNode Meaning.stepNodes
  cases σ.contextNode? with
  | none => simp [Forest.inOrder_nil]
  | some n =>
      simp only [Option.none_or, Option.bind_some, Option.toList_some, List.flatMap_cons,
        List.flatMap_nil, List.append_nil, List.foldl_nil, h,
        Forest.inOrder_of_ascending (Forest.ascending_toList F _)]

theorem filter_attributes (W : F.WellFormed) (name : ExpandedName) (n : Node) :
    (F.attributes n).filter (NodeTest.accepts ⟨.attributeNode, .named name⟩ F) =
      (F.attributeNamed? name n).toList := by
  have htest : ∀ a ∈ F.attributes n, NodeTest.accepts ⟨.attributeNode, .named name⟩ F a =
      (F.name? a).any (·.expanded == name) := by
    intro a ha
    have htype := ((W.mem_attributes n a).mp ha).2
    simp [NodeTest.accepts, NodeKind.accepts, NameTest.accepts, htype]
  rw [List.filter_congr htest]
  unfold Forest.attributeNamed?
  have hname {m : Node} (hm : (F.name? m).any (·.expanded == name) = true) :
      (F.name? m).map QName.expanded = some name := by
    cases hq : F.name? m with
    | none => simp [hq] at hm
    | some q => simpa [hq] using hm
  have hnames := W.attribute_names n
  generalize F.attributes n = attributes at hnames
  induction attributes with
  | nil => rfl
  | cons a attributes ih =>
      obtain ⟨ha, hrest⟩ := List.pairwise_cons.mp hnames
      rw [List.filter_cons, List.find?_cons]
      cases hmatch : (F.name? a).any (·.expanded == name) with
      | false => exact ih hrest
      | true =>
          have hnone : attributes.filter (fun b => (F.name? b).any (·.expanded == name)) = [] := by
            rw [List.filter_eq_nil_iff]
            intro b hb hmatch'
            exact ha b hb ((hname hmatch).trans (hname hmatch').symm)
          simp [hnone]

theorem means_selfStep (h : (path start .selfAxis test []).Means F Φ Γ inner D)
    (hkind : test.kind = .node) : start.Means F Φ Γ inner D := by
  rw [Means] at h
  obtain ⟨hfits, A, Bs, hA, hBs, rfl⟩ := h
  rw [MeansList] at hBs
  rw [hBs, path_self hkind (hfits.2.2 hkind) fun σ => hA.inOrder]
  exact hA

theorem means_parentStep {name : NameTest}
    (h : (path contextNode .parent ⟨.node, name⟩ []).Means F Φ Γ inner D) :
    parentNode.Means F Φ Γ inner D := by
  rw [Means] at h
  obtain ⟨hfits, A, Bs, hA, hBs, rfl⟩ := h
  rw [MeansList] at hBs
  rw [Means] at hA
  rw [hBs, hA, Means]
  exact path_oneNode fun n => filter_anyNode rfl (hfits.2.2 rfl) _

theorem means_attributeStep (W : F.WellFormed) {name : ExpandedName}
    (h : (path contextNode .attributeAxis ⟨.attributeNode, .named name⟩ []).Means F Φ Γ inner D) :
    (attributeNamed name name.display none).Means F Φ Γ inner D := by
  rw [Means] at h
  obtain ⟨-, A, Bs, hA, hBs, rfl⟩ := h
  rw [MeansList] at hBs
  rw [Means] at hA
  rw [hBs, hA, Means]
  exact ⟨by rintro n ⟨⟩, path_oneNode fun n => filter_attributes W name n⟩

/-- Nothing on the axis passes an impossible test that is meant for what the axis leads to. -/
theorem filter_impossible (W : F.WellFormed) (hfits : test.Fits axis)
    (h : isImpossible axis test.kind = true) (n : Node) :
    test.kind ≠ .node ∧ (F.onAxis axis n).filter (test.accepts F) = [] := by
  have hnode : test.kind ≠ .node := by
    intro hkind
    simp [isImpossible, hkind] at h
  refine ⟨hnode, ?_⟩
  rw [filter_of_isImpossible W.linked h, if_neg]
  rw [Bool.and_eq_true]
  rintro ⟨horigin, haccepts⟩
  have haxis : axis ≠ .attributeAxis ∧ axis ≠ .namespaceAxis := by
    constructor <;> rintro rfl <;> cases horigin
  have hkind : test.kind = .never := by
    have hattribute := mt hfits.1 haxis.1
    have hnamespace := mt hfits.2.1 haxis.2
    simpa [isImpossible, haxis, hattribute, hnamespace] using h
  simp [NodeTest.accepts, hkind, NodeKind.accepts] at haccepts

theorem path_of_stepNodes (hstep : ∀ σ n, Meaning.stepNodes F axis test Bs σ n = [])
    (hscalar : ∀ σ w, axis = .selfAxis ∧ test.kind = .node →
      Bs.foldl (fun w B => B.select σ w) w = .nodes []) :
    Meaning.path F A axis test Bs = fun _ => .nodes [] := by
  funext σ
  unfold Meaning.path
  split
  · rename_i ns _
    have hnil : ns.flatMap (Meaning.stepNodes F axis test Bs σ) = [] :=
      List.flatMap_eq_nil_iff.mpr fun n _ => hstep σ n
    rw [hnil, Forest.inOrder_nil]
  · split
    · exact hscalar σ _ (by assumption)
    · rfl

theorem path_impossible (W : F.WellFormed) (hfits : test.Fits axis)
    (h : isImpossible axis test.kind = true) :
    Meaning.path F A axis test Bs = fun _ => .nodes [] := by
  refine path_of_stepNodes (fun σ n => ?_) fun σ w hself => ?_
  · unfold Meaning.stepNodes
    rw [(filter_impossible W hfits h n).2]
    exact Outcome.nodes.inj (Meaning.select_nil Bs σ)
  · exact absurd hself.2 (filter_impossible W hfits h default).1

theorem path_never (h : ∀ σ w, Bs.foldl (fun w B => B.select σ w) w = .nodes []) :
    Meaning.path F A axis test Bs = fun _ => .nodes [] := by
  refine path_of_stepNodes (fun σ n => ?_) fun σ w _ => h σ w
  have hnodes := h σ (.nodes ((F.onAxis axis n).filter (test.accepts F)))
  rw [Meaning.selects_nodes] at hnodes
  exact Outcome.nodes.inj hnodes

theorem path_nil (axis : Axis) (test : NodeTest) (Bs : List Meaning) :
    Meaning.path F (fun _ => .nodes []) axis test Bs = fun _ => .nodes [] := by
  funext σ
  simp [Meaning.path, Forest.inOrder_nil]

/-- A constant that is no position leaves all or nothing. -/
theorem Means.of_constant_filter (W : F.WellFormed) {known : Bool}
    (h : (filter base (literal v)).Means F Φ Γ inner D) (hnumber : ∀ x, v ≠ .number x)
    (hv : v.toBool F = .ok known) :
    ∃ A, base.Means F Φ Γ inner A ∧ D = if known then A else fun _ => .nodes [] := by
  rw [Means] at h
  obtain ⟨A, B, hA, hB, rfl⟩ := h
  obtain ⟨w, hw, rfl⟩ := hB.of_literal
  obtain rfl := hw.means.toBool W hv
  have hne := hw.dataType_ne_number hnumber
  refine ⟨A, hA, funext fun σ => ?_⟩
  cases hholds : w.holds with
  | true => exact Meaning.select_of_holds hne hholds σ (A σ)
  | false => exact Meaning.select_of_not_holds hne hholds σ (A σ)

theorem combine_nil_left (op : SetOperator) {b : Outcome} (hb : b.InOrder F) :
    Outcome.combine F op (.nodes []) b = if op = .union then b else .nodes [] := by
  cases b with
  | nodes bs =>
      cases op with
      | union =>
          rw [Outcome.combine, Forest.combine, List.nil_append,
            Forest.inOrder_of_ascending (hb bs rfl)]
          rfl
      | intersect | except => rfl
  | boolean | number | string | object => rfl

theorem combine_nil_right (op : SetOperator) {a : Outcome} (ha : a.InOrder F) :
    Outcome.combine F op a (.nodes []) = if op = .intersect then .nodes [] else a := by
  cases a with
  | nodes as =>
      cases op with
      | union =>
          rw [Outcome.combine, Forest.combine, List.append_nil,
            Forest.inOrder_of_ascending (ha as rfl)]
          rfl
      | intersect | except => simp [Outcome.combine, Forest.combine]
  | boolean | number | string | object => rfl

theorem denotes_combine (W : F.WellFormed) {op : SetOperator} {a b : NodeSet} {u w : Outcome}
    (ha : (Value.nodeSet a).Denotes F u) (hb : (Value.nodeSet b).Denotes F w) :
    (Value.nodeSet (.combine F op a b)).Denotes F (.combine F op u w) := by
  have hnodes {s : NodeSet} {w : Outcome} (h : (Value.nodeSet s).Denotes F w) :
      ∃ ns, w = .nodes ns := by
    cases w with
    | nodes ns => exact ⟨ns, rfl⟩
    | boolean | number | string | object => cases h.type
  obtain ⟨as, rfl⟩ := hnodes ha
  obtain ⟨bs, rfl⟩ := hnodes hb
  refine ⟨fun en hen => ⟨_, rfl, ?_⟩, rfl, ?_⟩
  · obtain ⟨left, hleft, hen⟩ := bind_eq_ok.mp hen
    obtain ⟨right, hright, hen⟩ := bind_eq_ok.mp hen
    obtain ⟨as', has, hl, -⟩ := NodeSet.Means.enumerate W ha.means hleft
    obtain ⟨bs', hbs, hr, -⟩ := NodeSet.Means.enumerate W hb.means hright
    cases has
    cases hbs
    exact hl.merge W hr hen
  · rintro ns ⟨rfl⟩
    exact Forest.ascending_combine (ha.ascending as rfl) bs

theorem means_left {op : SetOperator} (h : (setOperation op lhs rhs).Means F Φ Γ inner D)
    (hop : op ≠ .intersect) (hrhs : rhs.isEmptyNodeSet = true) : lhs.Means F Φ Γ inner D := by
  rw [Means] at h
  obtain ⟨A, B, hA, hB, rfl⟩ := h
  have heq : (fun σ => Outcome.combine F op (A σ) (B σ)) = A := by
    funext σ
    rw [hB.of_isEmptyNodeSet hrhs, combine_nil_right op hA.inOrder, if_neg hop]
  rwa [heq]

theorem means_right (h : (setOperation .union lhs rhs).Means F Φ Γ inner D)
    (hlhs : lhs.isEmptyNodeSet = true) : rhs.Means F Φ Γ inner D := by
  rw [Means] at h
  obtain ⟨A, B, hA, hB, rfl⟩ := h
  have heq : (fun σ => Outcome.combine F .union (A σ) (B σ)) = B := by
    funext σ
    rw [hA.of_isEmptyNodeSet hlhs, combine_nil_left .union hB.inOrder, if_pos rfl]
  rwa [heq]

theorem means_nothing (W : F.WellFormed) {op : SetOperator}
    (h : (setOperation op lhs rhs).Means F Φ Γ inner D)
    (hempty : op ≠ .union ∧ lhs.isEmptyNodeSet = true ∨
      op = .intersect ∧ rhs.isEmptyNodeSet = true) : emptyNodeSet.Means F Φ Γ inner D := by
  rw [Means] at h
  obtain ⟨A, B, hA, hB, rfl⟩ := h
  have heq : (fun σ => Outcome.combine F op (A σ) (B σ)) = fun _ => .nodes [] := by
    funext σ
    obtain ⟨hop, hlhs⟩ | ⟨hop, hrhs⟩ := hempty
    · rw [hA.of_isEmptyNodeSet hlhs, combine_nil_left op hB.inOrder, if_neg hop]
    · rw [hB.of_isEmptyNodeSet hrhs, combine_nil_right op hA.inOrder, if_pos hop]
  rw [heq]
  exact means_emptyNodeSet W

theorem means_combined (W : F.WellFormed) {op : SetOperator} {a b : NodeSet}
    (h : (setOperation op (literal (.nodeSet a)) (literal (.nodeSet b))).Means F Φ Γ inner D) :
    (literal (.nodeSet (.combine F op a b))).Means F Φ Γ inner D := by
  rw [Means] at h
  obtain ⟨A, B, hA, hB, rfl⟩ := h
  obtain ⟨u, hu, rfl⟩ := hA.of_literal
  obtain ⟨w, hw, rfl⟩ := hB.of_literal
  exact means_literal (denotes_combine W hu hw)

/-! ## Rules for calls and templates -/

theorem dependencies_literals {args : List Expr} (h : args.all isLiteral = true) :
    dependenciesOfList args = .empty := by
  induction args with
  | nil => rfl
  | cons e args ih =>
      rw [List.all_cons, Bool.and_eq_true] at h
      cases e with
      | literal v =>
          rw [dependenciesOfList, dependencies, ih h.2]
          rfl
      | _ => cases h.1

/-- A call that reads nothing of the context comes to the same in every context. -/
theorem means_evaluated (W : F.WellFormed) {function : Builtin} {args : List Expr}
    {binding : CallBinding} (h : (call function args binding).Means F Φ Γ inner D)
    (hown : (intrinsicDependencies function args.length binding).isEmpty = true)
    (hargs : args.all isLiteral = true)
    (hv : CallFrame.run ⟨.constants F, F, function, args, binding, .standalone⟩ = .ok v) :
    (literal v).Means F Φ Γ inner D := by
  have hdepends : (call function args binding).dependencies.intersects .all = false := by
    rw [dependencies, dependencies_literals hargs, Bool.eq_false_iff, ne_eq,
      Dependencies.intersects_iff]
    rintro ⟨i, hi, -⟩
    simp [Dependencies.isEmpty_iff.mp hown] at hi
  have hsame : D = fun _ => D .standalone := by
    rw [← h.rebind_eq (τ := .standalone) W hdepends]
    funext σ
    rw [Meaning.rebind, Context.rebind_all]
    rfl
  rw [Means] at h
  obtain ⟨hbinding, As, hAs, rfl⟩ := h
  rw [hsame]
  exact means_literal ((Engine.sound_constants W).call W hAs hbinding (.refl _)
    (.standalone F Γ) hv)

theorem means_joinTexts {parts : List TemplatePart} {As : List Meaning}
    (hAs : MeansParts F Φ Γ inner parts As) : ∃ As', MeansParts F Φ Γ inner (joinTexts parts) As' ∧
      Meaning.template F As' = Meaning.template F As := by
  induction parts generalizing As with
  | nil => exact ⟨As, hAs, rfl⟩
  | cons p parts ih =>
      rw [MeansParts] at hAs
      obtain ⟨D, As, hD, hAs, rfl⟩ := hAs
      obtain ⟨As', hAs', heq⟩ := ih hAs
      have hcons := Meaning.template_cons (A := D) (fun σ => rfl) heq
      cases p with
      | expr e =>
          refine ⟨_, ?_, hcons⟩
          change MeansParts F Φ Γ inner (.expr e :: joinTexts parts) _
          rw [MeansParts]
          exact ⟨D, As', hD, hAs', rfl⟩
      | text a =>
          rw [joinTexts]
          split
          · rename_i b others hjoin
            rw [hjoin, MeansParts] at hAs'
            obtain ⟨E, As', hE, hAs', rfl⟩ := hAs'
            rw [MeansPart] at hD hE
            refine ⟨(fun _ => .string (a ++ b)) :: As', ?_, ?_⟩
            · rw [MeansParts]
              exact ⟨_, As', by rw [MeansPart], hAs', rfl⟩
            · rw [← hcons, hD, hE]
              funext σ
              simp only [Meaning.template, List.map_cons, String.join_cons, Outcome.text,
                String.append_assoc]
          · refine ⟨_, ?_, hcons⟩
            rw [MeansParts]
            exact ⟨D, As', hD, hAs', rfl⟩

theorem means_text {parts : List TemplatePart} {text : String}
    (h : (template parts).Means F Φ Γ inner D)
    (hjoin : joinTexts parts = [] ∧ text = "" ∨ joinTexts parts = [.text text]) :
    (string text).Means F Φ Γ inner D := by
  rw [Means] at h
  obtain ⟨As, hAs, rfl⟩ := h
  obtain ⟨As', hAs', heq⟩ := means_joinTexts hAs
  rw [← heq]
  obtain ⟨hjoin, rfl⟩ | hjoin := hjoin
  · rw [hjoin, MeansParts] at hAs'
    rw [hAs']
    exact means_string ""
  · rw [hjoin, MeansParts] at hAs'
    obtain ⟨A, As', hA, hAs', rfl⟩ := hAs'
    rw [MeansParts] at hAs'
    rw [MeansPart] at hA
    rw [hAs', hA]
    have htext : Meaning.template F [fun _ => .string text] = fun _ => .string text := by
      funext σ
      simp [Meaning.template, Outcome.text]
    rw [htext]
    exact means_string text

theorem means_joined {parts : List TemplatePart} (h : (template parts).Means F Φ Γ inner D) :
    (template (joinTexts parts)).Means F Φ Γ inner D := by
  rw [Means] at h ⊢
  obtain ⟨As, hAs, rfl⟩ := h
  obtain ⟨As', hAs', heq⟩ := means_joinTexts hAs
  exact ⟨As', hAs', heq.symm⟩

/-! ## Simplification -/

theorem Means.rewrites (W : F.WellFormed) (h : e.Means F Φ Γ inner D) (hr : Rewrites F e e') :
    e'.Means F Φ Γ inner D := by
  cases hr with
  | atRest => exact h
  | constant name display v =>
      rw [Means] at h
      obtain ⟨w, hw, rfl⟩ := h
      exact means_literal hw
  | folded hv => exact means_folded W h hv
  | andFalse ha =>
      obtain ⟨w, B, hw, -, rfl⟩ := h.of_known_left W ha
      simpa [Outcome.binary, hw] using means_boolean false
  | orTrue ha =>
      obtain ⟨w, B, hw, -, rfl⟩ := h.of_known_left W ha
      simpa [Outcome.binary, hw] using means_boolean true
  | andTrue ha | orFalse ha =>
      obtain ⟨w, B, hw, hB, rfl⟩ := h.of_known_left W ha
      simpa [Outcome.binary, hw] using means_truth hB
  | leftNode hop hnode hv => exact means_leftNode h hop hnode hv
  | rightNode hop hnode hv => exact means_rightNode h hop hnode hv
  | negated hx => exact means_negated W h hx
  | compared hb => exact means_compared W h hb
  | selfStep hkind => exact means_selfStep h hkind
  | parentStep => exact means_parentStep h
  | attributeStep => exact means_attributeStep W h
  | holds hnumber hv =>
      obtain ⟨A, hA, rfl⟩ := h.of_constant_filter W hnumber hv
      exact hA
  | fails hnumber hv =>
      obtain ⟨A, -, rfl⟩ := h.of_constant_filter W hnumber hv
      exact means_emptyNodeSet W
  | left hop hrhs => exact means_left h hop hrhs
  | right hlhs => exact means_right h hlhs
  | nothing hempty => exact means_nothing W h hempty
  | combined => exact means_combined W h
  | callTrue | callFalse =>
      rw [Means] at h
      obtain ⟨-, As, -, rfl⟩ := h
      exact means_boolean _
  | evaluated hown hargs hv => exact means_evaluated W h hown hargs hv
  | text hjoin => exact means_text h hjoin
  | joined => exact means_joined h

theorem isLazy_of_rewrites (hr : Rewrites F e e') (hlazy : e.isLazy = false) :
    e'.isLazy = false := by
  cases hr with
  | atRest => exact hlazy
  | selfStep | parentStep | attributeStep | holds | fails | left | right | nothing | combined =>
      cases hlazy
  | _ => rfl

theorem isLazy_of_simplify (he : e.simplify F = .ok e') (hlazy : e.isLazy = false) :
    e'.isLazy = false := by
  cases e with
  | path | filter | setOperation | sorted => cases hlazy
  | literal | contextNode | parentNode | root | attributeNamed | failure =>
      rw [simplify] at he
      cases he
      rfl
  | reference => exact isLazy_of_rewrites (simplify_reference he) rfl
  | binary =>
      obtain ⟨lhs, rhs, -, -, hr⟩ := simplify_binary he
      exact isLazy_of_rewrites hr rfl
  | negate =>
      obtain ⟨operand, -, hr⟩ := simplify_negate he
      exact isLazy_of_rewrites hr rfl
  | nodeComparison =>
      obtain ⟨node, -, hr⟩ := simplify_nodeComparison he
      exact isLazy_of_rewrites hr rfl
  | call =>
      obtain ⟨args, -, hr⟩ := simplify_call he
      exact isLazy_of_rewrites hr rfl
  | extension =>
      obtain ⟨args, -, rfl⟩ := simplify_extension he
      rfl
  | template =>
      obtain ⟨parts, -, hr⟩ := simplify_template he
      exact isLazy_of_rewrites hr rfl

theorem lazy_of_simplify (he : e.simplify F = .ok e') (hlazy : e'.isLazy = true) :
    e.isLazy = true := by
  by_contra hnot
  rw [isLazy_of_simplify he (Bool.eq_false_iff.mpr hnot)] at hlazy
  cases hlazy

/-- What is listed only on demand still comes to nodes if no part has become lazy. -/
theorem lists_of_lazy {es es' : List Expr}
    (hlazy : List.Forall₂ (fun e' e => e'.isLazy = true → e.isLazy = true) es' es)
    (h : List.Forall₂ (Lists F Γ) es As) : List.Forall₂ (Lists F Γ) es' As := by
  induction hlazy generalizing As with
  | nil => exact h
  | cons hlazy _ ih =>
      cases h with
      | cons hlist h => exact .cons (fun he => hlist (hlazy he)) (ih h)

theorem lazy_of_simplifyList {es es' : List Expr} (he : simplifyList F es = .ok es') :
    List.Forall₂ (fun e' e => e'.isLazy = true → e.isLazy = true) es' es := by
  induction es generalizing es' with
  | nil =>
      rw [simplifyList] at he
      cases he
      exact .nil
  | cons e es ih =>
      obtain ⟨e', es', he', hes', rfl⟩ := simplifyList_cons he
      exact .cons (lazy_of_simplify he') (ih hes')

theorem simplify_of_isSingleton (h : e.isSingleton = true) : e.simplify F = .ok e := by
  unfold isSingleton at h
  split at h <;> first | rw [simplify] | cases h

/-- The predicates that stay filter like all of them; if none are given, nothing passes. -/
def Keeps (F : Forest) (Φ : Calls F) (Γ : Typing) (Bs : List Meaning) : Option (List Expr) → Prop
  | some es => ∃ Bs', MeansList F Φ Γ true es Bs' ∧
      ∀ σ w, Bs'.foldl (fun w B => B.select σ w) w = Bs.foldl (fun w B => B.select σ w) w
  | none => ∀ σ w, Bs.foldl (fun w B => B.select σ w) w = .nodes []

theorem Keeps.cons {kept : Option (List Expr)} (h : Keeps F Φ Γ Bs kept)
    (he : e.Means F Φ Γ true B) :
    Keeps F Φ Γ (B :: Bs) (kept.map (e :: ·)) := by
  cases kept with
  | none => exact fun σ w => h σ _
  | some es =>
      obtain ⟨Bs', hBs', heq⟩ := h
      refine ⟨B :: Bs', ?_, fun σ w => heq σ _⟩
      rw [MeansList]
      exact ⟨B, Bs', he, hBs', rfl⟩

theorem Keeps.of_holds {kept : Option (List Expr)} (h : Keeps F Φ Γ Bs kept)
    (hnumber : w.dataType ≠ .number) (hw : w.holds = true) :
    Keeps F Φ Γ ((fun _ => w) :: Bs) kept := by
  cases kept with
  | none => exact fun σ u => h σ _
  | some es =>
      obtain ⟨Bs', hBs', heq⟩ := h
      refine ⟨Bs', hBs', fun σ u => ?_⟩
      rw [heq, List.foldl_cons, Meaning.select_of_holds hnumber hw]

theorem Keeps.of_not_holds (Bs : List Meaning) (hnumber : w.dataType ≠ .number)
    (hw : w.holds = false) : Keeps F Φ Γ ((fun _ => w) :: Bs) none := by
  intro σ u
  rw [List.foldl_cons, Meaning.select_of_not_holds hnumber hw, Meaning.selects_nodes]
  exact Meaning.select_nil Bs σ

mutual

theorem Means.simplify {inner : Bool} {e e' : Expr} {D : Meaning} (W : F.WellFormed)
    (h : e.Means F Φ Γ inner D) (he : e.simplify F = .ok e') : e'.Means F Φ Γ inner D := by
  match e with
  | literal v | contextNode | parentNode | root | attributeNamed name display parent
  | failure error =>
      rw [Expr.simplify] at he
      cases he
      exact h
  | reference name display constant => exact h.rewrites W (simplify_reference he)
  | binary op lhs rhs =>
      obtain ⟨lhs', rhs', hlhs, hrhs, hr⟩ := simplify_binary he
      rw [Means] at h
      obtain ⟨A, B, hA, hB, hcompares, rfl⟩ := h
      refine Means.rewrites W ?_ hr
      rw [Means]
      exact ⟨A, B, hA.simplify W hlhs, hB.simplify W hrhs,
        fun hop hlazy => hcompares hop (lazy_of_simplify hrhs hlazy), rfl⟩
  | negate e =>
      obtain ⟨operand, hoperand, hr⟩ := simplify_negate he
      rw [Means] at h
      obtain ⟨A, hA, rfl⟩ := h
      refine Means.rewrites W ?_ hr
      rw [Means]
      exact ⟨A, hA.simplify W hoperand, rfl⟩
  | nodeComparison node op v =>
      obtain ⟨node', hsame, hr⟩ := simplify_nodeComparison he
      refine Means.rewrites W ?_ hr
      rw [Means] at h
      rw [simplify_of_isSingleton h.1] at hsame
      cases hsame
      rwa [Means]
  | path start axis test predicates =>
      obtain ⟨start', hstart, hcases⟩ := simplify_path he
      rw [Means] at h
      obtain ⟨hfits, A, Bs, hA, hBs, rfl⟩ := h
      have hA' := hA.simplify W hstart
      rcases hcases with ⟨hempty | himpossible, rfl⟩ | ⟨hnever, rfl⟩ | ⟨predicates', hkept, hr⟩
      · rw [hA'.of_isEmptyNodeSet hempty, path_nil]
        exact means_emptyNodeSet W
      · rw [path_impossible W hfits himpossible]
        exact means_emptyNodeSet W
      · rw [path_never (MeansList.simplifyPredicates W hBs hnever)]
        exact means_emptyNodeSet W
      · obtain ⟨Bs', hBs', heq⟩ := MeansList.simplifyPredicates W hBs hkept
        rw [← Meaning.path_congr A axis test heq]
        refine Means.rewrites W ?_ hr
        rw [Means]
        exact ⟨hfits, A, Bs', hA', hBs', rfl⟩
  | filter base predicate =>
      obtain ⟨base', hbase, hcases⟩ := simplify_filter he
      rw [Means] at h
      obtain ⟨A, B, hA, hB, rfl⟩ := h
      have hA' := hA.simplify W hbase
      rcases hcases with ⟨hempty, rfl⟩ | ⟨predicate', hpredicate, hr⟩
      · rw [hA'.of_isEmptyNodeSet hempty]
        exact means_emptyNodeSet W
      · refine Means.rewrites W ?_ hr
        rw [Means]
        exact ⟨A, B, hA', hB.simplify W hpredicate, rfl⟩
  | setOperation op lhs rhs =>
      obtain ⟨lhs', rhs', hlhs, hrhs, hr⟩ := simplify_setOperation he
      rw [Means] at h
      obtain ⟨A, B, hA, hB, rfl⟩ := h
      refine Means.rewrites W ?_ hr
      rw [Means]
      exact ⟨A, B, hA.simplify W hlhs, hB.simplify W hrhs, rfl⟩
  | call function args binding =>
      obtain ⟨args', hargs, hr⟩ := simplify_call he
      rw [Means] at h
      obtain ⟨hbinding, As, hAs, rfl⟩ := h
      refine Means.rewrites W ?_ hr
      rw [Means]
      exact ⟨hbinding, As, MeansList.simplifyList W hAs hargs, rfl⟩
  | extension name display function args =>
      obtain ⟨args', hargs, rfl⟩ := simplify_extension he
      rw [Means] at h ⊢
      obtain ⟨hknown, hsettled, As, hAs, hlists, rfl⟩ := h
      exact ⟨hknown, hsettled, As, MeansList.simplifyList W hAs hargs,
        lists_of_lazy (lazy_of_simplifyList hargs) hlists, rfl⟩
  | sorted selection keys =>
      obtain ⟨selection', hselection, hcases⟩ := simplify_sorted he
      rw [Means] at h
      obtain ⟨hD, Ks, hKs⟩ := h
      have hD' := hD.simplify W hselection
      rcases hcases with ⟨-, rfl⟩ | ⟨-, keys', hkeys, rfl⟩
      · exact hD'
      · rw [Means]
        exact ⟨hD', Ks, MeansKeys.simplifyKeys W hKs hkeys⟩
  | template parts =>
      obtain ⟨parts', hparts, hr⟩ := simplify_template he
      rw [Means] at h
      obtain ⟨As, hAs, rfl⟩ := h
      obtain ⟨As', hAs', heq⟩ := MeansParts.simplifyParts W hAs hparts
      rw [← heq]
      refine Means.rewrites W ?_ hr
      rw [Means]
      exact ⟨As', hAs', rfl⟩
termination_by structural e

theorem MeansList.simplifyList {inner : Bool} {es es' : List Expr} {Ds : List Meaning}
    (W : F.WellFormed) (h : MeansList F Φ Γ inner es Ds) (he : Expr.simplifyList F es = .ok es') :
    MeansList F Φ Γ inner es' Ds := by
  match es with
  | [] =>
      rw [Expr.simplifyList] at he
      cases he
      exact h
  | e :: es =>
      obtain ⟨e', es', he', hes', rfl⟩ := simplifyList_cons he
      rw [MeansList] at h ⊢
      obtain ⟨D, Ds, hD, hDs, rfl⟩ := h
      exact ⟨D, Ds, hD.simplify W he', MeansList.simplifyList W hDs hes', rfl⟩
termination_by structural es

theorem MeansList.simplifyPredicates {es : List Expr} {Bs : List Meaning}
    {kept : Option (List Expr)} (W : F.WellFormed) (h : MeansList F Φ Γ true es Bs)
    (he : Expr.simplifyPredicates F es = .ok kept) : Keeps F Φ Γ Bs kept := by
  match es with
  | [] =>
      rw [Expr.simplifyPredicates] at he
      cases he
      exact ⟨Bs, h, fun σ w => rfl⟩
  | e :: es =>
      rw [MeansList] at h
      obtain ⟨B, Bs, hB, hBs, rfl⟩ := h
      obtain ⟨e', he', hkept⟩ := simplifyPredicates_cons he
      have hB' := hB.simplify W he'
      rcases hkept with ⟨rest, hrest, rfl, -⟩ | ⟨v, holds, rfl, hnumber, hholds, hkept⟩
      · exact (MeansList.simplifyPredicates W hBs hrest).cons hB'
      · obtain ⟨w, hw, rfl⟩ := hB'.of_literal
        obtain rfl := hw.means.toBool W hholds
        have hne := hw.dataType_ne_number hnumber
        split at hkept
        · exact (MeansList.simplifyPredicates W hBs hkept).of_holds hne ‹_›
        · subst hkept
          exact .of_not_holds Bs hne (Bool.eq_false_iff.mpr ‹_›)
termination_by structural es

theorem MeansOption.simplifyOption {inner : Bool} {e e' : Option Expr} {D : Option Meaning}
    (W : F.WellFormed) (h : MeansOption F Φ Γ inner e D) (he : Expr.simplifyOption F e = .ok e') :
    MeansOption F Φ Γ inner e' D := by
  match e with
  | none =>
      rw [Expr.simplifyOption] at he
      cases he
      exact h
  | some e =>
      obtain ⟨e', he', rfl⟩ := simplifyOption_some he
      rw [MeansOption] at h ⊢
      obtain ⟨D, hD, rfl⟩ := h
      exact ⟨D, hD.simplify W he', rfl⟩
termination_by structural e

theorem MeansKeys.simplifyKeys {inner : Bool} {ks ks' : List SortKey} {Ks : List KeyMeaning}
    (W : F.WellFormed) (h : MeansKeys F Φ Γ inner ks Ks) (he : Expr.simplifyKeys F ks = .ok ks') :
    MeansKeys F Φ Γ inner ks' Ks := by
  match ks with
  | [] =>
      rw [Expr.simplifyKeys] at he
      cases he
      exact h
  | .mk key order dataType caseOrder lang :: ks =>
      obtain ⟨key', order', dataType', caseOrder', lang', ks', hkey, horder, htype, hcase, hlang,
        hks', rfl⟩ := simplifyKeys_cons he
      rw [MeansKeys] at h ⊢
      obtain ⟨K, Ks, hK, hKs, rfl⟩ := h
      refine ⟨K, Ks, ?_, MeansKeys.simplifyKeys W hKs hks', rfl⟩
      rw [MeansKey] at hK ⊢
      exact ⟨hK.1.simplify W hkey, MeansOption.simplifyOption W hK.2.1 horder,
        MeansOption.simplifyOption W hK.2.2.1 htype, MeansOption.simplifyOption W hK.2.2.2.1 hcase,
        MeansOption.simplifyOption W hK.2.2.2.2 hlang⟩
termination_by structural ks

theorem MeansParts.simplifyParts {inner : Bool} {ps ps' : List TemplatePart} {As : List Meaning}
    (W : F.WellFormed) (h : MeansParts F Φ Γ inner ps As) (he : Expr.simplifyParts F ps = .ok ps') :
    ∃ As', MeansParts F Φ Γ inner ps' As' ∧ Meaning.template F As' = Meaning.template F As := by
  match ps with
  | [] =>
      rw [Expr.simplifyParts] at he
      cases he
      exact ⟨As, h, rfl⟩
  | .text text :: ps =>
      obtain ⟨rest, hrest, rfl⟩ := simplifyParts_text he
      rw [MeansParts] at h
      obtain ⟨D, As, hD, hAs, rfl⟩ := h
      obtain ⟨As', hAs', heq⟩ := MeansParts.simplifyParts W hAs hrest
      refine ⟨D :: As', ?_, Meaning.template_cons (fun σ => rfl) heq⟩
      rw [MeansParts]
      exact ⟨D, As', hD, hAs', rfl⟩
  | .expr e :: ps =>
      obtain ⟨e', rest, he', hrest, hpart⟩ := simplifyParts_expr he
      rw [MeansParts] at h
      obtain ⟨D, As, hD, hAs, rfl⟩ := h
      obtain ⟨As', hAs', heq⟩ := MeansParts.simplifyParts W hAs hrest
      rw [MeansPart] at hD
      have hD' := hD.simplify W he'
      rcases hpart with ⟨v, t, rfl, ht, rfl⟩ | ⟨-, rfl⟩
      · obtain ⟨w, hw, rfl⟩ := hD'.of_literal
        refine ⟨(fun _ => .string t) :: As', ?_,
          Meaning.template_cons (fun σ => hw.means.toText W ht) heq⟩
        rw [MeansParts]
        exact ⟨_, As', by rw [MeansPart], hAs', rfl⟩
      · refine ⟨D :: As', ?_, Meaning.template_cons (fun σ => rfl) heq⟩
        rw [MeansParts]
        exact ⟨D, As', by rwa [MeansPart], hAs', rfl⟩
termination_by structural ps

end

end Expr

end XPath
