import XPath.Proofs.Evaluation.Answers
import XPath.Proofs.Function.Standard
import XPath.Proofs.NodeSet.Inverse

/-!
# The nodes that are found, by the standard

The nodes that a compiled expression finds are those of the standard
(`Expr.Compiled.drains_standard`), provided that the comparisons which it makes of two node-sets are
decided by their pairs. Its reading differs from the standard in two things only. Functions are those
of the standard always; comparisons are, unless the extremes of two node-sets are in a relation in which
no pair of their nodes is (`Outcome.ComparesPairs.compare_eq`). So the two come to the same, by
induction on the expression and through the contexts in which predicates are tested
(`Expr.ComparesPairs.reading_eq`).
-/

namespace XPath

variable {F : Forest} {a b w : Outcome} {op : BinaryOperator} {ns as bs : List Node} {σ : Context}
  {A B : Meaning}

/-! ## Comparisons -/

namespace Outcome

theorem equals_comm (a b : Outcome) : a.equals F b = b.equals F a := by
  cases a <;> cases b <;> first | exact Bool.beq_comm | exact Number.beq_comm _ _

/-- Items in a relation are in its inverse with the sides exchanged. -/
theorem relates_inverse (op : BinaryOperator) (a b : Outcome) :
    b.relates F op.inverse a = a.relates F op b := by
  cases op with
  | equals => exact equals_comm b a
  | notEquals => exact congrArg (!·) (equals_comm b a)
  | _ => rfl

theorem compareAny_inverse (op : BinaryOperator) (a b : Outcome) :
    b.compareAny F op.inverse a = a.compareAny F op b := by
  rw [Bool.eq_iff_iff]
  simp only [compareAny, List.any_eq_true, relates_inverse]
  exact exists_pair_comm

theorem items_of_scalar (hb : b.dataType ≠ .nodeSet) (a : Outcome) : b.items F a = [b] := by
  cases b with
  | nodes ns => exact absurd rfl hb
  | boolean | number | string | object => rfl

theorem compare_scalars (ha : a.dataType ≠ .nodeSet) (hb : b.dataType ≠ .nodeSet) :
    a.compare F op b = a.relates F op b := by
  have hequals (equal : Bool) :
      Value.equals F a.value b.value equal = .ok (a.equals F b == equal) := by
    rcases a with _ | _ | _ | _ | (_ | _) <;> rcases b with _ | _ | _ | _ | (_ | _) <;>
      first | rfl | exact absurd rfl ha | exact absurd rfl hb
  by_cases heq : op = .equals
  · subst heq
    simp [compare, Value.compare, hequals, relates]
  by_cases hne : op = .notEquals
  · subst hne
    simp [compare, Value.compare, hequals, relates]
  have horder : Value.compare F op a.value b.value =
      .ok (op.compareNumbers (a.toNumber F) (b.toNumber F)) := by
    rw [Value.compare_of_order heq hne]
    rcases a with _ | _ | _ | _ | (_ | _) <;> rcases b with _ | _ | _ | _ | (_ | _) <;>
      first | rfl | exact absurd rfl ha | exact absurd rfl hb
  rw [compare, horder]
  cases op <;> first | rfl | contradiction

/-- Equality of a node-set with another value is equality with one of the items. -/
theorem nodeSetEquals_value (hb : b.dataType ≠ .nodeSet) (equal : Bool) :
    Value.nodeSetEquals F (.ofNodes ns true) b.value equal =
      .ok (((nodes ns).items F b).any fun x => x.equals F b == equal) := by
  cases b with
  | nodes ms => exact absurd rfl hb
  | boolean c => simp [value, Value.nodeSetEquals, items, equals, holds, Except.map]
  | string s | number s | object s =>
      simp [value, Value.nodeSetEquals, items, equals, Value.toText, Function.comp_def, text,
        toNumber]

theorem compareNodeSet_value (hb : b.dataType ≠ .nodeSet) (op : BinaryOperator) :
    Value.compareNodeSet F (.ofNodes ns true) op b.value =
      .ok (((nodes ns).items F b).any fun x => op.compareNumbers (x.toNumber F) (b.toNumber F)) := by
  cases b with
  | nodes ms => exact absurd rfl hb
  | boolean c => simp [value, Value.compareNodeSet, items, toNumber, Except.map]
  | string s | number s =>
      simp [value, Value.compareNodeSet, items, Function.comp_def, toNumber, Value.toNumber]
  | object o =>
      cases o <;>
        simp [value, Value.compareNodeSet, items, Function.comp_def, toNumber, Value.toNumber]

theorem compare_nodes (hb : b.dataType ≠ .nodeSet) (op : BinaryOperator) :
    (nodes ns).compare F op b = (nodes ns).compareAny F op b := by
  have hitem : (nodes ns).compareAny F op b =
      ((nodes ns).items F b).any fun x => x.relates F op b := by
    simp [compareAny, items_of_scalar hb]
  rw [hitem, compare]
  by_cases heq : op = .equals
  · subst heq
    have hvalue : Value.compare F .equals (nodes ns).value b.value =
        Value.nodeSetEquals F (.ofNodes ns true) b.value true := rfl
    rw [hvalue, nodeSetEquals_value hb]
    simp [relates]
  by_cases hne : op = .notEquals
  · subst hne
    have hvalue : Value.compare F .notEquals (nodes ns).value b.value =
        Value.nodeSetEquals F (.ofNodes ns true) b.value false := rfl
    rw [hvalue, nodeSetEquals_value hb]
    simp [relates]
  have hvalue : Value.compare F op (nodes ns).value b.value =
      Value.compareNodeSet F (.ofNodes ns true) op b.value := Value.compare_of_order heq hne _ _
  rw [hvalue, compareNodeSet_value hb]
  cases op <;> first | rfl | contradiction

theorem compare_inverse (ha : a.dataType ≠ .nodeSet) (op : BinaryOperator) (ns : List Node) :
    a.compare F op (nodes ns) = (nodes ns).compare F op.inverse a := by
  cases a with
  | nodes ms => exact absurd rfl ha
  | boolean | number | string | object => cases op <;> rfl

theorem compare_nodes_nodes (h : ¬op.OpenEnded F as bs) :
    (nodes as).compare F op (nodes bs) = (nodes as).compareAny F op (nodes bs) := by
  have hpairs : (nodes as).compareAny F op (nodes bs) =
      as.any fun a => bs.any fun b => op.relates F a b := by
    simp only [compareAny, items, List.any_map, Function.comp_def]
    cases op <;> rfl
  rw [hpairs]
  have has : (NodeSet.ofNodes as true).toList F = .ok as := toList_value as
  have hbs : (NodeSet.ofNodes bs true).toList F = .ok bs := toList_value bs
  cases hop : op.isComparison with
  | true =>
      obtain ⟨holds, hcompare, hholds⟩ := Value.compare_nodeSets_iff hop has hbs
      rw [compare, value, value, hcompare, Bool.eq_iff_iff, hholds, or_iff_left h]
  | false =>
      have hfalse : Value.compare F op (nodes as).value (nodes bs).value = .ok false := by
        have heq : op ≠ .equals := by rintro rfl; cases hop
        have hne : op ≠ .notEquals := by rintro rfl; cases hop
        rw [Value.compare_of_order heq hne]
        refine (Value.compareNodeSet_eq has hbs).trans ?_
        cases op <;> first | cases hop; done | simp
      rw [compare, hfalse]
      cases op <;> first
        | cases hop; done
        | simp [BinaryOperator.relates, BinaryOperator.compareNumbers]

/-- Where pairs of nodes decide, the comparison is that of the standard. -/
theorem ComparesPairs.compare_eq (h : a.ComparesPairs F op b) :
    a.compare F op b = a.compareAny F op b := by
  by_cases ha : a.dataType = .nodeSet <;> by_cases hb : b.dataType = .nodeSet
  · obtain ⟨as, rfl⟩ := eq_nodes_of_dataType ha
    obtain ⟨bs, rfl⟩ := eq_nodes_of_dataType hb
    exact compare_nodes_nodes (h as bs rfl rfl)
  · obtain ⟨as, rfl⟩ := eq_nodes_of_dataType ha
    exact compare_nodes hb op
  · obtain ⟨bs, rfl⟩ := eq_nodes_of_dataType hb
    rw [compare_inverse ha, compare_nodes ha, compareAny_inverse]
  · rw [compare_scalars ha hb, compareAny, items_of_scalar ha, items_of_scalar hb]
    simp

theorem ComparesPairs.binary_eq (h : a.ComparesPairs F op b) :
    a.binary F op b = a.operate F op b := by
  unfold operate
  split
  · rename_i hop
    rw [← h.compare_eq]
    cases op <;> first | rfl | cases hop
  · rfl

end Outcome

/-! ## Expressions -/

namespace Meaning

theorem select_congr (h : ∀ τ ∈ w.focuses σ, A τ = B τ) : A.select σ w = B.select σ w := by
  cases w with
  | nodes ns =>
      have hkeep : A.keep σ ns = B.keep σ ns := by
        unfold keep
        refine congrArg _ (List.filter_congr fun x hx => ?_)
        dsimp only
        rw [h _ (List.mem_map_of_mem hx)]
      rw [select, hkeep, select]
  | boolean | number | string | object =>
      unfold select
      rw [h _ (List.mem_singleton_self _)]

theorem nodes_foldl_keep (Bs : List Meaning) (ns : List Node) :
    .nodes (Bs.foldl (fun ns B => B.keep σ ns) ns) =
      Bs.foldl (fun w B => B.select σ w) (.nodes ns) := by
  induction Bs generalizing ns with
  | nil => rfl
  | cons B Bs ih => exact ih _

theorem attributesNamed_eq (W : F.WellFormed) (name : ExpandedName) (bound : Option Node) :
    oneNode bound (F.attributeNamed? name) = attributesNamed F name bound := by
  funext σ
  unfold oneNode attributesNamed
  cases bound.or σ.contextNode? with
  | none => rfl
  | some n => simp [Expr.filter_attributes W]

end Meaning

namespace Expr

mutual

/-- Where pairs of nodes decide, the reading is that of the standard. -/
theorem ComparesPairs.reading_eq (W : F.WellFormed) {e : Expr} {σ : Context}
    (h : e.ComparesPairs F σ) :
    e.reading F σ = e.standard F σ := by
  match e with
  | literal v | reference _ _ (some v) | reference _ _ none | contextNode | parentNode | root
  | extension .. | failure _ => rfl
  | attributeNamed name _ parent =>
      rw [reading, standard, Meaning.attributesNamed_eq W]
  | binary op lhs rhs =>
      rw [ComparesPairs] at h
      rw [reading, standard]
      dsimp only
      rw [h.1.reading_eq W, h.2.1.reading_eq W, h.2.2.binary_eq]
  | negate e =>
      rw [ComparesPairs] at h
      rw [reading, standard]
      dsimp only
      rw [h.reading_eq W]
  | nodeComparison node op v =>
      rw [ComparesPairs] at h
      rw [reading, standard]
      dsimp only
      rw [h.1.reading_eq W, h.2.compare_eq]
  | path start axis test predicates =>
      rw [ComparesPairs] at h
      rw [reading, standard]
      unfold Meaning.path
      rw [h.1.reading_eq W]
      have hselects := h.2
      cases hstart : start.standard F σ with
      | nodes ns =>
          rw [hstart] at hselects
          have hstep : ∀ n ∈ ns, Meaning.stepNodes F axis test (readings F predicates) σ n =
              Meaning.stepNodes F axis test (standards F predicates) σ n := by
            intro n hn
            have hfold := ComparePairsOn.foldl_select_eq W (hselects n hn)
            rw [← Meaning.nodes_foldl_keep, ← Meaning.nodes_foldl_keep] at hfold
            exact Outcome.nodes.inj hfold
          dsimp only
          rw [List.flatMap_congr hstep]
      | boolean | number | string | object =>
          rw [hstart] at hselects
          dsimp only
          rw [ComparePairsOn.foldl_select_eq W hselects]
  | filter base predicate =>
      rw [ComparesPairs] at h
      rw [reading, standard]
      unfold Meaning.filter
      rw [h.1.reading_eq W]
      exact Meaning.select_congr fun τ hτ => (h.2 τ hτ).reading_eq W
  | setOperation op lhs rhs =>
      rw [ComparesPairs] at h
      rw [reading, standard]
      dsimp only
      rw [h.1.reading_eq W, h.2.reading_eq W]
  | call function args binding =>
      rw [ComparesPairs] at h
      rw [reading, standard, Meaning.call_eq]
      unfold Meaning.apply
      rw [ComparePairs.readings_eq W h]
  | sorted selection keys =>
      rw [ComparesPairs] at h
      rw [reading, standard]
      exact h.reading_eq W
  | template parts =>
      rw [ComparesPairs] at h
      rw [reading, standard]
      unfold Meaning.template
      rw [ComparePairsInParts.readings_eq W h]

theorem ComparePairs.readings_eq (W : F.WellFormed) {es : List Expr} {σ : Context}
    (h : ComparePairs F es σ) :
    (readings F es).map (fun A => A σ) = (standards F es).map fun A => A σ := by
  match es with
  | [] => rfl
  | e :: es =>
      rw [ComparePairs] at h
      rw [readings, standards, List.map_cons, List.map_cons, h.1.reading_eq W,
        ComparePairs.readings_eq W h.2]

theorem ComparePairsOn.foldl_select_eq (W : F.WellFormed) {es : List Expr} {σ : Context}
    {w : Outcome} (h : ComparePairsOn F es σ w) :
    (readings F es).foldl (fun w B => B.select σ w) w =
      (standards F es).foldl (fun w B => B.select σ w) w := by
  match es with
  | [] => rfl
  | e :: es =>
      rw [ComparePairsOn] at h
      have hselect : (e.reading F).select σ w = (e.standard F).select σ w :=
        Meaning.select_congr fun τ hτ => (h.1 τ hτ).reading_eq W
      rw [readings, standards, List.foldl_cons, List.foldl_cons, hselect]
      exact ComparePairsOn.foldl_select_eq W h.2

theorem ComparePairsInParts.readings_eq (W : F.WellFormed) {ps : List TemplatePart} {σ : Context}
    (h : ComparePairsInParts F ps σ) :
    (readingsOfParts F ps).map (fun A => (A σ).text F) =
      (standardsOfParts F ps).map fun A => (A σ).text F := by
  match ps with
  | [] => rfl
  | .text text :: ps =>
      rw [ComparePairsInParts] at h
      rw [readingsOfParts, standardsOfParts, List.map_cons, List.map_cons,
        ComparePairsInParts.readings_eq W h]
  | .expr e :: ps =>
      rw [ComparePairsInParts] at h
      rw [readingsOfParts, standardsOfParts, List.map_cons, List.map_cons, h.1.reading_eq W,
        ComparePairsInParts.readings_eq W h.2]

end

/-! ## The nodes that are found -/

section

variable {h : Host} {Γ : Typing} {e : Expr} {c : Context} {ms : List Node}

/-- The nodes that are found are those of the standard where pairs of nodes decide the comparisons. -/
theorem Compiled.drains_standard (W : h.forest.WellFormed) (he : Compiled h.forest e)
    (hplain : e.Every (Plain h.forest Γ)) (hempty : e.Every (FalseOnEmpty h.forest Γ))
    (hpairs : e.ComparesPairs h.forest c) (hc : c.Sound h.forest Γ) (hms : e.drain h c = .ok ms) :
    ∃ ns, e.standard h.forest c = .nodes ns ∧ ∀ n, n ∈ ms ↔ n ∈ ns := by
  obtain ⟨ns, hns, -, hmem⟩ := (he.means W hplain hempty).drain W hc hms
  exact ⟨ns, (hpairs.reading_eq W).symm.trans hns, hmem⟩

theorem comparesPairs_path_nil (start : Expr) (axis : Axis) (test : NodeTest) (σ : Context) :
    (path start axis test []).ComparesPairs F σ ↔ start.ComparesPairs F σ := by
  rw [ComparesPairs]
  refine and_iff_left ?_
  split <;> simp [ComparePairsOn]

theorem comparesPairs_everywhere (name : String) (σ : Context) :
    (everywhere name []).ComparesPairs F σ := by
  rw [everywhere, comparesPairs_path_nil, comparesPairs_path_nil, ComparesPairs]
  trivial

/-- Only `<x/>` is tested, and there is no `<none/>` to compare with it. -/
theorem comparesPairs_guarded : guarded.ComparesPairs .nested flagContext := by
  have hstart : (path root .descendantOrSelf .anyNode []).standard .nested flagContext =
      .nodes [⟨0, 0⟩, ⟨0, 1⟩, ⟨0, 2⟩] := by cbv
  have hnone : (everywhere "none" []).standard .nested (flagContext.forItem ⟨0, 2⟩ 1 (.known 1)) =
      .nodes [] := by cbv
  have hchildren : ∀ n ∈ [⟨0, 0⟩, ⟨0, 1⟩, ⟨0, 2⟩],
      (Forest.nested.onAxis .child n).filter (NodeTest.accepts
        ⟨.element, .named (.unprefixed "x")⟩ .nested) ∈ [[], [⟨0, 2⟩]] := by decide
  rw [guarded, everywhere, ComparesPairs, hstart]
  refine ⟨(comparesPairs_path_nil ..).mpr (by rw [ComparesPairs]; trivial), fun n hn => ?_⟩
  rw [ComparePairsOn, ComparePairsOn]
  refine ⟨fun τ hτ => ?_, trivial⟩
  obtain rfl : τ = flagContext.forItem ⟨0, 2⟩ 1 (.known 1) := by
    rcases List.mem_pair.mp (hchildren n hn) with hx | hx <;>
      simp_all [Outcome.focuses]
  rw [ComparesPairs, ComparesPairs]
  refine ⟨by rw [flag, ComparesPairs]; trivial, ⟨comparesPairs_everywhere .., comparesPairs_everywhere .., ?_⟩, ?_⟩
  · rintro as bs has -
    cases hnone.symm.trans has
    simp [BinaryOperator.OpenEnded, Number.OpenEnded]
  · rintro as bs - - hopen
    exact hopen

theorem drains_standard_nested : guarded.drain nestedHost flagContext = .ok [⟨0, 2⟩] ∧
    ∃ ns, guarded.standard nestedHost.forest flagContext = .nodes ns ∧
      ∀ n, n ∈ [⟨0, 2⟩] ↔ n ∈ ns := by
  have hdrain : guarded.drain nestedHost flagContext = .ok [⟨0, 2⟩] :=
    toOption_eq_some.mp (by decide +kernel)
  exact ⟨hdrain, Compiled.drains_standard (h := nestedHost) Forest.wellFormed_nested
    compiled_guarded plain_guarded falseOnEmpty_guarded comparesPairs_guarded sound_flagContext
    hdrain⟩

/-- `self::node()[//x <= //y]` -/
def wordBeforeInfinity : Expr :=
  path contextNode .selfAxis .anyNode
    [binary .lessThanOrEqual (everywhere "x" []) (everywhere "y" [])]

theorem falseOnEmpty_wordBeforeInfinity :
    wordBeforeInfinity.Every (FalseOnEmpty Value.wordAndInfinity fun _ => none) := by
  have hsteps : Compares Value.wordAndInfinity (fun _ => none) .lessThanOrEqual
      (everywhere "y" []) ((everywhere "x" []).reading Value.wordAndInfinity)
      ((everywhere "y" []).reading Value.wordAndInfinity) := by
    intro _ _ σ _ hempty
    rw [hempty]
    exact Outcome.compare_empty (by decide) (by decide) _
  simp only [Every, EveryOfList, FalseOnEmpty, everywhere, wordBeforeInfinity, and_true, true_and]
  exact hsteps

theorem standard_wordBeforeInfinity :
    wordBeforeInfinity.standard Value.wordAndInfinity (.ofNode ⟨0, 0⟩) = .nodes [] := by
  have hleft : (everywhere "x" []).standard Value.wordAndInfinity
      ((Context.ofNode ⟨0, 0⟩).forItem ⟨0, 0⟩ 1 (.known 1)) = .nodes [⟨0, 2⟩] := by cbv
  have hright : (everywhere "y" []).standard Value.wordAndInfinity
      ((Context.ofNode ⟨0, 0⟩).forItem ⟨0, 0⟩ 1 (.known 1)) = .nodes [⟨0, 4⟩] := by cbv
  have hcompare : Outcome.operate Value.wordAndInfinity .lessThanOrEqual (.nodes [⟨0, 2⟩])
      (.nodes [⟨0, 4⟩]) = .boolean false := congrArg Outcome.boolean (by decide +kernel)
  have hself : (Value.wordAndInfinity.onAxis .selfAxis ⟨0, 0⟩).filter
      (NodeTest.anyNode.accepts Value.wordAndInfinity) = [⟨0, 0⟩] := by decide
  have hstep : Meaning.stepNodes Value.wordAndInfinity .selfAxis .anyNode
      (standards Value.wordAndInfinity
        [binary .lessThanOrEqual (everywhere "x" []) (everywhere "y" [])])
      (.ofNode ⟨0, 0⟩) ⟨0, 0⟩ = [] := by
    simp [Meaning.stepNodes, hself, standards, standard, Meaning.keep, hleft, hright, hcompare,
      Outcome.selects, Outcome.holds]
  change Outcome.nodes (Value.wordAndInfinity.inOrder ([⟨0, 0⟩].flatMap (Meaning.stepNodes _ _ _
    (standards _ _) _))) = _
  rw [List.flatMap_singleton, hstep, Forest.inOrder_nil]

/-- No pair of an `x` and a `y` is in the relation, so `self::node()[//x <= //y]` should find nothing;
but the least number of no numbers is taken to be infinity, and the number of the `y` is infinity. -/
theorem not_drains_standard : ¬∀ (h : Host) (Γ : Typing) (e : Expr) (c : Context)
    (ms : List Node), h.forest.WellFormed → Compiled h.forest e → e.Every (Plain h.forest Γ) →
      e.Every (FalseOnEmpty h.forest Γ) → c.Sound h.forest Γ → e.drain h c = .ok ms →
        ∃ ns, e.standard h.forest c = .nodes ns ∧ ∀ n, n ∈ ms ↔ n ∈ ns := by
  intro hdrains
  have hparse : parse {} Value.wordAndInfinity "self::node()[//x <= //y]" =
      .ok wordBeforeInfinity := by cbv
  have hwell : Value.wordAndInfinity.WellFormed :=
    Forest.wellFormed_of_contract (by decide) (by decide) (by decide)
  have hplain : wordBeforeInfinity.Every (Plain Value.wordAndInfinity fun _ => none) := by
    simp [Every, EveryOfList, Plain, everywhere, wordBeforeInfinity]
  have hdrain : wordBeforeInfinity.drain (.ofRoutines Value.wordAndInfinity [])
      (.ofNode ⟨0, 0⟩) = .ok [⟨0, 0⟩] := toOption_eq_some.mp (by decide +kernel)
  obtain ⟨ns, hns, hmem⟩ := hdrains (.ofRoutines Value.wordAndInfinity []) _ _ _ _ hwell
    (.parsed hparse) hplain falseOnEmpty_wordBeforeInfinity (.ofNode (by decide) _) hdrain
  cases standard_wordBeforeInfinity.symm.trans hns
  simpa using hmem ⟨0, 0⟩

end

end Expr

end XPath
