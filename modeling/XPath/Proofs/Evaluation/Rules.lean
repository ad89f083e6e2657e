import XPath.Evaluation
import XPath.Proofs.Evaluation.Selection
import XPath.Proofs.Evaluation.Sorting
import XPath.Proofs.Expr.Reduce

/-!
# The rules of evaluation

The rules keep an engine sound (`Engine.Sound.next`): what they answer of a whole expression is what
its meaning says if that holds of the parts. By induction every evaluation is sound
(`Host.sound_engine`).
-/

namespace XPath

variable {h : Host} {Φ : Calls h.forest} {E : Engine} {Γ : Typing} {inner : Bool} {e : Expr}
  {D : Meaning} {c σ : Context} {v : Value}

namespace Engine

theorem oneNode_spec {F : Forest} {Φ : Calls F} (W : F.WellFormed) (hD : e.Means F Φ Γ inner D)
    (he : e.isSingleton = true) (hlit : e.isLiteral = false) (hc : σ.Extends c)
    (hσ : σ.Sound F Γ) {n : Option Node} (hn : oneNode F e c = .ok n) :
    D σ = .nodes n.toList ∧ ∀ k ∈ n, F.Has k := by
  have hnode {k : Node} (hk : c.contextNode = .ok k) : σ.contextNode? = some k ∧ F.Has k := by
    have hσk := hc.contextNode ▸ Context.contextNode_eq_ok.mp hk
    exact ⟨hσk, hσ.contextNode k hσk⟩
  cases e with
  | contextNode =>
      obtain ⟨k, hk, rfl⟩ := map_eq_ok.mp hn
      obtain ⟨hσk, hk⟩ := hnode hk
      rw [Expr.Means] at hD
      rw [hD]
      refine ⟨by simp [Meaning.oneNode, hσk], ?_⟩
      rintro k ⟨rfl⟩
      exact hk
  | parentNode =>
      obtain ⟨k, hk, rfl⟩ := map_eq_ok.mp hn
      obtain ⟨hσk, -⟩ := hnode hk
      rw [Expr.Means] at hD
      rw [hD]
      exact ⟨by simp [Meaning.oneNode, hσk], fun p hp => W.linked.has_parent hp⟩
  | root =>
      obtain ⟨k, hk, rfl⟩ := map_eq_ok.mp hn
      obtain ⟨hσk, hk⟩ := hnode hk
      rw [Expr.Means] at hD
      rw [hD]
      refine ⟨by simp [Meaning.oneNode, hσk], ?_⟩
      rintro k ⟨rfl⟩
      exact W.linked.has_documentRoot hk
  | attributeNamed name display bound =>
      rw [Expr.Means] at hD
      obtain ⟨parent, hparent, hn⟩ : ∃ parent, bound.or σ.contextNode? = some parent ∧
          F.attributeNamed? name parent = n := by
        cases bound with
        | some parent => exact ⟨parent, rfl, Except.ok.inj hn⟩
        | none =>
            obtain ⟨parent, hparent, hn⟩ := bind_eq_ok.mp hn
            exact ⟨parent, (hnode hparent).1, Except.ok.inj hn⟩
      rw [hD.2]
      refine ⟨by simp [Meaning.oneNode, hparent, hn], fun k hk => ?_⟩
      have hmem := List.mem_of_find?_eq_some (hn.trans hk)
      exact Forest.has_of_parent ((W.mem_attributes parent k).mp hmem).1
  | literal v => cases hlit
  | _ => cases he

end Engine

/-- What is neither listed nor lazy has the static type of its expression. -/
theorem Expr.Means.types (hD : e.Means h.forest Φ Γ inner D) (hnodes : e.isNodeSetExpression = false) :
    e.Types (D σ) := by
  intro hany
  refine hD.dataType_eq ?_ hany
  cases e <;> first | rfl | cases hnodes

theorem Number.ofText_empty : Number.ofText "" = 0.0 / 0.0 := by
  rfl

theorem Expr.types_of_nodes {w : Outcome} {ns : List Node} (hnodes : e.isNodeSetExpression = true)
    (hw : w = .nodes ns) : e.Types w := by
  intro _
  rw [hw]
  cases e <;> first | rfl | cases hnodes

namespace Engine.Sound

variable [h.Realizes Φ Γ] (W : h.forest.WellFormed) (hE : E.Sound h.forest Φ Γ)

include W hE

theorem means_nodeSet (hD : e.Means h.forest Φ Γ inner D) (hc : σ.Extends c) (hσ : σ.Sound h.forest Γ)
    {s : NodeSet} (hs : E.nodeSet h e c = .ok s) : s.Means h.forest (D σ) := by
  obtain ⟨e', he', hs⟩ := bind_eq_ok.mp hs
  have hred : Φ.Reducible E Γ inner .all := .ofAll hE
  have hD' : e'.Means h.forest Φ Γ inner (D.rebind .all σ) :=
    hD.reduceWith W hσ hc (fun _ => rfl) he'
  have hstandalone : D.rebind .all σ .standalone = D σ := by
    rw [Meaning.rebind, Context.rebind_all]
  rw [← hstandalone]
  split at hs
  · obtain ⟨w, hw, heq⟩ := hD'.of_literal
    rw [heq]
    exact NodeSet.Means.sorted W hw.means hs
  · rename_i v hv
    obtain ⟨w, hw, -⟩ := hD'.of_literal
    cases v with
    | nodeSet s => exact absurd rfl (hv s)
    | fragment f => exact hw.means.elim
    | boolean | number | string | object => cases hs
  · obtain ⟨i, hi, hs⟩ := bind_eq_ok.mp hs
    cases hs
    unfold Engine.intent at hi
    split at hi
    · cases hi
      intro en hen
      obtain ⟨ns, hns, hlists, -⟩ := hE.enumerate hD' (.refl _) (.standalone _ _) hen
      exact ⟨ns, hns, hlists⟩
    · cases hi

omit [h.Realizes Φ Γ] W in
theorem texts_of_parts {parts : List TemplatePart} {As : List Meaning}
    (hAs : Expr.MeansParts h.forest Φ Γ inner parts As) (hc : σ.Extends c) (hσ : σ.Sound h.forest Γ)
    {ts : List String} (hts : parts.mapM (ruleValue.text E · c) = .ok ts) :
    ts = As.map fun A => (A σ).text h.forest := by
  induction parts generalizing As ts with
  | nil =>
      rw [Expr.MeansParts] at hAs
      rw [List.mapM_nil, pure_eq_ok] at hts
      rw [hAs, ← hts]
      rfl
  | cons p parts ih =>
      rw [Expr.MeansParts] at hAs
      obtain ⟨D, As, hD, hAs, rfl⟩ := hAs
      simp only [List.mapM_cons, bind_eq_ok, pure_eq_ok] at hts
      obtain ⟨t, ht, ts, hts, rfl⟩ := hts
      rw [List.map_cons, ← ih hAs hts]
      cases p with
      | text text =>
          rw [Expr.MeansPart] at hD
          cases ht
          rw [hD]
          rfl
      | expr e =>
          rw [Expr.MeansPart] at hD
          rw [← hE.text hD hc hσ ht]

theorem ruleValue (hD : e.Means h.forest Φ Γ inner D) (hc : σ.Extends c) (hσ : σ.Sound h.forest Γ)
    (hv : E.ruleValue h e c = .ok v) :
    v.Means h.forest (D σ) ∧ (e.isLazy = false → (D σ).dataType = v.dataType) := by
  cases e with
  | literal u =>
      obtain ⟨w, hw, rfl⟩ := hD.of_literal
      obtain ⟨hmeans, htype⟩ := hw.ofConstant W hv
      exact ⟨hmeans, fun _ => htype⟩
  | reference name display constant =>
      cases constant with
      | some u =>
          rw [Expr.Means] at hD
          obtain ⟨w, hw, rfl⟩ := hD
          cases hv
          exact ⟨hw.means, fun _ => hw.type⟩
      | none =>
          rw [Expr.Means] at hD
          obtain ⟨htyped, rfl⟩ := hD
          obtain ⟨t, ht⟩ := Option.isSome_iff_exists.mp htyped
          have hvalue : σ.valueOf name = .ok v := by
            rw [← hv, Engine.ruleValue, Context.valueOf, Context.valueOf, hc.bindings]
          have hdenotes := Value.Sound.denotes W (hσ.bindings name t v ht hvalue).1
          rw [Meaning.binding, hvalue]
          exact ⟨hdenotes.means, fun _ => hdenotes.type⟩
  | binary op lhs rhs =>
      rw [Expr.Means] at hD
      obtain ⟨A, B, hA, hB, hcompares, rfl⟩ := hD
      obtain ⟨hmeans, htype⟩ := hE.binary W hA hB hcompares hc hσ hv
      exact ⟨hmeans, fun _ => htype⟩
  | negate e =>
      rw [Expr.Means] at hD
      obtain ⟨A, hA, rfl⟩ := hD
      obtain ⟨x, hx, hv⟩ := bind_eq_ok.mp hv
      obtain ⟨rfl, -⟩ := hE.number hA hc hσ hx
      cases hv
      exact ⟨rfl, fun _ => rfl⟩
  | nodeComparison node op u =>
      rw [Expr.Means] at hD
      obtain ⟨hnode, hu, A, hA, rfl⟩ := hD
      obtain ⟨b, hb, hv⟩ := bind_eq_ok.mp hv
      obtain rfl := hE.compareNode hA hnode hu hc hσ hb
      cases hv
      exact ⟨rfl, fun _ => rfl⟩
  | contextNode | parentNode | root | attributeNamed name display bound =>
      obtain ⟨n, hn, hv⟩ := bind_eq_ok.mp hv
      obtain ⟨heq, hhas⟩ := oneNode_spec W hD rfl rfl hc hσ hn
      rw [heq]
      cases n with
      | none =>
          cases hv
          exact ⟨.empty W, fun _ => rfl⟩
      | some n =>
          cases hv
          exact ⟨.singleton W (hhas n rfl), fun _ => rfl⟩
  | path | filter | setOperation | sorted =>
      obtain ⟨s, hs, hv⟩ := bind_eq_ok.mp hv
      cases hv
      exact ⟨hE.means_nodeSet W hD hc hσ hs, by rintro ⟨⟩⟩
  | call function args binding =>
      rw [Expr.Means] at hD
      obtain ⟨hbinding, As, hAs, rfl⟩ := hD
      have hdenotes := hE.call W hAs hbinding hc hσ hv
      exact ⟨hdenotes.means, fun _ => hdenotes.type⟩
  | extension name display function args =>
      rw [Expr.Means] at hD
      obtain ⟨hknown, -, As, hAs, hlists, rfl⟩ := hD
      obtain ⟨vs, hvs, hv⟩ := bind_eq_ok.mp hv
      have hdenotes := hE.extension hknown hAs hlists hc hσ hvs hv
      exact ⟨hdenotes.means, fun _ => hdenotes.type⟩
  | template parts =>
      rw [Expr.Means] at hD
      obtain ⟨As, hAs, rfl⟩ := hD
      obtain ⟨ts, hts, hv⟩ := bind_eq_ok.mp hv
      cases hv
      rw [hE.texts_of_parts hAs hc hσ hts]
      exact ⟨rfl, fun _ => rfl⟩
  | failure error => cases hv

theorem ruleEnumerate (hD : e.Means h.forest Φ Γ inner D) (hc : σ.Extends c)
    (hσ : σ.Sound h.forest Γ) {en : Enumeration} (hen : E.ruleEnumerate h e c = .ok en) :
    ∃ ns, D σ = .nodes ns ∧ en.Lists h.forest ns ∧ (e.isSingleton = true → en.sorted = true) := by
  have hone (hs : e.isSingleton = true) (hlit : e.isLiteral = false)
      (hen : (oneNode h.forest e c).map Enumeration.ofOption = .ok en) :
      ∃ ns, D σ = .nodes ns ∧ en.Lists h.forest ns ∧
        (e.isSingleton = true → en.sorted = true) := by
    obtain ⟨n, hn, rfl⟩ := map_eq_ok.mp hen
    obtain ⟨heq, hhas⟩ := oneNode_spec W hD hs hlit hc hσ hn
    exact ⟨n.toList, heq, .ofOption W hhas, fun _ => rfl⟩
  unfold Engine.ruleEnumerate at hen
  split at hen
  · obtain ⟨w, hw, rfl⟩ := hD.of_literal
    obtain ⟨ns, hns, hlists, hsorted⟩ := NodeSet.Means.enumerate W hw.means hen
    exact ⟨ns, hns, hlists, fun _ => hsorted⟩
  · exact hone rfl rfl hen
  · exact hone rfl rfl hen
  · exact hone rfl rfl hen
  · exact hone rfl rfl hen
  · rename_i start axis test predicates
    obtain ⟨base, hbase, hen⟩ := bind_eq_ok.mp hen
    rw [Expr.Means] at hD
    obtain ⟨-, A, Bs, hA, hBs, rfl⟩ := hD
    obtain ⟨ns, hns, hlists, hsorted⟩ := hE.enumerate hA hc hσ hbase
    cases hen
    refine ⟨_, by rw [Meaning.path, hns], hE.lists_path W hBs hc hσ (fun hone => ?_) hlists,
      by rintro ⟨⟩⟩
    obtain ⟨n, hn⟩ := hA.of_isSingleton hone (σ := σ)
    rw [hns] at hn
    cases hn
    exact ⟨hsorted hone, by cases n <;> simp⟩
  · rename_i base predicate
    rw [Expr.Means] at hD
    obtain ⟨A, B, hA, hB, rfl⟩ := hD
    split at hen
    · rename_i hempty
      cases hen
      rw [hA.of_isEmptyNodeSet hempty]
      exact ⟨[], rfl, .ofOption W (by simp), by rintro ⟨⟩⟩
    · obtain ⟨nodes, hnodes, hen⟩ := bind_eq_ok.mp hen
      obtain ⟨ns, hns, hlists, -⟩ := hE.enumerate hA hc hσ hnodes
      refine ⟨_, by rw [Meaning.filter, hns, Meaning.select], ?_, by rintro ⟨⟩⟩
      split at hen
      · obtain ⟨ordered, hordered, hen⟩ := bind_eq_ok.mp hen
        obtain ⟨hlists, hsorted⟩ := hlists.inDocumentOrder W hordered
        cases hen
        exact hE.lists_filter W hB hc hσ hlists fun _ => hsorted
      · rename_i hpositional
        cases hen
        exact hE.lists_filter W hB hc hσ hlists fun hp => absurd hp hpositional
  · rename_i op lhs rhs
    obtain ⟨left, hleft, hen⟩ := bind_eq_ok.mp hen
    obtain ⟨right, hright, hen⟩ := bind_eq_ok.mp hen
    rw [Expr.Means] at hD
    obtain ⟨A, B, hA, hB, rfl⟩ := hD
    obtain ⟨as, has, hl, -⟩ := hE.enumerate hA hc hσ hleft
    obtain ⟨bs, hbs, hr, -⟩ := hE.enumerate hB hc hσ hright
    refine ⟨h.forest.combine op as bs, ?_, hl.merge W hr hen, by rintro ⟨⟩⟩
    dsimp only
    rw [has, hbs, Outcome.combine]
  · rename_i selection keys
    rw [Expr.Means] at hD
    obtain ⟨hD, Ks, hKs⟩ := hD
    obtain ⟨ns, hns, hlists⟩ := hE.lists_sort W hD hKs hc hσ hen
    exact ⟨ns, hns, hlists, by rintro ⟨⟩⟩
  · obtain ⟨v, hv, hen⟩ := bind_eq_ok.mp hen
    obtain ⟨s, hs, hen⟩ := bind_eq_ok.mp hen
    have hmeans := (hE.ruleValue W hD hc hσ hv).1
    cases v with
    | nodeSet s' =>
        cases hs
        obtain ⟨ns, hns, hlists, hsorted⟩ := NodeSet.Means.store W hmeans hen
        exact ⟨ns, hns, hlists, fun _ => hsorted⟩
    | fragment f => exact hmeans.elim
    | boolean | number | string | object => cases hs

theorem ruleFirst (hD : e.Means h.forest Φ Γ inner D) (hc : σ.Extends c) (hσ : σ.Sound h.forest Γ)
    {n : Option Node} (hn : E.ruleFirst h e c = .ok n) : ∃ ns, D σ = .nodes ns ∧ n = ns.head? := by
  obtain ⟨en, hen, hn⟩ := bind_eq_ok.mp hn
  obtain ⟨ns, hns, hlists, -⟩ := hE.ruleEnumerate W hD hc hσ hen
  exact ⟨ns, hns, hlists.first? hn⟩

theorem ruleTruth (hD : e.Means h.forest Φ Γ inner D) (hc : σ.Extends c) (hσ : σ.Sound h.forest Γ)
    {b : Bool} (hb : E.ruleTruth h e c = .ok b) : b = (D σ).holds ∧ e.Types (D σ) := by
  unfold Engine.ruleTruth at hb
  split at hb
  · rename_i hnodes
    obtain ⟨en, hen, hb⟩ := bind_eq_ok.mp hb
    obtain ⟨first, hfirst, hb⟩ := bind_eq_ok.mp hb
    obtain ⟨ns, hns, hlists, -⟩ := hE.ruleEnumerate W hD hc hσ hen
    refine ⟨?_, Expr.types_of_nodes hnodes hns⟩
    cases hb
    rw [hns, hlists.covers.firstItem hfirst]
    rfl
  · rename_i hnodes
    obtain ⟨v, hv, hb⟩ := bind_eq_ok.mp hb
    exact ⟨(hE.ruleValue W hD hc hσ hv).1.toBool W hb, hD.types (Bool.eq_false_iff.mpr hnodes)⟩

theorem ruleNumber (hD : e.Means h.forest Φ Γ inner D) (hc : σ.Extends c) (hσ : σ.Sound h.forest Γ)
    {x : Float} (hx : E.ruleNumber h e c = .ok x) :
    x = (D σ).toNumber h.forest ∧ e.Types (D σ) := by
  unfold Engine.ruleNumber at hx
  split at hx
  · rename_i hnodes
    obtain ⟨first, hfirst, hx⟩ := bind_eq_ok.mp hx
    obtain ⟨ns, hns, rfl⟩ := hE.ruleFirst W hD hc hσ hfirst
    refine ⟨?_, Expr.types_of_nodes hnodes hns⟩
    rw [hns]
    cases ns with
    | nil =>
        rw [← pure_eq_ok.mp hx]
        exact Number.ofText_empty.symm
    | cons n ns => exact (pure_eq_ok.mp hx).symm
  · rename_i hnodes
    obtain ⟨v, hv, hx⟩ := bind_eq_ok.mp hx
    exact ⟨(hE.ruleValue W hD hc hσ hv).1.toNumber W hx, hD.types (Bool.eq_false_iff.mpr hnodes)⟩

theorem ruleText (hD : e.Means h.forest Φ Γ inner D) (hc : σ.Extends c) (hσ : σ.Sound h.forest Γ)
    {t : String} (ht : E.ruleText h e c = .ok t) : t = (D σ).text h.forest := by
  unfold Engine.ruleText at ht
  split at ht
  · obtain ⟨first, hfirst, ht⟩ := bind_eq_ok.mp ht
    obtain ⟨ns, hns, rfl⟩ := hE.ruleFirst W hD hc hσ hfirst
    cases ht
    rw [hns]
    rfl
  · obtain ⟨v, hv, ht⟩ := bind_eq_ok.mp ht
    exact (hE.ruleValue W hD hc hσ hv).1.toText W ht

theorem next : (E.next h).Sound h.forest Φ Γ where
  value hD hc hσ := hE.ruleValue W hD hc hσ
  truth hD hc hσ := hE.ruleTruth W hD hc hσ
  number hD hc hσ := hE.ruleNumber W hD hc hσ
  text hD hc hσ := hE.ruleText W hD hc hσ
  first hD hc hσ := hE.ruleFirst W hD hc hσ
  enumerate hD hc hσ := hE.ruleEnumerate W hD hc hσ

end Engine.Sound

theorem Engine.sound_exhausted (F : Forest) (Φ : Calls F) (Γ : Typing) :
    Engine.exhausted.Sound F Φ Γ where
  value _ _ _ hv := by cases hv
  truth _ _ _ hb := by cases hb
  number _ _ _ hx := by cases hx
  text _ _ _ ht := by cases ht
  first _ _ _ hn := by cases hn
  enumerate _ _ _ hen := by cases hen

theorem Host.sound_engine [h.Realizes Φ Γ] (W : h.forest.WellFormed) (depth : Nat) :
    (h.engine depth).Sound h.forest Φ Γ := by
  induction depth with
  | zero => exact Engine.sound_exhausted h.forest Φ Γ
  | succ depth ih => exact ih.next W

end XPath
