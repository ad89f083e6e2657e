import XPath.Proofs.Function.Call

/-!
# Meanings and the facets of the context

A meaning in a context in which the facets of a mask were rebound (`Meaning.rebind`) is built from
the meanings of the parts in the same way; inside predicates and sort keys only the outer facets
are rebound. An expression that depends on no facet of the mask keeps its meaning
(`Expr.Means.rebind_eq`).
-/

namespace XPath

variable {F : Forest} {Φ : Calls F} {Γ Γ' : Typing} {inner : Bool} {m : Dependencies}
  {σ τ : Context} {D A B : Meaning} {Ds Bs : List Meaning}

namespace Meaning

def rebind (m : Dependencies) (τ : Context) (D : Meaning) : Meaning := fun σ => D (σ.rebind m τ)

@[simp] theorem rebind_const (m : Dependencies) (τ : Context) (w : Outcome) :
    rebind m τ (fun _ => w) = fun _ => w := rfl

theorem keep_rebind (m : Dependencies) (τ : Context) (B : Meaning) (σ : Context) :
    (rebind (m &&& .outer) τ B).keep σ = B.keep (σ.rebind m τ) := by
  funext ns
  unfold keep rebind
  simp only [Context.rebind_forItem]

theorem select_rebind (m : Dependencies) (τ : Context) (B : Meaning) (σ : Context) :
    (rebind (m &&& .outer) τ B).select σ = B.select (σ.rebind m τ) := by
  funext w
  cases w with
  | nodes ns => rw [select, select, keep_rebind]
  | boolean | number | string | object =>
      unfold select rebind
      simp only [Context.rebind_forItem]

theorem filter_rebind (m : Dependencies) (τ : Context) (A B : Meaning) :
    rebind m τ (filter A B) = filter (rebind m τ A) (rebind (m &&& .outer) τ B) := by
  funext σ
  unfold filter
  rw [select_rebind]
  rfl

theorem stepNodes_rebind (m : Dependencies) (τ : Context) (axis : Axis) (test : NodeTest)
    (Bs : List Meaning) (σ : Context) :
    stepNodes F axis test (Bs.map (rebind (m &&& .outer) τ)) σ =
      stepNodes F axis test Bs (σ.rebind m τ) := by
  funext n
  unfold stepNodes
  rw [List.foldl_map]
  simp only [keep_rebind]

theorem path_rebind (m : Dependencies) (τ : Context) (A : Meaning) (axis : Axis)
    (test : NodeTest) (Bs : List Meaning) :
    rebind m τ (path F A axis test Bs) =
      path F (rebind m τ A) axis test (Bs.map (rebind (m &&& .outer) τ)) := by
  funext σ
  simp only [path, rebind, stepNodes_rebind, List.foldl_map, select_rebind]

theorem Settled.rebind {f : ExtensionFunction} (h : D.Settled f) : (D.rebind m τ).Settled f := by
  refine h.imp_right fun hsame σ ρ => ?_
  unfold Meaning.rebind
  rw [Context.rebind_rebind, hsame]

end Meaning

/-- A call does not depend on facets that neither the function nor its arguments read. -/
theorem ExtensionFunction.Answers.rebind_eq {f : ExtensionFunction}
    {answer : List Outcome → Meaning} (h : f.Answers F answer)
    (hf : f.dependencies.intersects m = false) {As : List Meaning}
    (hAs : As.map (.rebind m τ) = As) :
    Meaning.rebind m τ (fun σ => answer (As.map fun A => A σ) σ) =
      fun σ => answer (As.map fun A => A σ) σ := by
  funext σ
  have hmap := congrArg (List.map fun A : Meaning => A σ) hAs
  rw [List.map_map] at hmap
  exact (h.reads m _ σ τ hf).trans (congrArg (answer · σ) hmap)

def KeyMeaning.rebind (m : Dependencies) (τ : Context) (K : KeyMeaning) : KeyMeaning where
  key := K.key.rebind (m &&& .outer) τ
  order := K.order.map (.rebind m τ)
  dataType := K.dataType.map (.rebind m τ)
  caseOrder := K.caseOrder.map (.rebind m τ)
  lang := K.lang.map (.rebind m τ)

namespace Dependencies

@[simp] theorem intersects_or (a b m : Dependencies) :
    (a ||| b).intersects m = (a.intersects m || b.intersects m) := by
  rw [Bool.eq_iff_iff, Bool.or_eq_true, intersects_iff, intersects_iff, intersects_iff,
    ← exists_or]
  exact exists_congr fun i => by simp [or_and_right]

@[simp] theorem intersects_and_outer (a m : Dependencies) :
    (a &&& .outer).intersects m = a.intersects (m &&& .outer) := by
  rw [Bool.eq_iff_iff, intersects_iff, intersects_iff]
  exact exists_congr fun i => by
    rw [bit_and, bit_and, Bool.and_eq_true, Bool.and_eq_true]
    tauto

end Dependencies

/-! ## Expressions that do not depend on the mask -/

namespace Expr

theorem MeansList.length_eq {es : List Expr} (h : MeansList F Φ Γ inner es Ds) :
    es.length = Ds.length := by
  induction es generalizing Ds with
  | nil =>
      rw [MeansList] at h
      rw [h]
      rfl
  | cons e es ih =>
      rw [MeansList] at h
      obtain ⟨D, Ds, -, hDs, rfl⟩ := h
      rw [List.length_cons, List.length_cons, ih hDs]

mutual

theorem Means.rebind_eq {inner : Bool} {e : Expr} {m : Dependencies} {D : Meaning}
    (W : F.WellFormed) (h : e.Means F Φ Γ inner D)
    (hm : e.dependencies.intersects m = false) : D.rebind m τ = D := by
  match e with
  | literal v | reference name display (some v) =>
      rw [Means] at h
      obtain ⟨w, -, rfl⟩ := h
      rfl
  | reference name display none =>
      rw [Means] at h
      rw [dependencies] at hm
      funext σ
      unfold Meaning.rebind
      rw [h.2, Meaning.binding, Meaning.binding, Context.valueOf, Context.valueOf,
        (Context.rebind_facet hm).1 (by simp)]
  | binary op lhs rhs =>
      rw [Means] at h
      rw [dependencies, Dependencies.intersects_or, Bool.or_eq_false_iff] at hm
      obtain ⟨A, B, hA, hB, -, rfl⟩ := h
      change (fun σ => (A.rebind m τ σ).binary F op (B.rebind m τ σ)) = _
      rw [hA.rebind_eq W hm.1, hB.rebind_eq W hm.2]
  | negate e =>
      rw [Means] at h
      rw [dependencies] at hm
      obtain ⟨A, hA, rfl⟩ := h
      change (fun σ => Outcome.number (-(A.rebind m τ σ).toNumber F)) = _
      rw [hA.rebind_eq W hm]
  | nodeComparison node op v =>
      rw [Means] at h
      rw [dependencies] at hm
      obtain ⟨-, -, A, hA, rfl⟩ := h
      change (fun σ => Outcome.boolean ((A.rebind m τ σ).compare F op (v.outcome F))) = _
      rw [hA.rebind_eq W hm]
  | contextNode | parentNode | root =>
      rw [Means] at h
      rw [dependencies] at hm
      funext σ
      rw [h, Meaning.rebind, Meaning.oneNode, Meaning.oneNode,
        (Context.rebind_facet hm).2.2.1 (by simp)]
  | attributeNamed name display (some n) =>
      rw [Means] at h
      rw [h.2]
      rfl
  | attributeNamed name display none =>
      rw [Means] at h
      rw [dependencies] at hm
      funext σ
      rw [h.2, Meaning.rebind, Meaning.oneNode, Meaning.oneNode,
        (Context.rebind_facet hm).2.2.1 (by simp)]
  | path start axis test predicates =>
      rw [Means] at h
      rw [dependencies, Dependencies.intersects_or, Bool.or_eq_false_iff,
        Dependencies.intersects_and_outer] at hm
      obtain ⟨-, A, Bs, hA, hBs, rfl⟩ := h
      rw [Meaning.path_rebind, hA.rebind_eq W hm.1, MeansList.rebind_eq W hBs hm.2]
  | filter base predicate =>
      rw [Means] at h
      rw [dependencies, Dependencies.intersects_or, Bool.or_eq_false_iff,
        Dependencies.intersects_and_outer] at hm
      obtain ⟨A, B, hA, hB, rfl⟩ := h
      rw [Meaning.filter_rebind, hA.rebind_eq W hm.1, hB.rebind_eq W hm.2]
  | setOperation op lhs rhs =>
      rw [Means] at h
      rw [dependencies, Dependencies.intersects_or, Bool.or_eq_false_iff] at hm
      obtain ⟨A, B, hA, hB, rfl⟩ := h
      change (fun σ => Outcome.combine F op (A.rebind m τ σ) (B.rebind m τ σ)) = _
      rw [hA.rebind_eq W hm.1, hB.rebind_eq W hm.2]
  | call function args binding =>
      rw [Means] at h
      rw [dependencies, Dependencies.intersects_or, Bool.or_eq_false_iff] at hm
      obtain ⟨-, As, hAs, rfl⟩ := h
      have hargs := MeansList.rebind_eq W hAs hm.2
      rw [hAs.length_eq] at hm
      funext σ
      have hbit (i : Nat) :
          (intrinsicDependencies function As.length binding &&& m).bit i = false := by
        rw [Dependencies.bit_and, Bool.and_eq_false_imp]
        exact Dependencies.not_intersects hm.1
      refine Meaning.call_congr W (Meaning.agree_rebind rfl rfl (hbit 2) (hbit 4) (hbit 5) ?_ ?_) ?_
      · simp [hbit]
      · simp [hbit]
      · have hmap := congrArg (List.map fun A : Meaning => A σ) hargs
        rwa [List.map_map] at hmap
  | extension name display function args =>
      rw [Means] at h
      rw [dependencies, Dependencies.intersects_or, Bool.or_eq_false_iff] at hm
      obtain ⟨hknown, -, As, hAs, -, rfl⟩ := h
      exact (Φ.answers hknown).rebind_eq hm.1 (MeansList.rebind_eq W hAs hm.2)
  | sorted selection keys =>
      rw [Means] at h
      rw [dependencies, Dependencies.intersects_or, Bool.or_eq_false_iff] at hm
      exact h.1.rebind_eq W hm.1
  | template parts =>
      rw [Means] at h
      rw [dependencies] at hm
      obtain ⟨As, hAs, rfl⟩ := h
      have hparts := MeansParts.rebind_eq W hAs hm
      funext σ
      have hmap := congrArg (List.map fun A : Meaning => (A σ).text F) hparts
      rw [List.map_map] at hmap
      exact congrArg (fun ts => Outcome.string (String.join ts)) hmap
  | failure e =>
      rw [Means] at h
      rw [h]
      rfl

theorem MeansList.rebind_eq {inner : Bool} {es : List Expr} {m : Dependencies} {Ds : List Meaning}
    (W : F.WellFormed) (h : MeansList F Φ Γ inner es Ds)
    (hm : (dependenciesOfList es).intersects m = false) : Ds.map (.rebind m τ) = Ds := by
  match es with
  | [] =>
      rw [MeansList] at h
      rw [h]
      rfl
  | e :: es =>
      rw [MeansList] at h
      rw [dependenciesOfList, Dependencies.intersects_or, Bool.or_eq_false_iff] at hm
      obtain ⟨D, Ds, hD, hDs, rfl⟩ := h
      rw [List.map_cons, hD.rebind_eq W hm.1, MeansList.rebind_eq W hDs hm.2]

theorem MeansParts.rebind_eq {inner : Bool} {ps : List TemplatePart} {m : Dependencies}
    {Ds : List Meaning} (W : F.WellFormed) (h : MeansParts F Φ Γ inner ps Ds)
    (hm : (dependenciesOfParts ps).intersects m = false) : Ds.map (.rebind m τ) = Ds := by
  match ps with
  | [] =>
      rw [MeansParts] at h
      rw [h]
      rfl
  | .text text :: ps =>
      rw [MeansParts] at h
      rw [dependenciesOfParts, Dependencies.intersects_or, Bool.or_eq_false_iff] at hm
      obtain ⟨D, Ds, hD, hDs, rfl⟩ := h
      rw [MeansPart] at hD
      rw [List.map_cons, MeansParts.rebind_eq W hDs hm.2, hD]
      rfl
  | .expr e :: ps =>
      rw [MeansParts] at h
      rw [dependenciesOfParts, dependenciesOfPart, Dependencies.intersects_or,
        Bool.or_eq_false_iff] at hm
      obtain ⟨D, Ds, hD, hDs, rfl⟩ := h
      rw [MeansPart] at hD
      rw [List.map_cons, MeansParts.rebind_eq W hDs hm.2, hD.rebind_eq W hm.1]

end

theorem MeansOption.rebind_eq (W : F.WellFormed) {e : Option Expr} {D : Option Meaning}
    (h : MeansOption F Φ Γ inner e D) (hm : (dependenciesOfOption e).intersects m = false) :
    D.map (.rebind m τ) = D := by
  cases e with
  | none =>
      rw [MeansOption] at h
      rw [h]
      rfl
  | some e =>
      rw [MeansOption] at h
      obtain ⟨D, hD, rfl⟩ := h
      rw [Option.map_some, hD.rebind_eq W hm]

theorem MeansKey.rebind_eq (W : F.WellFormed) {k : SortKey} {K : KeyMeaning}
    (h : MeansKey F Φ Γ inner k K) (hm : (dependenciesOfKey k).intersects m = false) :
    K.rebind m τ = K := by
  obtain ⟨key, order, dataType, caseOrder, lang⟩ := k
  rw [MeansKey] at h
  simp only [dependenciesOfKey, Dependencies.intersects_or, Bool.or_eq_false_iff,
    Dependencies.intersects_and_outer] at hm
  obtain ⟨hkey, horder, htype, hcase, hlang⟩ := h
  unfold KeyMeaning.rebind
  rw [hkey.rebind_eq W hm.1.1.1.1, horder.rebind_eq W hm.1.1.1.2, htype.rebind_eq W hm.1.1.2,
    hcase.rebind_eq W hm.1.2, hlang.rebind_eq W hm.2]

theorem MeansKeys.rebind_eq (W : F.WellFormed) {ks : List SortKey} {Ks : List KeyMeaning}
    (h : MeansKeys F Φ Γ inner ks Ks) (hm : (dependenciesOfKeys ks).intersects m = false) :
    Ks.map (.rebind m τ) = Ks := by
  induction ks generalizing Ks with
  | nil =>
      rw [MeansKeys] at h
      rw [h]
      rfl
  | cons k ks ih =>
      rw [MeansKeys] at h
      rw [dependenciesOfKeys, Dependencies.intersects_or, Bool.or_eq_false_iff] at hm
      obtain ⟨K, Ks, hK, hKs, rfl⟩ := h
      rw [List.map_cons, MeansKey.rebind_eq W hK hm.1, ih hKs hm.2]

/-! ## Another typing of the variables -/

theorem MeansList.lists_retype (W : F.WellFormed) (hτ : τ.Sound F Γ)
    (hΓ : m.bit 0 = false → Γ' = Γ) {es : List Expr} (h : MeansList F Φ Γ inner es Ds)
    (hlists : List.Forall₂ (Lists F Γ) es Ds) (hm : (dependenciesOfList es).intersects m = false) :
    List.Forall₂ (Lists F Γ') es Ds := by
  induction hlists with
  | nil => exact .nil
  | cons hlist hlists ih =>
      rw [MeansList] at h
      rw [dependenciesOfList, Dependencies.intersects_or, Bool.or_eq_false_iff] at hm
      obtain ⟨D, Ds, hD, hDs, heq⟩ := h
      cases heq
      refine .cons (fun hlazy σ hσ => ?_) (ih hDs hm.2)
      rw [← hD.rebind_eq W hm.1]
      exact hlist hlazy _ (hσ.rebind hτ hΓ)

mutual

/-- An expression that does not depend on a mask keeps its meaning under a typing that differs only
in what the mask covers. -/
theorem Means.retype {inner : Bool} {e : Expr} {m : Dependencies} {D : Meaning} (W : F.WellFormed)
    (hτ : τ.Sound F Γ) (hΓ : m.bit 0 = false → Γ' = Γ) (h : e.Means F Φ Γ inner D)
    (hm : e.dependencies.intersects m = false) : e.Means F Φ Γ' inner D := by
  match e with
  | literal v | reference name display (some v) | contextNode | parentNode | root
  | attributeNamed name display parent | failure e =>
      rw [Means] at h ⊢
      exact h
  | reference name display none =>
      rw [Means] at h ⊢
      rw [dependencies] at hm
      rw [hΓ (Dependencies.not_intersects hm (by simp))]
      exact h
  | binary op lhs rhs =>
      rw [Means] at h ⊢
      rw [dependencies, Dependencies.intersects_or, Bool.or_eq_false_iff] at hm
      obtain ⟨A, B, hA, hB, hcompares, rfl⟩ := h
      refine ⟨A, B, hA.retype W hτ hΓ hm.1, hB.retype W hτ hΓ hm.2, ?_, rfl⟩
      intro hop hlazy σ hσ hempty
      rw [← hA.rebind_eq W hm.1] at hempty ⊢
      rw [← hB.rebind_eq W hm.2]
      exact hcompares hop hlazy _ (hσ.rebind hτ hΓ) hempty
  | negate e =>
      rw [Means] at h ⊢
      rw [dependencies] at hm
      obtain ⟨A, hA, rfl⟩ := h
      exact ⟨A, hA.retype W hτ hΓ hm, rfl⟩
  | nodeComparison node op v =>
      rw [Means] at h ⊢
      rw [dependencies] at hm
      obtain ⟨hnode, hv, A, hA, rfl⟩ := h
      exact ⟨hnode, hv, A, hA.retype W hτ hΓ hm, rfl⟩
  | path start axis test predicates =>
      rw [Means] at h ⊢
      rw [dependencies, Dependencies.intersects_or, Bool.or_eq_false_iff,
        Dependencies.intersects_and_outer] at hm
      obtain ⟨hfits, A, Bs, hA, hBs, rfl⟩ := h
      exact ⟨hfits, A, Bs, hA.retype W hτ hΓ hm.1,
        MeansList.retype W hτ (fun h0 => hΓ (by simpa using h0)) hBs hm.2, rfl⟩
  | filter base predicate =>
      rw [Means] at h ⊢
      rw [dependencies, Dependencies.intersects_or, Bool.or_eq_false_iff,
        Dependencies.intersects_and_outer] at hm
      obtain ⟨A, B, hA, hB, rfl⟩ := h
      exact ⟨A, B, hA.retype W hτ hΓ hm.1,
        hB.retype W hτ (fun h0 => hΓ (by simpa using h0)) hm.2, rfl⟩
  | setOperation op lhs rhs =>
      rw [Means] at h ⊢
      rw [dependencies, Dependencies.intersects_or, Bool.or_eq_false_iff] at hm
      obtain ⟨A, B, hA, hB, rfl⟩ := h
      exact ⟨A, B, hA.retype W hτ hΓ hm.1, hB.retype W hτ hΓ hm.2, rfl⟩
  | call function args binding =>
      rw [Means] at h ⊢
      rw [dependencies, Dependencies.intersects_or, Bool.or_eq_false_iff] at hm
      obtain ⟨hbinding, As, hAs, rfl⟩ := h
      exact ⟨hbinding, As, MeansList.retype W hτ hΓ hAs hm.2, rfl⟩
  | extension name display function args =>
      rw [Means] at h ⊢
      rw [dependencies, Dependencies.intersects_or, Bool.or_eq_false_iff] at hm
      obtain ⟨hknown, hsettled, As, hAs, hlists, rfl⟩ := h
      exact ⟨hknown, hsettled, As, MeansList.retype W hτ hΓ hAs hm.2,
        MeansList.lists_retype W hτ hΓ hAs hlists hm.2, rfl⟩
  | sorted selection keys =>
      rw [Means] at h ⊢
      rw [dependencies, Dependencies.intersects_or, Bool.or_eq_false_iff] at hm
      obtain ⟨hD, Ks, hKs⟩ := h
      exact ⟨hD.retype W hτ hΓ hm.1, Ks, MeansKeys.retype W hτ hΓ hKs hm.2⟩
  | template parts =>
      rw [Means] at h ⊢
      rw [dependencies] at hm
      obtain ⟨As, hAs, rfl⟩ := h
      exact ⟨As, MeansParts.retype W hτ hΓ hAs hm, rfl⟩

theorem MeansList.retype {inner : Bool} {es : List Expr} {m : Dependencies} {Ds : List Meaning}
    (W : F.WellFormed) (hτ : τ.Sound F Γ) (hΓ : m.bit 0 = false → Γ' = Γ)
    (h : MeansList F Φ Γ inner es Ds) (hm : (dependenciesOfList es).intersects m = false) :
    MeansList F Φ Γ' inner es Ds := by
  match es with
  | [] => exact h
  | e :: es =>
      rw [MeansList] at h ⊢
      rw [dependenciesOfList, Dependencies.intersects_or, Bool.or_eq_false_iff] at hm
      obtain ⟨D, Ds, hD, hDs, rfl⟩ := h
      exact ⟨D, Ds, hD.retype W hτ hΓ hm.1, MeansList.retype W hτ hΓ hDs hm.2, rfl⟩

theorem MeansOption.retype {inner : Bool} {e : Option Expr} {m : Dependencies} {D : Option Meaning}
    (W : F.WellFormed) (hτ : τ.Sound F Γ) (hΓ : m.bit 0 = false → Γ' = Γ)
    (h : MeansOption F Φ Γ inner e D) (hm : (dependenciesOfOption e).intersects m = false) :
    MeansOption F Φ Γ' inner e D := by
  match e with
  | none => exact h
  | some e =>
      rw [MeansOption] at h ⊢
      obtain ⟨D, hD, rfl⟩ := h
      exact ⟨D, hD.retype W hτ hΓ hm, rfl⟩

theorem MeansKeys.retype {inner : Bool} {ks : List SortKey} {m : Dependencies} {Ks : List KeyMeaning}
    (W : F.WellFormed) (hτ : τ.Sound F Γ) (hΓ : m.bit 0 = false → Γ' = Γ)
    (h : MeansKeys F Φ Γ inner ks Ks) (hm : (dependenciesOfKeys ks).intersects m = false) :
    MeansKeys F Φ Γ' inner ks Ks := by
  match ks with
  | [] => exact h
  | .mk key order dataType caseOrder lang :: ks =>
      rw [MeansKeys] at h ⊢
      simp only [dependenciesOfKeys, dependenciesOfKey, Dependencies.intersects_or,
        Bool.or_eq_false_iff, Dependencies.intersects_and_outer] at hm
      obtain ⟨K, Ks, hK, hKs, rfl⟩ := h
      rw [MeansKey] at hK
      obtain ⟨hkey, horder, htype, hcase, hlang⟩ := hK
      refine ⟨K, Ks, ?_, MeansKeys.retype W hτ hΓ hKs hm.2, rfl⟩
      rw [MeansKey]
      exact ⟨hkey.retype W hτ (fun h0 => hΓ (by simpa using h0)) hm.1.1.1.1.1,
        MeansOption.retype W hτ hΓ horder hm.1.1.1.1.2,
        MeansOption.retype W hτ hΓ htype hm.1.1.1.2, MeansOption.retype W hτ hΓ hcase hm.1.1.2,
        MeansOption.retype W hτ hΓ hlang hm.1.2⟩

theorem MeansParts.retype {inner : Bool} {ps : List TemplatePart} {m : Dependencies} {Ds : List Meaning}
    (W : F.WellFormed) (hτ : τ.Sound F Γ) (hΓ : m.bit 0 = false → Γ' = Γ)
    (h : MeansParts F Φ Γ inner ps Ds) (hm : (dependenciesOfParts ps).intersects m = false) :
    MeansParts F Φ Γ' inner ps Ds := by
  match ps with
  | [] => exact h
  | .text text :: ps =>
      rw [MeansParts] at h ⊢
      rw [dependenciesOfParts, Dependencies.intersects_or, Bool.or_eq_false_iff] at hm
      obtain ⟨D, Ds, hD, hDs, rfl⟩ := h
      exact ⟨D, Ds, hD, MeansParts.retype W hτ hΓ hDs hm.2, rfl⟩
  | .expr e :: ps =>
      rw [MeansParts] at h ⊢
      rw [dependenciesOfParts, dependenciesOfPart, Dependencies.intersects_or,
        Bool.or_eq_false_iff] at hm
      obtain ⟨D, Ds, hD, hDs, rfl⟩ := h
      rw [MeansPart] at hD
      exact ⟨D, Ds, hD.retype W hτ hΓ hm.1, MeansParts.retype W hτ hΓ hDs hm.2, rfl⟩

end

end Expr

end XPath
