import XPath.Proofs.Evaluation.Operators
import XPath.Sorting

/-!
# Sorts

A sort lists the nodes of its selection in an order that the meanings of its keys decide
(`Engine.Sound.sort`): the same nodes, whichever order that is (`Engine.Sound.lists_sort`).
-/

namespace XPath

variable {α : Type} {F : Forest} {Φ : Calls F} {E : Engine} {Γ : Typing} {inner : Bool}
  {c σ : Context} {n : Node} {ns ms : List Node}
  {en : Enumeration} {selection : Expr} {D : Meaning} {k : SortKey} {keys : List SortKey}
  {K : KeyMeaning} {Ks : List KeyMeaning} {comparers : List Comparer}

/-! ## Insertion -/

theorem insertLatest_perm (before : α → α → Bool) (x : α) (ys : List α) :
    (insertLatest before x ys).Perm (x :: ys) := by
  induction ys with
  | nil => exact List.Perm.refl _
  | cons y ys ih =>
      rw [insertLatest]
      split
      · exact (ih.cons y).trans (List.Perm.swap x y ys)
      · exact List.Perm.refl _

theorem sortByInsertion_perm (before : α → α → Bool) (xs : List α) :
    (sortByInsertion before xs).Perm xs := by
  have hfold (latest : List α) :
      (xs.foldl (fun latest x => insertLatest before x latest) latest).Perm (xs.reverse ++ latest) := by
    induction xs generalizing latest with
    | nil => exact List.Perm.refl _
    | cons x xs ih =>
        rw [List.foldl_cons, List.reverse_cons, List.append_assoc]
        exact (ih _).trans ((insertLatest_perm before x latest).append_left _)
  have hreverse := hfold []
  rw [List.append_nil] at hreverse
  exact (List.reverse_perm _).trans (hreverse.trans (List.reverse_perm xs))

/-! ## The order that keys decide -/

namespace KeyMeaning

def attributes (K : KeyMeaning) (σ : Context) : SortKey :=
  .mk (.string "") (K.order.map fun A => .literal (A σ).value)
    (K.dataType.map fun A => .literal (A σ).value)
    (K.caseOrder.map fun A => .literal (A σ).value) (K.lang.map fun A => .literal (A σ).value)

def comparer (F : Forest) (K : KeyMeaning) (σ : Context) : Except Error Comparer :=
  (Engine.constants F).comparer σ (K.attributes σ)

def values (F : Forest) (Ks : List (KeyMeaning × Comparer)) (σ : Context) : List SortValue :=
  Ks.map fun (K, comparer) => comparer.prepare ((K.key σ).text F)

end KeyMeaning

namespace Meaning

/-- The nodes of a list in the order of sort keys, each at its position in the list. -/
def sort (F : Forest) (Ks : List KeyMeaning) (comparers : List Comparer) (σ : Context)
    (ns : List Node) : List Node :=
  (sortByInsertion before ((ns.zipIdx 1).map fun (n, k) =>
    (n, KeyMeaning.values F (Ks.zip comparers) (σ.forItem n k (.known ns.length))))).map (·.1)
where
  before (a b : Node × List SortValue) : Bool :=
    (compareSortValues comparers a.2 b.2).then (F.compareNodes a.1 b.1) == .lt

theorem sort_perm (Ks : List KeyMeaning) (comparers : List Comparer) (σ : Context)
    (ns : List Node) : (sort F Ks comparers σ ns).Perm ns := by
  unfold sort
  refine ((sortByInsertion_perm _ _).map _).trans ?_
  rw [List.map_map]
  exact List.Perm.of_eq (List.zipIdx_map_fst 1 ns)

end Meaning

namespace Engine.Sound

variable (hE : E.Sound F Φ Γ)

include hE

theorem sortAttribute {e : Option Expr} {A : Option Meaning} (hA : Expr.MeansOption F Φ Γ inner e A)
    (hc : σ.Extends c) (hσ : σ.Sound F Γ) (default : String) :
    Refines (E.sortAttribute c e default)
      ((constants F).sortAttribute σ (A.map fun A => .literal (A σ).value) default) := by
  intro t ht
  cases e with
  | none =>
      rw [Expr.MeansOption] at hA
      rw [hA]
      exact ht
  | some e =>
      rw [Expr.MeansOption] at hA
      obtain ⟨A, hA, rfl⟩ := hA
      rw [hE.text hA hc hσ ht]
      exact text_constants (A σ)

theorem textComparer {lang : Option Expr} {A : Option Meaning}
    (hA : Expr.MeansOption F Φ Γ inner lang A) (hc : σ.Extends c) (hσ : σ.Sound F Γ)
    (lowerFirst : Option Bool) :
    Refines (E.textComparer c lang lowerFirst)
      ((constants F).textComparer σ (A.map fun A => .literal (A σ).value) lowerFirst) := by
  cases lang with
  | none =>
      rw [Expr.MeansOption] at hA
      rw [hA]
      cases lowerFirst <;> exact Refines.refl _
  | some e =>
      have htext := hE.sortAttribute hA hc hσ ""
      rw [Expr.MeansOption] at hA
      obtain ⟨A, -, rfl⟩ := hA
      exact htext.map _

theorem comparer (hK : Expr.MeansKey F Φ Γ inner k K) (hc : σ.Extends c) (hσ : σ.Sound F Γ) :
    Refines (E.comparer c k) (K.comparer F σ) := by
  obtain ⟨key, order, dataType, caseOrder, lang⟩ := k
  rw [Expr.MeansKey] at hK
  obtain ⟨-, horder, htype, hcase, hlang⟩ := hK
  unfold KeyMeaning.comparer Engine.comparer
  refine (hE.sortAttribute horder hc hσ _).bind fun order => ?_
  dsimp only
  refine .ite _ (.refl _) ((hE.sortAttribute hcase hc hσ _).bind fun caseOrder => ?_)
  split
  case h_4 => exact .error _ _
  all_goals
    refine (hE.sortAttribute htype hc hσ _).bind fun dataType => .ite _ (.refl _) ?_
    exact .ite _ ((hE.textComparer hlang hc hσ _).bind fun comparer => .refl _) (.refl _)

theorem mapM_comparer (hKs : Expr.MeansKeys F Φ Γ inner keys Ks) (hc : σ.Extends c) (hσ : σ.Sound F Γ)
    (h : keys.mapM (E.comparer c) = .ok comparers) :
    Ks.mapM (·.comparer F σ) = .ok comparers := by
  rw [mapM_eq_ok] at h ⊢
  induction keys generalizing Ks comparers with
  | nil =>
      rw [Expr.MeansKeys] at hKs
      rw [hKs]
      cases h
      exact .nil
  | cons k keys ih =>
      rw [Expr.MeansKeys] at hKs
      obtain ⟨K, Ks, hK, hKs, rfl⟩ := hKs
      cases h with
      | cons hcomparer h => exact .cons (hE.comparer hK hc hσ _ hcomparer) (ih hKs h)

theorem sortValues (hKs : Expr.MeansKeys F Φ Γ inner keys Ks) (hc : σ.Extends c) (hσ : σ.Sound F Γ)
    {values : List SortValue} (h : E.sortValues c (keys.zip comparers) = .ok values) :
    values = KeyMeaning.values F (Ks.zip comparers) σ := by
  induction keys generalizing Ks comparers values with
  | nil =>
      rw [Expr.MeansKeys] at hKs
      rw [hKs]
      cases h
      rfl
  | cons k keys ih =>
      rw [Expr.MeansKeys] at hKs
      obtain ⟨K, Ks, hK, hKs, rfl⟩ := hKs
      cases comparers with
      | nil =>
          cases h
          rfl
      | cons comparer comparers =>
          obtain ⟨text, htext, h⟩ := bind_eq_ok.mp h
          obtain ⟨rest, hrest, h⟩ := bind_eq_ok.mp h
          cases h
          obtain ⟨key, order, dataType, caseOrder, lang⟩ := k
          rw [Expr.MeansKey] at hK
          rw [ih hKs hrest, hE.text hK.1 hc hσ htext]
          rfl

variable (W : F.WellFormed)

include W

/-- A sort puts the nodes of the selection in the order that the keys decide. -/
theorem sort (hD : selection.Means F Φ Γ inner D) (hKs : Expr.MeansKeys F Φ Γ inner keys Ks)
    (hc : σ.Extends c) (hσ : σ.Sound F Γ) (hen : E.sort F selection keys c = .ok en) :
    ∃ ns comparers, D σ = .nodes ns ∧ F.Ascending ns ∧ (∀ n ∈ ns, F.Has n) ∧
      Ks.mapM (·.comparer F σ) = .ok comparers ∧
      en = .ofNodes (Meaning.sort F Ks comparers σ ns) false false := by
  obtain ⟨comparers, hcomparers, hen⟩ := bind_eq_ok.mp hen
  obtain ⟨base, hbase, hen⟩ := bind_eq_ok.mp hen
  obtain ⟨ns, hns, hlists, -⟩ := hE.enumerate hD hc hσ hbase
  have hrecords {records : List (Node × List SortValue)}
      (h : ((ns.zipIdx 1).mapM fun (n, position) => do
        let values ← E.sortValues (c.forItem n position (.known ns.length)) (keys.zip comparers)
        return (n, values)) = .ok records) :
      records = (ns.zipIdx 1).map fun (n, k) =>
        (n, KeyMeaning.values F (Ks.zip comparers) (σ.forItem n k (.known ns.length))) := by
    refine eq_map_of_mapM h fun x hx record hrecord => ?_
    obtain ⟨n, k⟩ := x
    obtain ⟨values, hvalues, hrecord⟩ := bind_eq_ok.mp hrecord
    have hn := hlists.has n (List.fst_mem_of_mem_zipIdx hx)
    dsimp only
    rw [← hE.sortValues hKs (hc.forItem n k fun total h => h) (hσ.forItem hn k _) hvalues]
    exact (pure_eq_ok.mp hrecord).symm
  refine ⟨ns, comparers, hns, hlists.ascending, hlists.has,
    hE.mapM_comparer hKs hc hσ hcomparers, ?_⟩
  dsimp only at hen
  split at hen
  · obtain ⟨nodes, hnodes, hen⟩ := bind_eq_ok.mp hen
    rw [hlists.nodes_eq (by assumption) hnodes] at hen
    obtain ⟨records, h, hen⟩ := bind_eq_ok.mp hen
    rw [hrecords h] at hen
    exact (pure_eq_ok.mp hen).symm
  · obtain ⟨x, hx, hen⟩ := bind_eq_ok.mp hen
    obtain ⟨nodes, hnodes, hen⟩ := bind_eq_ok.mp hen
    rw [← pure_eq_ok.mp hnodes, ((hlists.ofEnumeration hx).sort W).1] at hen
    obtain ⟨records, h, hen⟩ := bind_eq_ok.mp hen
    rw [hrecords h] at hen
    exact (pure_eq_ok.mp hen).symm

theorem lists_sort (hD : selection.Means F Φ Γ inner D) (hKs : Expr.MeansKeys F Φ Γ inner keys Ks)
    (hc : σ.Extends c) (hσ : σ.Sound F Γ) (hen : E.sort F selection keys c = .ok en) :
    ∃ ns, D σ = .nodes ns ∧ en.Lists F ns := by
  obtain ⟨ns, comparers, hns, hascending, hhas, -, rfl⟩ := hE.sort W hD hKs hc hσ hen
  have hperm := Meaning.sort_perm (F := F) Ks comparers σ ns
  refine ⟨ns, hns, hascending, hhas, ⟨fun n hn => ?_, fun ms hms n hn => ?_⟩, ?_, ?_, ?_, ?_⟩
  · rw [Enumeration.ofNodes, leading_map_ok] at hn
    exact hperm.mem_iff.mp hn
  · rw [Enumeration.ofNodes, collect_map_ok] at hms
    cases hms
    exact hperm.mem_iff.mpr hn
  · rintro ⟨⟩
  · rintro ⟨⟩
  · rintro ⟨⟩
  · rintro ⟨⟩

end Engine.Sound

end XPath
