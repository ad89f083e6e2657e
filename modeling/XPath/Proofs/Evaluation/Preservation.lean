import XPath.Proofs.Evaluation.Answers

/-!
# Answers after simplification and reduction

A simplified expression has the answer of the expression (`Expr.Compiled.answer_of_simplify`), and so
has a reduced one in the context that it was reduced in (`Expr.Compiled.answer_of_reduce`). What was
reduced against the whole context has that answer in every context, and a sort lists its nodes in the
order that they had.
-/

namespace XPath

variable {h : Host} {Φ : Calls h.forest} {Γ : Typing} {inner : Bool} {c σ τ : Context}
  {m : Dependencies} {e e' selection : Expr}
  {keys : List SortKey} {D : Meaning} {K : KeyMeaning} {Ks : List KeyMeaning} {ns : List Node}

@[simp] theorem Context.rebind_self (c : Context) (m : Dependencies) : c.rebind m c = c := by
  simp [Context.rebind]

/-! ## The order of a sort -/

/-- With every facet rebound, the attributes of a key are those in the other context. -/
theorem KeyMeaning.comparer_rebind_all (F : Forest) (K : KeyMeaning) (σ τ : Context) :
    (K.rebind .all τ).comparer F σ = K.comparer F τ := by
  have hvalue (A : Meaning) : (A.rebind .all τ σ).value = (A τ).value := by
    rw [Meaning.rebind, Context.rebind_all]
  have hattributes : (K.rebind .all τ).attributes σ = K.attributes τ := by
    simp [KeyMeaning.attributes, KeyMeaning.rebind, Function.comp_def, hvalue]
  unfold KeyMeaning.comparer
  rw [hattributes]
  rfl

theorem KeyMeaning.values_rebind (F : Forest) (Ks : List KeyMeaning) (comparers : List Comparer)
    (σ τ : Context) (n : Node) (k : Nat) (l : LastPosition) :
    KeyMeaning.values F ((Ks.map (.rebind .all τ)).zip comparers) (σ.forItem n k l) =
      KeyMeaning.values F (Ks.zip comparers) (τ.forItem n k l) := by
  have hkey (A : Meaning) :
      A.rebind (.all &&& .outer) τ (σ.forItem n k l) = A (τ.forItem n k l) := by
    rw [Meaning.rebind, Context.rebind_forItem, Context.rebind_all]
  rw [List.zip_map_left, KeyMeaning.values, List.map_map, KeyMeaning.values]
  refine List.map_congr_left fun x _ => ?_
  simp [KeyMeaning.rebind, hkey]

theorem Meaning.sort_rebind_all (F : Forest) (Ks : List KeyMeaning) (comparers : List Comparer)
    (σ τ : Context) (ns : List Node) :
    Meaning.sort F (Ks.map (.rebind .all τ)) comparers σ ns = Meaning.sort F Ks comparers τ ns := by
  unfold Meaning.sort
  simp only [KeyMeaning.values_rebind]

theorem Meaning.sort_nil (F : Forest) (Ks : List KeyMeaning) (comparers : List Comparer)
    (σ : Context) : Meaning.sort F Ks comparers σ [] = [] := rfl

namespace Expr

variable [h.Realizes Φ Γ] (W : h.forest.WellFormed)

include W

theorem Means.drain_sorted (hD : selection.Means h.forest Φ Γ inner D)
    (hKs : MeansKeys h.forest Φ Γ inner keys Ks) (hc : c.Sound h.forest Γ)
    (hns : (sorted selection keys).drain h c = .ok ns) :
    ∃ ms comparers, D c = .nodes ms ∧ Ks.mapM (·.comparer h.forest c) = .ok comparers ∧
      ns = Meaning.sort h.forest Ks comparers c ms := by
  obtain ⟨en, hen, hns⟩ := bind_eq_ok.mp hns
  have hdepth : 2 * (sorted selection keys).size = 2 * selection.size + 2 * sizeOfKeys keys + 1 + 1 := by
    rw [size]
    omega
  rw [enumerate, engine, hdepth] at hen
  obtain ⟨ms, comparers, hms, -, -, hcomparers, rfl⟩ :=
    (h.sound_engine W _).sort W hD hKs (.refl c) hc hen
  rw [Enumeration.nodes, Enumeration.ofNodes, collect_map_ok] at hns
  cases hns
  exact ⟨ms, comparers, hms, hcomparers, rfl⟩

omit [h.Realizes Φ Γ] in
/-- A simplified sort keeps its keys, unless its selection is empty. -/
theorem Means.simplify_sorted (hD : selection.Means h.forest Φ Γ inner D)
    (hKs : MeansKeys h.forest Φ Γ inner keys Ks) (he : (sorted selection keys).simplify h.forest = .ok e') :
    (e'.isEmptyNodeSet = true ∧ e'.Means h.forest Φ Γ inner D) ∨
      ∃ selection' keys', e' = sorted selection' keys' ∧ selection'.Means h.forest Φ Γ inner D ∧
        MeansKeys h.forest Φ Γ inner keys' Ks := by
  obtain ⟨selection', hselection, hcases⟩ := Expr.simplify_sorted he
  have hD' := hD.simplify W hselection
  rcases hcases with ⟨hempty, rfl⟩ | ⟨-, keys', hkeys, rfl⟩
  · exact .inl ⟨hempty, hD'⟩
  · exact .inr ⟨_, _, rfl, hD', MeansKeys.simplifyKeys W hKs hkeys⟩

/-- A reduced sort keeps its keys, with the facets of the mask rebound. -/
theorem Means.reduce_sorted (hc : c.Sound h.forest Γ) (hD : selection.Means h.forest Φ Γ inner D)
    (hKs : MeansKeys h.forest Φ Γ inner keys Ks)
    (he : (sorted selection keys).reduce h .all c = .ok e') :
    (e'.isEmptyNodeSet = true ∧ e'.Means h.forest Φ Γ inner (D.rebind .all c)) ∨
      ∃ selection' keys', e' = sorted selection' keys' ∧
        selection'.Means h.forest Φ Γ inner (D.rebind .all c) ∧
        MeansKeys h.forest Φ Γ inner keys' (Ks.map (.rebind .all c)) := by
  have hred : Φ.Reducible (engine h (sorted selection keys)) Γ inner .all :=
    .ofAll (h.sound_engine W _)
  rw [reduce, Expr.reduceWith] at he
  split at he
  · rename_i hm
    cases he
    rw [Bool.not_eq_true', dependencies, Dependencies.intersects_or, Bool.or_eq_false_iff] at hm
    refine .inr ⟨_, _, rfl, ?_, ?_⟩
    · rwa [hD.rebind_eq W hm.1]
    · rwa [MeansKeys.rebind_eq W hKs hm.2]
  · obtain ⟨selection', hselection, he⟩ := bind_eq_ok.mp he
    obtain ⟨keys', hkeys, he⟩ := bind_eq_ok.mp he
    exact Means.simplify_sorted W (hD.reduceWith W hc (.refl c) (fun _ => rfl) hselection)
      (MeansKeys.reduceKeysWith W hc (.refl c) (fun _ => rfl) hKs hkeys) he

/-- A sort that was reduced against the whole context lists its nodes as it did. -/
theorem Means.drain_reduced (hc : c.Sound h.forest Γ)
    (hD : (sorted selection keys).Means h.forest Φ Γ inner D)
    (he : (sorted selection keys).reduce h .all c = .ok e') :
    Agree (e'.drain h .standalone) ((sorted selection keys).drain h c) := by
  rw [Means] at hD
  obtain ⟨hD, Ks, hKs⟩ := hD
  have hstandalone : D.rebind .all c .standalone = D c := by
    rw [Meaning.rebind, Context.rebind_all]
  intro ns ms hns hms
  obtain ⟨nodes, comparers, hnodes, hcomparers, rfl⟩ := hD.drain_sorted W hKs hc hms
  obtain ⟨hempty, hD'⟩ | ⟨selection', keys', rfl, hD', hKs'⟩ := Means.reduce_sorted W hc hD hKs he
  · obtain ⟨ks, hks, -, hmem⟩ := hD'.drain W (.standalone _ _) hns
    rw [hD'.of_isEmptyNodeSet hempty] at hks
    rw [← hstandalone, hD'.of_isEmptyNodeSet hempty] at hnodes
    cases hks
    cases hnodes
    rw [Meaning.sort_nil]
    exact List.eq_nil_iff_forall_not_mem.mpr fun n hn => by simpa using (hmem n).mp hn
  · obtain ⟨nodes', comparers', hnodes', hcomparers', rfl⟩ :=
      hD'.drain_sorted W hKs' (.standalone _ _) hns
    rw [hstandalone, hnodes] at hnodes'
    cases hnodes'
    rw [List.mapM_map] at hcomparers'
    simp only [Function.comp_def, KeyMeaning.comparer_rebind_all] at hcomparers'
    rw [hcomparers] at hcomparers'
    cases hcomparers'
    exact Meaning.sort_rebind_all ..

omit W

/-! ## Simplification -/

/-- A simplified expression has the answer of the expression. -/
theorem Compiled.answer_of_simplify (W : h.forest.WellFormed) (he : Compiled h.forest e)
    (hplain : e.Every (Plain h.forest Γ)) (hempty : e.Every (FalseOnEmpty h.forest Γ))
    (hc : c.Sound h.forest Γ) (hsimplify : e.simplify h.forest = .ok e') :
    Agree (e'.answer h c) (e.answer h c) := by
  have hD := he.means W hplain hempty
  intro w' w hw' hw
  exact ((hD.simplify W hsimplify).answer W hc hw').symm.trans (hD.answer W hc hw)

/-- `//x['y']` as it is read, and without its predicate. -/
theorem answer_of_simplify_nested :
    read flagScope "//x['y']" = .ok (everywhere "x" [string "y"]) ∧
      Agree ((everywhere "x" []).answer nestedHost flagContext)
        ((everywhere "x" [string "y"]).answer nestedHost flagContext) := by
  have hread : read flagScope "//x['y']" = .ok (everywhere "x" [string "y"]) := by cbv
  have hsimplify : (everywhere "x" [string "y"]).simplify .nested = .ok (everywhere "x" []) := by
    cbv
  refine ⟨hread, Compiled.answer_of_simplify (h := nestedHost) Forest.wellFormed_nested (.read hread)
    (Γ := fun _ => some .any) ?_ ?_ sound_flagContext hsimplify⟩
  · simp [Every, EveryOfList, Plain, everywhere, string, Value.Sound]
  · simp [Every, EveryOfList, FalseOnEmpty, everywhere, string]

/-- `//none <= (//a = //b)['y']`, as it is read. -/
def stoppedAlways : Expr :=
  binary .lessThanOrEqual (everywhere "none" [])
    (filter (binary .equals (everywhere "a" []) (everywhere "b" [])) (string "y"))

/-- Simplification makes a truth value of the right side of `//none <= (//a = //b)['y']`, and the
empty set is not above that. -/
theorem not_answer_of_simplify : ¬∀ (h : Host) (Γ : Typing) (s : StaticScope) (source : String)
    (e e' : Expr) (c : Context), h.forest.WellFormed → read s source = .ok e →
      e.Every (Plain h.forest Γ) → c.Sound h.forest Γ → e.simplify h.forest = .ok e' →
        Agree (e'.answer h c) (e.answer h c) := by
  intro hagree
  have hread : read flagScope "//none <= (//a = //b)['y']" = .ok stoppedAlways := by cbv
  have hplain : stoppedAlways.Every (Plain .nested fun _ => some .any) := by
    simp [Every, EveryOfList, Plain, everywhere, stoppedAlways, string, Value.Sound]
  have hsimplify : stoppedAlways.simplify .nested = .ok (binary .lessThanOrEqual
      (everywhere "none" []) (binary .equals (everywhere "a" []) (everywhere "b" []))) := by cbv
  have hafter : (binary .lessThanOrEqual (everywhere "none" []) (binary .equals
      (everywhere "a" []) (everywhere "b" []))).answer nestedHost flagContext =
        .ok (.boolean true) := toOption_eq_some.mp (by rfl)
  have hbefore : stoppedAlways.answer nestedHost flagContext = .ok (.boolean false) :=
    toOption_eq_some.mp (by rfl)
  cases hagree nestedHost _ _ _ _ _ _ Forest.wellFormed_nested hread hplain sound_flagContext
    hsimplify _ _ hafter hbefore

/-! ## Reduction -/

/-- A reduced expression has the answer of the expression in the context that it was reduced in. If
the whole context was read it has that answer in every context, and a sort lists its nodes in the
order that they had. -/
theorem Compiled.answer_of_reduce (W : h.forest.WellFormed) (he : Compiled h.forest e)
    (hplain : e.Every (Plain h.forest Γ)) (hempty : e.Every (FalseOnEmpty h.forest Γ))
    (hc : c.Sound h.forest Γ) (hreduce : e.reduce h m c = .ok e') :
    Agree (e'.answer h c) (e.answer h c) ∧
      (m = .all → ∀ σ : Context, σ.Sound h.forest (fun _ => none) →
        Agree (e'.answer h σ) (e.answer h c)) ∧
      (m = .all → ∀ selection keys, e = .sorted selection keys →
        Agree (e'.drain h .standalone) (e.drain h c)) := by
  have hD := he.means W hplain hempty
  refine ⟨fun w' w hw' hw => ?_, fun hm σ hσ w' w hw' hw => ?_, fun hm selection keys hsorted => ?_⟩
  · have hD' : e'.Means h.forest (.none h.forest) Γ false ((e.reading h.forest).rebind m c) :=
      hD.reduceWith W hc (.refl c) (fun _ => rfl) hreduce
    have hw' := hD'.answer W hc hw'
    rw [Meaning.rebind, Context.rebind_self] at hw'
    exact hw'.symm.trans (hD.answer W hc hw)
  · subst hm
    have hD' : e'.Means h.forest (.none h.forest) (fun _ => none) false
        ((e.reading h.forest).rebind .all c) :=
      hD.reduceWith W hc (.refl c) (fun h0 => by cases h0) hreduce
    have hw' := hD'.answer W hσ hw'
    rw [Meaning.rebind, Context.rebind_all] at hw'
    exact hw'.symm.trans (hD.answer W hc hw)
  · subst hm hsorted
    exact hD.drain_reduced W hc hreduce

/-- The nodes of `//x[$b or //none <= //x]` in the order of their texts. -/
def ordered : Expr := .sorted guarded [.mk contextNode none none none none]

/-- What is left of the sort when the whole context was read has the nodes of the sort. -/
theorem answer_of_reduce_nested : ∃ e', ordered.reduce nestedHost .all flagContext = .ok e' ∧
    e'.answer nestedHost .standalone = .ok (.nodes [⟨0, 2⟩]) ∧
    e'.drain nestedHost .standalone = .ok [⟨0, 2⟩] := by
  have hcompiled : Compiled .nested ordered := by
    have hparse : parse flagScope .nested "." = .ok contextNode := by cbv
    refine .sorted compiled_guarded fun k hk x hx => ?_
    obtain rfl := List.mem_singleton.mp hk
    obtain rfl := List.mem_singleton.mp hx
    exact .parsed hparse
  have hplain : ordered.Every (Plain .nested fun _ => some .any) :=
    ⟨trivial, plain_guarded, trivial, trivial, trivial, trivial, trivial, trivial⟩
  have hempty : ordered.Every (FalseOnEmpty .nested fun _ => some .any) :=
    ⟨trivial, falseOnEmpty_guarded, trivial, trivial, trivial, trivial, trivial, trivial⟩
  have hanswer : ordered.answer nestedHost flagContext = .ok (.nodes [⟨0, 2⟩]) :=
    toOption_eq_some.mp (by rfl)
  have hdrain : ordered.drain nestedHost flagContext = .ok [⟨0, 2⟩] :=
    toOption_eq_some.mp (by decide +kernel)
  have hsome : (do
      let e' ← ordered.reduce nestedHost .all flagContext
      return (e', ← e'.answer nestedHost .standalone, ← e'.drain nestedHost .standalone)
      : Except Error (Expr × Outcome × List Node)).toOption.isSome = true := by decide +kernel
  obtain ⟨⟨e', w, ns⟩, hall⟩ := Option.isSome_iff_exists.mp hsome
  simp only [toOption_eq_some, bind_eq_ok, pure_eq_ok] at hall
  obtain ⟨e', hreduce, w, hw, ns, hns, ⟨⟩⟩ := hall
  obtain ⟨-, hall, hsorted⟩ := Compiled.answer_of_reduce (h := nestedHost)
    Forest.wellFormed_nested hcompiled hplain hempty sound_flagContext hreduce
  rw [hall rfl .standalone (.standalone _ _) _ _ hw hanswer] at hw
  rw [hsorted rfl _ _ rfl _ _ hns hdrain] at hns
  exact ⟨e', hreduce, hw, hns⟩

/-- With its variable replaced, the right side of `//none <= (//a = //b)[$b]` is a truth value, and
the empty set is not above that. -/
theorem not_answer_of_reduce : ¬∀ (h : Host) (Γ : Typing) (e e' : Expr) (m : Dependencies)
    (c : Context), h.forest.WellFormed → Compiled h.forest e → e.Every (Plain h.forest Γ) →
      c.Sound h.forest Γ → e.reduce h m c = .ok e' → Agree (e'.answer h c) (e.answer h c) := by
  intro hagree
  have hparse : parse flagScope .nested "//none <= (//a = //b)[$b]" =
      .ok (stopped .lessThanOrEqual) := by cbv
  have hreduce : (stopped .lessThanOrEqual).reduce nestedHost .variableValues flagContext =
      .ok (binary .lessThanOrEqual (everywhere "none" [])
        (binary .equals (everywhere "a" []) (everywhere "b" []))) := by cbv
  have hafter : (binary .lessThanOrEqual (everywhere "none" []) (binary .equals
      (everywhere "a" []) (everywhere "b" []))).answer nestedHost flagContext =
        .ok (.boolean true) := toOption_eq_some.mp (by rfl)
  have hbefore : (stopped .lessThanOrEqual).answer nestedHost flagContext =
      .ok (.boolean false) := toOption_eq_some.mp (by rfl)
  cases hagree nestedHost _ _ _ _ _ Forest.wellFormed_nested (.parsed hparse) (plain_stopped _)
    sound_flagContext hreduce _ _ hafter hbefore

end Expr

end XPath
