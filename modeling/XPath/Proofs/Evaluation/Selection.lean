import XPath.Proofs.Evaluation.Predicate
import XPath.Proofs.Tree.Traversal

/-!
# Filters, steps and paths

The enumerations of a sound engine list what the meanings of filters, steps and paths say, and their
flags tell the truth.
-/

namespace XPath

variable {F : Forest} {Φ : Calls F} {E : Engine} {Γ : Typing} {inner : Bool} {A B : Meaning}
  {Bs : List Meaning} {c σ : Context} {items : List Item} {ns ms : List Node} {n : Node}
  {predicate start : Expr} {predicates : List Expr} {base en : Enumeration} {axis : Axis} {test : NodeTest}

theorem Covers.append_errors (h : Covers items ns) (errors : List Error) :
    Covers (items ++ errors.map .error) ns where
  mem n hn := h.mem n (leading_append_errors items errors ▸ hn)
  complete ms hms := by
    refine h.complete ms ?_
    rw [collect_eq_ok] at hms ⊢
    cases errors with
    | nil => simpa using hms
    | cons e errors =>
        have hmem : (.error e : Item) ∈ ms.map (.ok : Node → Item) := by
          rw [← hms]
          simp
        simp at hmem

/-- What a filter does: it scans the items, may meet errors behind the end, and keeps the flags but
for the length, which it takes to be known only if it is, and reads ahead if it is asked for. -/
theorem Engine.filter_spec (E : Engine) (F : Forest) (base : Enumeration) (predicate : Expr)
    (c : Context) : ∃ (size : ListSize) (errors : List Error),
      (E.filter F base predicate c).items =
        filterItems E F predicate c size 0 false base.items ++ errors.map .error ∧
      (∀ k, size = .known k → base.size = .known k) ∧
      (size = .unknown → predicate.dependencies.contains .last = false) ∧
      (E.filter F base predicate c).sorted = base.sorted ∧
      (E.filter F base predicate c).reverse = base.reverse ∧
      (E.filter F base predicate c).peer = base.peer ∧
      (E.filter F base predicate c).size = .unknown := by
  unfold Engine.filter
  generalize hz : (if base.size = .unknown && predicate.dependencies.contains .last then
    ListSize.ahead else base.size) = size
  have hsize : ∀ k, size = .known k → base.size = .known k := by
    intro k hk
    rw [← hz] at hk
    split at hk
    · cases hk
    · exact hk
  have hunknown : size = .unknown → predicate.dependencies.contains .last = false := by
    intro hu
    rw [← hz] at hu
    split at hu
    · cases hu
    · rename_i hlast
      simpa [hu] using hlast
  refine ⟨size, ?_⟩
  dsimp only
  split
  · exact ⟨[], by simp, hsize, hunknown, rfl, rfl, rfl, rfl⟩
  · split
    · refine ⟨(base.beyond.takeWhile (·.isSome)).filterMap id, ?_, hsize, hunknown, rfl, rfl, rfl,
        rfl⟩
      rw [List.map_filterMap]
      rfl
    · exact ⟨[], by simp, hsize, hunknown, rfl, rfl, rfl, rfl⟩

namespace Engine.Sound

variable (W : F.WellFormed) (hE : E.Sound F Φ Γ)

include W hE

theorem yields_filter (hB : predicate.Means F Φ Γ inner B) (hc : σ.Extends c) (hσ : σ.Sound F Γ)
    (hns : ∀ n ∈ ns, F.Has n) (hnodup : ns.Nodup) (hsize : ∀ k, base.size = .known k → k = ns.length)
    (h : Yields base.items ns) :
    Yields (E.filter F base predicate c).items (B.keep σ ns) := by
  obtain ⟨size, errors, hitems, hknown, -⟩ := E.filter_spec F base predicate c
  rw [hitems]
  refine Yields.append_errors ?_ errors
  exact hE.yields_filterItems W hB hc hσ hns (fun k hk => hsize k (hknown k hk)) (by simp)
    (W.length_lt hnodup hns) h

/-- The filter of a list in any order by a predicate that does not look at positions. -/
theorem covers_filter (hB : predicate.Means F Φ Γ inner B) (hp : predicate.isPositional = false)
    (hc : σ.Extends c) (hσ : σ.Sound F Γ) (hns : ∀ n ∈ ns, F.Has n) (h : Covers base.items ns) :
    Covers (E.filter F base predicate c).items (B.keep σ ns) := by
  obtain ⟨size, errors, hitems, -⟩ := E.filter_spec F base predicate c
  rw [hitems]
  refine Covers.append_errors ?_ errors
  have hhas : ∀ n ∈ leading base.items, F.Has n := fun n hn => hns n (h.mem n hn)
  refine ⟨fun n hn => ?_, fun ms hms n hn => ?_⟩
  · obtain ⟨hmem, hholds, hne⟩ := hE.mem_filterItems W hB hp hc hσ hhas hn
    obtain ⟨i, hi, rfl⟩ := List.getElem_of_mem (h.mem n hmem)
    rw [Meaning.mem_keep]
    refine ⟨1 + i, ?_, ?_⟩
    · rw [List.mk_add_mem_zipIdx_iff_getElem?]
      exact List.getElem?_eq_getElem hi
    · rw [hB.forItem_eq W hp, Outcome.selects_of_dataType hne, hholds]
  · obtain ⟨all, hall, hkept⟩ := hE.filterItems_complete W hB hp hc hσ hhas hms
    obtain ⟨k, hmem, hselects⟩ := Meaning.mem_keep.mp hn
    obtain ⟨hne, hms⟩ := hkept n (h.complete all hall n (List.fst_mem_of_mem_zipIdx hmem))
    rw [hB.forItem_eq W hp, Outcome.selects_of_dataType hne] at hselects
    exact hms hselects

/-- A filter lists what the predicate keeps of its base, whose nodes are numbered in document order;
only a predicate that does not look at positions can do without the order. -/
theorem lists_filter (hB : predicate.Means F Φ Γ inner B) (hc : σ.Extends c) (hσ : σ.Sound F Γ)
    (h : base.Lists F ns) (hsorted : predicate.isPositional = true → base.sorted = true) :
    (E.filter F base predicate c).Lists F (B.keep σ ns) := by
  have hsub := Meaning.keep_sublist B σ ns
  have hyields (hs : base.sorted = true) :
      Yields (E.filter F base predicate c).items (B.keep σ ns) :=
    hE.yields_filter W hB hc hσ h.has h.ascending.nodup (h.size hs) (h.sorted hs)
  have hcovers : Covers (E.filter F base predicate c).items (B.keep σ ns) := by
    cases hp : predicate.isPositional with
    | true => exact (hyields (hsorted hp)).covers
    | false => exact hE.covers_filter W hB hp hc hσ h.has h.covers
  obtain ⟨size, errors, hitems, -, -, hs, hr, hpeer, hz⟩ := E.filter_spec F base predicate c
  exact
    { ascending := h.ascending.sublist hsub
      has := fun n hn => h.has n (hsub.subset hn)
      covers := hcovers
      sorted := fun hs' => hyields (hs ▸ hs')
      reverse := fun hr' => by
        rw [hitems, leading_append_errors]
        exact (h.reverse (hr ▸ hr')).sublist (leading_filterItems 0 base.items)
      peers := fun hs' hp' => (h.peers (hs ▸ hs') (hpeer ▸ hp')).sublist fun _ hn => hsub.subset hn
      size := fun _ k hk => by rw [hz] at hk; cases hk }

/-! ## Steps -/

theorem yields_filters (hBs : Expr.MeansList F Φ Γ inner predicates Bs) (hc : σ.Extends c)
    (hσ : σ.Sound F Γ) (hns : ∀ n ∈ ns, F.Has n) (hnodup : ns.Nodup)
    (hsize : base.size = .unknown) (h : Yields base.items ns) :
    Yields (predicates.foldl (fun base p => E.filter F base p c) base).items
      (Bs.foldl (fun ns B => B.keep σ ns) ns) := by
  induction predicates generalizing base ns Bs with
  | nil =>
      rw [Expr.MeansList] at hBs
      rw [hBs]
      exact h
  | cons p predicates ih =>
      rw [Expr.MeansList] at hBs
      obtain ⟨B, Bs, hB, hBs, rfl⟩ := hBs
      have hsub := Meaning.keep_sublist B σ ns
      obtain ⟨-, -, -, -, -, -, -, -, hz⟩ := E.filter_spec F base p c
      rw [List.foldl_cons, List.foldl_cons]
      refine ih hBs (fun n hn => hns n (hsub.subset hn)) (hnodup.sublist hsub) hz ?_
      exact hE.yields_filter W hB hc hσ hns hnodup (fun k hk => by rw [hsize] at hk; cases hk) h

/-- A step lists the nodes on the axis that pass the test and one predicate after the other. -/
theorem yields_step (hBs : Expr.MeansList F Φ Γ inner predicates Bs) (hc : σ.Extends c)
    (hσ : σ.Sound F Γ) (hn : F.Has n) :
    Yields (E.step F axis test predicates c n).items (Meaning.stepNodes F axis test Bs σ n) := by
  have haxis : Yields (axisEnumeration F axis n (some test)).items
      ((F.onAxis axis n).filter (test.accepts F)) := by
    rw [axisEnumeration, W.linked.walk_eq]
    exact yields_map_ok _
  refine hE.yields_filters W hBs hc hσ (fun m hm => ?_)
    ((W.linked.nodup_onAxis axis n).filter _) rfl haxis
  exact W.linked.has_of_mem_onAxis hn (List.mem_of_mem_filter hm)

end Engine.Sound

/-! ## Paths -/

theorem Meaning.stepNodes_sublist (Bs : List Meaning) (σ : Context) (n : Node) :
    (Meaning.stepNodes F axis test Bs σ n).Sublist (F.onAxis axis n) := by
  unfold Meaning.stepNodes
  have hfold (ns : List Node) : (Bs.foldl (fun ns B => B.keep σ ns) ns).Sublist ns := by
    induction Bs generalizing ns with
    | nil => exact List.Sublist.refl ns
    | cons B Bs ih => exact (ih _).trans (Meaning.keep_sublist B σ ns)
  exact (hfold _).trans List.filter_sublist

theorem mem_leading_append {xs ys : List Item} (h : n ∈ leading (xs ++ ys)) :
    n ∈ leading xs ∨ n ∈ leading ys := by
  induction xs with
  | nil => exact Or.inr h
  | cons item xs ih =>
      cases item with
      | error e => simp [leading] at h
      | ok m =>
          rw [List.cons_append, leading, List.mem_cons] at h
          rw [leading, List.mem_cons, or_assoc]
          exact h.imp_right ih

theorem collect_append_eq_ok {xs ys : List Item} (h : collect (xs ++ ys) = .ok ms) :
    ∃ as bs, collect xs = .ok as ∧ collect ys = .ok bs ∧ ms = as ++ bs := by
  rw [collect_eq_ok, List.append_eq_map_iff] at h
  obtain ⟨as, bs, rfl, has, hbs⟩ := h
  exact ⟨as, bs, collect_eq_ok.mpr has.symm, collect_eq_ok.mpr hbs.symm, rfl⟩

/-- What is found from the items of a list, one list after the other, up to the first error. -/
theorem exists_of_mem_flatMap {f : Node → List Item}
    (h : n ∈ leading (items.flatMap fun | .error e => [.error e] | .ok m => f m)) :
    ∃ m ∈ leading items, n ∈ leading (f m) := by
  induction items with
  | nil => simp [leading] at h
  | cons item items ih =>
      cases item with
      | error e => simp [leading] at h
      | ok m =>
          rw [List.flatMap_cons] at h
          rcases mem_leading_append h with h | h
          · exact ⟨m, by simp [leading], h⟩
          · obtain ⟨k, hk, h⟩ := ih h
            exact ⟨k, by simp [leading, hk], h⟩

theorem collect_flatMap {f : Node → List Item}
    (h : collect (items.flatMap fun | .error e => [.error e] | .ok m => f m) = .ok ms) :
    ∃ all, collect items = .ok all ∧ ∀ m ∈ all, ∃ ks, collect (f m) = .ok ks ∧ ∀ k ∈ ks, k ∈ ms := by
  induction items generalizing ms with
  | nil => exact ⟨[], rfl, by simp⟩
  | cons item items ih =>
      cases item with
      | error e => cases h
      | ok m =>
          rw [List.flatMap_cons] at h
          obtain ⟨as, bs, has, hbs, rfl⟩ := collect_append_eq_ok h
          obtain ⟨all, hall, hsteps⟩ := ih hbs
          refine ⟨m :: all, map_eq_ok.mpr ⟨all, hall, rfl⟩, fun k hk => ?_⟩
          rcases List.mem_cons.mp hk with rfl | hk
          · exact ⟨as, has, fun n hn => List.mem_append_left bs hn⟩
          · obtain ⟨ks, hks, hmem⟩ := hsteps k hk
            exact ⟨ks, hks, fun n hn => List.mem_append_right as (hmem n hn)⟩

theorem Axis.isSorted_of_isWithinSubtree (h : axis.isWithinSubtree = true) :
    axis.isSorted = true := by
  cases axis <;> first | rfl | cases h

theorem flatMap_of_length_le_one {f : Node → List Node} {P : List Node → Prop}
    (hns : ns.length ≤ 1) (hnil : P []) (hf : ∀ n, P (f n)) : P (ns.flatMap f) := by
  match ns, hns with
  | [], _ => exact hnil
  | [n], _ =>
      rw [List.flatMap_cons, List.flatMap_nil, List.append_nil]
      exact hf n

namespace Engine.Sound

variable (W : F.WellFormed) (hE : E.Sound F Φ Γ)

include W hE

/-- A path lists what its step selects from the nodes of the start. -/
theorem lists_path (hBs : Expr.MeansList F Φ Γ inner predicates Bs) (hc : σ.Extends c)
    (hσ : σ.Sound F Γ) {oneOrigin : Bool} (horigin : oneOrigin = true → base.sorted = true ∧ ns.length ≤ 1)
    (h : base.Lists F ns) :
    (E.path F base axis test predicates c oneOrigin).Lists F
      (F.inOrder (ns.flatMap (Meaning.stepNodes F axis test Bs σ))) := by
  have hstep : ∀ n ∈ ns, Yields (E.step F axis test predicates c n).items
      (Meaning.stepNodes F axis test Bs σ n) := fun n hn => hE.yields_step W hBs hc hσ (h.has n hn)
  have hsub (n : Node) : (Meaning.stepNodes F axis test Bs σ n).Sublist (F.onAxis axis n) :=
    Meaning.stepNodes_sublist Bs σ n
  have hhas : ∀ n ∈ ns.flatMap (Meaning.stepNodes F axis test Bs σ), F.Has n := by
    intro n hn
    obtain ⟨m, hm, hn⟩ := List.mem_flatMap.mp hn
    exact W.linked.has_of_mem_onAxis (h.has m hm) ((hsub m).subset hn)
  have hyields (hs : base.sorted = true) :
      Yields (E.path F base axis test predicates c oneOrigin).items
        (ns.flatMap (Meaning.stepNodes F axis test Bs σ)) :=
    (h.sorted hs).flatMap hstep
  refine
    { ascending := Forest.ascending_inOrder F _
      has := fun n hn => hhas n (Forest.mem_of_mem_inOrder hn)
      covers := ⟨fun n hn => ?_, fun ms hms n hn => ?_⟩
      sorted := fun hs => ?_
      reverse := fun hr => ?_
      peers := fun hs hp => ?_
      size := fun _ k hk => by cases hk }
  · obtain ⟨m, hm, hn⟩ := exists_of_mem_flatMap hn
    have hm := h.covers.mem m hm
    rw [W.mem_inOrder hhas]
    exact List.mem_flatMap.mpr ⟨m, hm, (hstep m hm).covers.mem n hn⟩
  · obtain ⟨all, hall, hsteps⟩ := collect_flatMap hms
    obtain ⟨m, hm, hn⟩ := List.mem_flatMap.mp (Forest.mem_of_mem_inOrder hn)
    obtain ⟨ks, hks, hmem⟩ := hsteps m (h.covers.complete all hall m hm)
    exact hmem n ((hstep m hm).covers.complete ks hks n hn)
  · have hpath : (base.sorted && base.peer && axis.isWithinSubtree) = true ∨
        (oneOrigin && axis.isSorted) = true := (Bool.or_eq_true _ _).mp hs
    rcases hpath with hpath | hpath
    · simp only [Bool.and_eq_true] at hpath
      obtain ⟨⟨hbase, hpeer⟩, hwithin⟩ := hpath
      have hasc := W.ascending_flatMap h.ascending
        (h.peers hbase hpeer) h.has
        (fun n _ m hm => W.below_of_mem_onAxis hwithin ((hsub n).subset hm)) fun n _ =>
        (W.ascending_onAxis (Axis.isSorted_of_isWithinSubtree hwithin) n).sublist (hsub n)
      rw [Forest.inOrder_of_ascending hasc]
      exact hyields hbase
    · rw [Bool.and_eq_true] at hpath
      obtain ⟨hbase, hlength⟩ := horigin hpath.1
      have hasc : F.Ascending (ns.flatMap (Meaning.stepNodes F axis test Bs σ)) :=
        flatMap_of_length_le_one hlength Forest.ascending_nil fun n =>
          (W.ascending_onAxis hpath.2 n).sublist (hsub n)
      rw [Forest.inOrder_of_ascending hasc]
      exact hyields hbase
  · have hpath : (oneOrigin && axis.isReverseSorted) = true := hr
    rw [Bool.and_eq_true] at hpath
    obtain ⟨hbase, hlength⟩ := horigin hpath.1
    have hdesc : F.Descending (ns.flatMap (Meaning.stepNodes F axis test Bs σ)) :=
      flatMap_of_length_le_one hlength .nil fun n =>
        (W.descending_onAxis hpath.2 n).sublist (hsub n)
    exact hdesc.sublist (hyields hbase).leading_initial.sublist
  · have hpeer : (base.peer && axis.isPeer) = true := hp
    rw [Bool.and_eq_true] at hpeer
    have hpeers (n : Node) : F.Peers (Meaning.stepNodes F axis test Bs σ n) :=
      (W.peers_onAxis hpeer.2 n).sublist fun _ hm => (hsub n).subset hm
    have hall : F.Peers (ns.flatMap (Meaning.stepNodes F axis test Bs σ)) := by
      have hpath : (base.sorted && base.peer && axis.isWithinSubtree) = true ∨
          (oneOrigin && axis.isSorted) = true := (Bool.or_eq_true _ _).mp hs
      rcases hpath with hpath | hpath
      · simp only [Bool.and_eq_true] at hpath
        exact W.peers_flatMap (h.peers hpath.1.1 hpath.1.2) h.has
          (fun n _ m hm => W.below_of_mem_onAxis hpath.2 ((hsub n).subset hm)) fun n _ => hpeers n
      · rw [Bool.and_eq_true] at hpath
        exact flatMap_of_length_le_one (horigin hpath.1).2 (by rintro a ⟨⟩) hpeers
    exact hall.sublist fun n hn => Forest.mem_of_mem_inOrder hn

end Engine.Sound

end XPath
