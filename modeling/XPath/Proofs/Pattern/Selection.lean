import XPath.Proofs.Pattern.Key
import XPath.Proofs.Pattern.Predicates

/-!
# What patterns select

A pattern decides a meaning (`Pattern.Decides`) if it accepts exactly the nodes that the meaning
lists in some context on the way from the node up to the root. Patterns and expressions that are
spelled alike decide each other part by part, from the root of the tree down to the last step.
-/

namespace XPath

variable {F : Forest} {h : Host} {Γ : Typing} {Φ : Calls h.forest} {s : StaticScope}
  {c σ : Context} {a m n : Node} {ns : List Node} {A D : Meaning} {b : Bool}

/-! ## Trees and contexts -/

namespace Forest

theorem has_of_mem_upward (W : F.WellFormed) (hn : F.Has n) (ha : a ∈ n :: F.ancestors n) :
    F.Has a := by
  rcases List.mem_cons.mp ha with rfl | ha
  · exact hn
  · exact W.linked.has_of_mem_ancestors ha

theorem documentRoot_of_mem_upward (W : F.WellFormed) (ha : a ∈ n :: F.ancestors n) :
    F.documentRoot a = F.documentRoot n :=
  W.linked.documentRoot_of_below ((List.mem_cons.mp ha).imp_left Eq.symm)

end Forest

theorem exists_of_anyM {α : Type} {f : α → Except Error Bool} {as : List α}
    (h : as.anyM f = .ok true) : ∃ a ∈ as, f a = .ok true := by
  induction as with
  | nil => cases h
  | cons a as ih =>
      rw [List.anyM] at h
      obtain ⟨found, hfound, h⟩ := bind_eq_ok.mp h
      split at h
      · exact ⟨a, List.mem_cons_self, hfound⟩
      · obtain ⟨k, hk, hfk⟩ := ih h
        exact ⟨k, List.mem_cons_of_mem _ hk, hfk⟩

theorem eq_true_of_anyM {α : Type} {f : α → Except Error Bool} {as : List α} {a : α}
    (ha : a ∈ as) (hf : ∀ b, f a = .ok b → b = true) (h : as.anyM f = .ok b) : b = true := by
  induction as with
  | nil => cases ha
  | cons k as ih =>
      rw [List.anyM] at h
      obtain ⟨found, hfound, h⟩ := bind_eq_ok.mp h
      rcases List.mem_cons.mp ha with rfl | ha
      · obtain rfl := hf found hfound
        cases h
        rfl
      · split at h
        · cases h
          rfl
        · exact ih ha h

def Meaning.Selects (D : Meaning) (σ : Context) (n : Node) : Prop :=
  ∃ ns, D σ = .nodes ns ∧ n ∈ ns

namespace Pattern

/-! ## Parts of a pattern -/

/-- The pattern accepts the nodes that the meaning lists from a node above them, and no others. -/
structure Decides (h : Host) (c : Context) (p : Pattern) (D : Meaning) : Prop where
  lists : ∀ a, h.forest.Has a →
    ∃ ns, D (c.withNode a) = .nodes ns ∧ ∀ n ∈ ns, h.forest.Has n
  sound : ∀ n, h.forest.Has n → p.accepts h c n = .ok true →
    ∃ a ∈ n :: h.forest.ancestors n, D.Selects (c.withNode a) n
  complete : ∀ a n b, h.forest.Has a → h.forest.documentRoot a = h.forest.documentRoot n →
    D.Selects (c.withNode a) n → p.accepts h c n = .ok b → b = true

/-- What a step asks of the nodes above it accepts its start. -/
structure Leads (h : Host) (c : Context) (parent ancestor : Option Pattern) (A : Meaning) :
    Prop where
  lists : ∀ a, h.forest.Has a →
    ∃ ns, A (c.withNode a) = .nodes ns ∧ ∀ n ∈ ns, h.forest.Has n
  sound : ∀ n m, h.forest.parent? n = some m → acceptsParent h c parent n = .ok true →
    acceptsAncestor h c ancestor n = .ok true →
      ∃ a ∈ n :: h.forest.ancestors n, A.Selects (c.withNode a) m
  complete : ∀ a n m, h.forest.Has a → h.forest.documentRoot a = h.forest.documentRoot n →
    h.forest.parent? n = some m → A.Selects (c.withNode a) m →
      (∀ b, acceptsParent h c parent n = .ok b → b = true) ∧
        ∀ b, acceptsAncestor h c ancestor n = .ok b → b = true

theorem decides_document (W : h.forest.WellFormed) (R : h.forest.Rooted) :
    Decides h c document (.oneNode none fun n => some (h.forest.documentRoot n)) where
  lists a ha := by
    refine ⟨[h.forest.documentRoot a], rfl, ?_⟩
    simpa using W.linked.has_documentRoot ha
  sound n hn hp := by
    rw [accepts, Except.ok.injEq, beq_iff_eq, ← R n] at hp
    refine ⟨n, List.mem_cons_self, [h.forest.documentRoot n], rfl, ?_⟩
    rw [Forest.documentRoot, Forest.ancestors_of_no_parent hp]
    exact List.mem_singleton_self n
  complete a n b ha hroot hn hp := by
    obtain ⟨ns, hns, hmem⟩ := hn
    cases hns
    obtain rfl := List.mem_singleton.mp hmem
    rw [accepts, Except.ok.injEq] at hp
    rw [← hp, beq_iff_eq, ← R]
    exact W.linked.parent_documentRoot a

/-! ## Steps -/

section

variable {axis : Axis} {test test' : NodeTest} {Bs : List Meaning} {es : List Expr}
  {p : Pattern} {parent ancestor : Option Pattern} (W : h.forest.WellFormed)

include W

theorem leads_first : Leads h c none none (.oneNode none some) where
  lists a ha := ⟨[a], rfl, by simpa using ha⟩
  sound n m hm _ _ := by
    refine ⟨m, List.mem_cons_of_mem _ ?_, [m], rfl, List.mem_singleton_self m⟩
    exact (W.linked.mem_ancestors hm).mpr (.inl rfl)
  complete a n m _ _ _ _ := by
    constructor <;> rintro b ⟨⟩ <;> rfl

theorem leads_child (hp : Decides h c p A) : Leads h c (some p) none A where
  lists := hp.lists
  sound n m hm hparent _ := by
    rw [acceptsParent, hm] at hparent
    obtain ⟨a, ha, hselects⟩ := hp.sound m (W.linked.has_parent hm) hparent
    refine ⟨a, List.mem_cons_of_mem _ ?_, hselects⟩
    rwa [W.linked.ancestors_of_parent hm]
  complete a n m ha hroot hm hselects := by
    refine ⟨fun b hb => ?_, by rintro b ⟨⟩; rfl⟩
    rw [acceptsParent, hm] at hb
    exact hp.complete a m b ha (hroot.trans (W.linked.documentRoot_of_parent hm)) hselects hb

theorem has_of_mem_stepNodes (hm : h.forest.Has m)
    (hn : n ∈ Meaning.stepNodes h.forest axis test Bs σ m) : h.forest.Has n :=
  W.linked.has_of_mem_onAxis hm (List.mem_filter.mp (Meaning.selected_subset hn)).1

theorem lists_path {σ : Context} (hA : ∃ ns, A σ = .nodes ns ∧ ∀ n ∈ ns, h.forest.Has n) :
    ∃ ns, Meaning.path h.forest A axis test Bs σ = .nodes ns ∧ ∀ n ∈ ns, h.forest.Has n := by
  obtain ⟨ms, hms, hhas⟩ := hA
  refine ⟨_, by rw [Meaning.path, hms], fun n hn => ?_⟩
  obtain ⟨m, hm, hn⟩ := List.mem_flatMap.mp (Forest.mem_of_mem_inOrder hn)
  exact has_of_mem_stepNodes W (hhas m hm) hn

theorem selects_path {σ : Context} (hA : ∃ ns, A σ = .nodes ns ∧ ∀ n ∈ ns, h.forest.Has n) :
    (Meaning.path h.forest A axis test Bs).Selects σ n ↔
      ∃ m, A.Selects σ m ∧ n ∈ Meaning.stepNodes h.forest axis test Bs σ m := by
  obtain ⟨ms, hms, hhas⟩ := hA
  have hpath : Meaning.path h.forest A axis test Bs σ =
      .nodes (h.forest.inOrder (ms.flatMap (Meaning.stepNodes h.forest axis test Bs σ))) := by
    rw [Meaning.path, hms]
  have hmem : n ∈ h.forest.inOrder (ms.flatMap (Meaning.stepNodes h.forest axis test Bs σ)) ↔
      ∃ m ∈ ms, n ∈ Meaning.stepNodes h.forest axis test Bs σ m := by
    rw [W.mem_inOrder, List.mem_flatMap]
    intro k hk
    obtain ⟨m, hm, hk⟩ := List.mem_flatMap.mp hk
    exact has_of_mem_stepNodes W (hhas m hm) hk
  constructor
  · rintro ⟨ns, hns, hn⟩
    cases hpath.symm.trans hns
    obtain ⟨m, hm, hn⟩ := hmem.mp hn
    exact ⟨m, ⟨ms, hms, hm⟩, hn⟩
  · rintro ⟨m, ⟨ms', hms', hm⟩, hn⟩
    cases hms.symm.trans hms'
    exact ⟨_, hpath, hmem.mpr ⟨m, hm, hn⟩⟩

omit W in
theorem stepNodes_anyDescendant (m : Node) :
    Meaning.stepNodes F .descendantOrSelf .anyNode [] σ m = m :: F.descendants m :=
  Expr.filter_anyNode rfl rfl _

theorem leads_under (hp : Decides h c p A) :
    Leads h c none (some p) (.path h.forest A .descendantOrSelf .anyNode []) where
  lists a ha := lists_path W (hp.lists a ha)
  sound n m hm _ hancestor := by
    rw [acceptsAncestor] at hancestor
    obtain ⟨k, hk, haccepts⟩ := exists_of_anyM hancestor
    have hhas := W.linked.has_of_mem_ancestors hk
    obtain ⟨a, ha, hselects⟩ := hp.sound k hhas haccepts
    have hmem : a ∈ h.forest.ancestors n := by
      rcases List.mem_cons.mp ha with rfl | ha
      · exact hk
      · exact W.linked.mem_ancestors_trans ha hk
    refine ⟨a, List.mem_cons_of_mem _ hmem,
      (selects_path W (hp.lists a (W.linked.has_of_mem_ancestors hmem))).mpr ⟨k, hselects, ?_⟩⟩
    rw [stepNodes_anyDescendant]
    rcases (W.linked.mem_ancestors hm).mp hk with rfl | hk
    · exact List.mem_cons_self
    · exact List.mem_cons_of_mem _ (W.linked.mem_descendants.mpr ⟨hk, W.isTreeNode_parent n m hm⟩)
  complete a n m ha hroot hm hselects := by
    refine ⟨by rintro b ⟨⟩; rfl, fun b hb => ?_⟩
    obtain ⟨k, hk, hmem⟩ := (selects_path W (hp.lists a ha)).mp hselects
    rw [stepNodes_anyDescendant] at hmem
    have hkn : k ∈ h.forest.ancestors n := by
      rw [W.linked.mem_ancestors hm]
      rcases List.mem_cons.mp hmem with rfl | hmem
      · exact .inl rfl
      · exact .inr (W.linked.mem_descendants.mp hmem).1
    rw [acceptsAncestor] at hb
    exact eq_true_of_anyM hkn (fun b hb => hp.complete a k b ha
      (hroot.trans (W.linked.documentRoot_of_below (.inr hkn)).symm) hk hb) hb

omit W in
theorem exists_parent_of_accepts (R : h.forest.Rooted) (ht : Tests axis test test')
    (haccepts : test'.accepts h.forest n = true)
    (hchild : test'.kind = .node → isChildType (h.forest.type n) = true) :
    ∃ m, h.forest.parent? n = some m := by
  have hfits := ht.fits
  have htype : h.forest.type n ≠ .root := by
    rcases ht.axis with ⟨rfl, rfl⟩ | ⟨rfl, rfl⟩
    · have hchild' : isChildType (h.forest.type n) = true := by
        by_cases hkind : test'.kind = .node
        · exact hchild hkind
        · exact isChildType_of_accepts hfits ht.kind haccepts hkind
      intro htype
      rw [htype] at hchild'
      cases hchild'
    · intro htype
      rw [accepts_onAttributes hfits, htype] at haccepts
      cases haccepts.1
  cases hm : h.forest.parent? n with
  | none => exact absurd ((R n).mp hm) htype
  | some m => exact ⟨m, rfl⟩

omit W in
theorem accepts_location_true {check : PredicateCheck}
    (hn : (location test' parent ancestor es check).accepts h c n = .ok true) :
    test'.accepts h.forest n = true ∧
      (test'.kind = .node → isChildType (h.forest.type n) = true) ∧
        acceptsParent h c parent n = .ok true ∧ acceptsAncestor h c ancestor n = .ok true ∧
          passes h c test' es check n = .ok true := by
  rw [accepts] at hn
  split at hn
  · cases hn
  · split at hn
    · cases hn
    · rename_i haccepts hchild
      obtain ⟨b₁, hparent, hn⟩ := bind_eq_ok.mp hn
      cases b₁ with
      | false => cases hn
      | true =>
          obtain ⟨b₂, hancestor, hn⟩ := bind_eq_ok.mp hn
          cases b₂ with
          | false => cases hn
          | true => exact ⟨by simpa using haccepts, by simpa using hchild, hparent, hancestor, hn⟩

omit W in
theorem passes_of_accepts_location {check : PredicateCheck}
    (hn : (location test' parent ancestor es check).accepts h c n = .ok b)
    (haccepts : test'.accepts h.forest n = true)
    (hchild : test'.kind = .node → isChildType (h.forest.type n) = true)
    (hparent : ∀ b, acceptsParent h c parent n = .ok b → b = true)
    (hancestor : ∀ b, acceptsAncestor h c ancestor n = .ok b → b = true) :
    passes h c test' es check n = .ok b := by
  rw [accepts, if_neg (by simpa using haccepts), if_neg (by simpa using hchild)] at hn
  obtain ⟨b₁, hb₁, hn⟩ := bind_eq_ok.mp hn
  obtain rfl := hparent b₁ hb₁
  obtain ⟨b₂, hb₂, hn⟩ := bind_eq_ok.mp hn
  obtain rfl := hancestor b₂ hb₂
  exact hn

theorem decides_location [h.Realizes Φ Γ] (R : h.forest.Rooted) (hc : c.Sound h.forest Γ)
    (hleads : Leads h c parent ancestor A) (ht : Tests axis test test')
    (hes : Expr.MeansList h.forest Φ Γ true es Bs) :
    Decides h c (location test' parent ancestor es (checkFor test' es))
      (.path h.forest A axis test Bs) where
  lists a ha := lists_path W (hleads.lists a ha)
  sound n hn hp := by
    obtain ⟨haccepts, hchild, hparent, hancestor, hpasses⟩ := accepts_location_true hp
    obtain ⟨m, hm⟩ := exists_parent_of_accepts R ht haccepts hchild
    obtain ⟨a, ha, hselects⟩ := hleads.sound n m hm hparent hancestor
    have hhas := Forest.has_of_mem_upward W hn ha
    have hstep := (passes_iff W R ht hm haccepts hchild hes hc hpasses).mp rfl
    exact ⟨a, ha, (selects_path W (hleads.lists a hhas)).mpr ⟨m, hselects, hstep⟩⟩
  complete a n b ha hroot hselects hp := by
    obtain ⟨m, hm, hstep⟩ := (selects_path W (hleads.lists a ha)).mp hselects
    obtain ⟨hparent, haccepts, hchild⟩ := (mem_step W R ht).mp (Meaning.selected_subset hstep)
    obtain ⟨hparent', hancestor⟩ := hleads.complete a n m ha hroot hparent hm
    have hpasses := passes_of_accepts_location hp haccepts hchild hparent' hancestor
    exact (passes_iff W R ht hparent haccepts hchild hes hc hpasses).mpr hstep

omit W in
theorem accepts_step (test' : NodeTest) (n : Node) :
    (location test' none none [] (checkFor test' [])).accepts h c n =
      .ok (test'.accepts h.forest n && (test'.kind != .node || isChildType (h.forest.type n))) := by
  have hcheck : checkFor test' [] = .each := by
    unfold checkFor
    split
    · rename_i hnil
      cases hnil
    · rfl
  have hpasses : passes h c test' [] .each n = .ok true := rfl
  have hparent : acceptsParent h c none n = .ok true := rfl
  have hancestor : acceptsAncestor h c none n = .ok true := rfl
  rw [hcheck, accepts, hparent, hancestor]
  cases test'.accepts h.forest n with
  | false => rfl
  | true =>
      cases hkind : test'.kind == .node with
      | false => simpa [bne, hkind] using hpasses
      | true =>
          cases isChildType (h.forest.type n) with
          | false => simp [bne, hkind]
          | true => simpa [bne, hkind] using hpasses

omit W in
theorem accepts_ofParts (hname : test'.kind = .node → test'.name = .any)
    (parent ancestor : Option Pattern) (es : List Expr) (n : Node) :
    (ofParts test' parent ancestor es).accepts h c n =
      (location test' parent ancestor es (checkFor test' es)).accepts h c n := by
  unfold ofParts
  split
  · rename_i hkind
    have hnever : test'.accepts h.forest n = false := by
      rw [NodeTest.accepts, eq_of_beq hkind]
      rfl
    conv_rhs => rw [accepts, hnever]
    rfl
  · split
    · rw [accepts_step]
      obtain ⟨kind, name⟩ := test'
      split
      · simp_all [accepts, NodeTest.accepts, NodeKind.accepts, NameTest.accepts]
      · rename_i hkind _ _ _
        simp_all [accepts, NodeTest.accepts, NameTest.accepts]
      · simp_all [accepts, NodeTest.accepts]
    · rfl

theorem decides_ofParts [h.Realizes Φ Γ] (R : h.forest.Rooted) (hc : c.Sound h.forest Γ)
    (hleads : Leads h c parent ancestor A) (ht : Tests axis test test')
    (hes : Expr.MeansList h.forest Φ Γ true es Bs) :
    Decides h c (ofParts test' parent ancestor es) (.path h.forest A axis test Bs) := by
  have hlocation := decides_location W R hc hleads ht hes
  have hofParts := accepts_ofParts (h := h) (c := c) (fits_test ht).2.2 parent ancestor es
  exact
    { lists := hlocation.lists
      sound := fun n hn hp => hlocation.sound n hn (hofParts n ▸ hp)
      complete := fun a n b ha hroot hn hp => hlocation.complete a n b ha hroot hn (hofParts n ▸ hp) }

omit W in
theorem decides_never (hD : D = fun _ => .nodes []) : Decides h c never D := by
  subst hD
  refine ⟨fun a _ => ⟨[], rfl, by simp⟩, fun n _ hn => ?_, fun a n b _ _ hn _ => ?_⟩
  · cases hn
  · obtain ⟨ns, hns, hmem⟩ := hn
    cases hns
    cases hmem

theorem decides_kept [h.Realizes Φ Γ] {predicates : List Expr} {kept : Option (List Expr)}
    (R : h.forest.Rooted) (hc : c.Sound h.forest Γ) (hleads : Leads h c parent ancestor A) (ht : Tests axis test test')
    (hBs : Expr.MeansList h.forest Φ Γ true predicates Bs)
    (hkept : Expr.simplifyPredicates h.forest predicates = .ok kept) :
    Decides h c (kept.elim never (ofParts test' parent ancestor))
      (.path h.forest A axis test Bs) := by
  have hkeeps := hBs.simplifyPredicates W hkept
  cases kept with
  | none => exact decides_never (Expr.path_never hkeeps)
  | some es =>
      obtain ⟨Bs', hes, heq⟩ := hkeeps
      rw [← Meaning.path_congr A axis test heq]
      exact decides_ofParts W R hc hleads ht hes

end

/-! ## Keys and alternatives -/

section

variable {p p' q : Pattern} {e e' : Expr} (W : h.forest.WellFormed)

include W

theorem decides_key {name : ExpandedName} {display value : String} (hc : c.Sound h.forest Γ)
    (hname : s.resolve display false = .ok name) :
    Decides h c (key name display value) (Meaning.keyed h.forest s display value) := by
  have hfinds {k : Controller} {found : List Node} (a : Node) (hk : c.controller = .ok k)
      (hfound : k.selectByKey name value (h.forest.documentRoot a) = .ok found) :
      ∃ ms, Meaning.keyed h.forest s display value (c.withNode a) = .nodes ms ∧
        ∀ n, n ∈ ms ↔ n ∈ found := by
    have hnode : (c.withNode a).contextNode? = some a := rfl
    exact Meaning.keyed_of_found W hname hnode (Context.controller_eq_ok.mp hk) hfound
      ((hc.controller k (Context.controller_eq_ok.mp hk)).keyed _ _ _ _ hfound)
  refine ⟨fun a ha => ?_, fun n hn hp => ?_, fun a n b ha hroot hn hp => ?_⟩
  · by_cases hexists : ∃ k found, c.controller = .ok k ∧
        k.selectByKey name value (h.forest.documentRoot a) = .ok found
    · obtain ⟨k, found, hk, hfound⟩ := hexists
      obtain ⟨ms, hms, hmem⟩ := hfinds a hk hfound
      exact ⟨ms, hms, fun n hn => (hc.controller k (Context.controller_eq_ok.mp hk)).keyed _ _ _ _
        hfound n ((hmem n).mp hn)⟩
    · have hnode : (c.withNode a).contextNode? = some a := rfl
      refine ⟨[], Meaning.keyed_of_not_found hname hnode fun k found hk hfound => ?_, by simp⟩
      exact hexists ⟨k, found, Context.controller_eq_ok.mpr hk, hfound⟩
  · rw [accepts] at hp
    obtain ⟨k, hk, hp⟩ := bind_eq_ok.mp hp
    obtain ⟨found, hfound, hp⟩ := bind_eq_ok.mp hp
    obtain ⟨ms, hms, hmem⟩ := hfinds n hk hfound
    refine ⟨n, List.mem_cons_self, ms, hms, (hmem n).mpr ?_⟩
    simpa using hp
  · rw [accepts] at hp
    obtain ⟨k, hk, hp⟩ := bind_eq_ok.mp hp
    obtain ⟨found, hfound, hp⟩ := bind_eq_ok.mp hp
    obtain ⟨ms, hms, hmem⟩ := hfinds a hk (hroot ▸ hfound)
    obtain ⟨ns, hns, hn⟩ := hn
    cases hms.symm.trans hns
    obtain rfl := pure_eq_ok.mp hp
    simpa using (hmem n).mp hn

theorem decides_union (hp : Decides h c p A) (hq : Decides h c q D) :
    Decides h c (union p q) fun σ => .combine h.forest .union (A σ) (D σ) := by
  have hselects (a n : Node) (ha : h.forest.Has a) :
      (Meaning.Selects (fun σ => .combine h.forest .union (A σ) (D σ)) (c.withNode a) n) ↔
        A.Selects (c.withNode a) n ∨ D.Selects (c.withNode a) n := by
    obtain ⟨as, has, hhas⟩ := hp.lists a ha
    obtain ⟨bs, hbs, hhas'⟩ := hq.lists a ha
    have hmem : n ∈ h.forest.combine .union as bs ↔ n ∈ as ∨ n ∈ bs := W.mem_combine hhas hhas'
    unfold Meaning.Selects
    simp only [has, hbs, Outcome.combine, Outcome.nodes.injEq, exists_eq_left']
    exact hmem
  refine ⟨fun a ha => ?_, fun n hn hpq => ?_, fun a n b ha hroot hn hpq => ?_⟩
  · obtain ⟨as, has, hhas⟩ := hp.lists a ha
    obtain ⟨bs, hbs, hhas'⟩ := hq.lists a ha
    refine ⟨h.forest.combine .union as bs, by rw [has, hbs]; rfl, fun n hn => ?_⟩
    exact Forest.has_of_mem_combine hhas hhas' hn
  · rw [accepts] at hpq
    obtain ⟨b₁, hb₁, hpq⟩ := bind_eq_ok.mp hpq
    split at hpq
    · rename_i htrue
      obtain ⟨a, ha, hselected⟩ := hp.sound n hn (htrue ▸ hb₁)
      exact ⟨a, ha, (hselects a n (Forest.has_of_mem_upward W hn ha)).mpr (.inl hselected)⟩
    · obtain ⟨a, ha, hselected⟩ := hq.sound n hn hpq
      exact ⟨a, ha, (hselects a n (Forest.has_of_mem_upward W hn ha)).mpr (.inr hselected)⟩
  · rw [accepts] at hpq
    obtain ⟨b₁, hb₁, hpq⟩ := bind_eq_ok.mp hpq
    split at hpq
    · cases hpq
      rfl
    · rename_i hfalse
      rcases (hselects a n ha).mp hn with hn | hn
      · exact absurd (hp.complete a n b₁ ha hroot hn hb₁) hfalse
      · exact hq.complete a n b ha hroot hn hpq

omit W in
theorem simplify_location {test : NodeTest} {parent ancestor : Option Pattern} {es : List Expr}
    {check : PredicateCheck}
    (hp : (location test parent ancestor es check).simplify F = .ok p') :
    ∃ parent' ancestor' kept, simplifyOption F parent = .ok parent' ∧
      simplifyOption F ancestor = .ok ancestor' ∧
        Expr.simplifyPredicates F es = .ok kept ∧
          p' = kept.elim never (ofParts test parent' ancestor') := by
  rw [simplify] at hp
  obtain ⟨parent', hparent, hp⟩ := bind_eq_ok.mp hp
  obtain ⟨ancestor', hancestor, hp⟩ := bind_eq_ok.mp hp
  obtain ⟨kept, hkept, hp⟩ := bind_eq_ok.mp hp
  refine ⟨parent', ancestor', kept, hparent, hancestor, hkept, ?_⟩
  cases kept <;> exact (pure_eq_ok.mp hp).symm

omit W in
theorem means_strings {As : List Meaning} {display value : String}
    (hAs : Expr.MeansList h.forest Φ Γ false [.string display, .string value] As) :
    As = [fun _ => .string display, fun _ => .string value] := by
  rw [Expr.MeansList] at hAs
  obtain ⟨A, As, hA, hAs, rfl⟩ := hAs
  rw [Expr.MeansList] at hAs
  obtain ⟨B, Bs, hB, hBs, rfl⟩ := hAs
  rw [Expr.MeansList] at hBs
  obtain rfl := hBs
  obtain ⟨u, hu, rfl⟩ := hA.of_literal
  obtain ⟨w, hw, rfl⟩ := hB.of_literal
  obtain rfl := hu.means
  obtain rfl := hw.means
  rfl

/-- A pattern decides the meaning of the expression that is spelled like it. -/
theorem decides [h.Realizes Φ Γ] (R : h.forest.Rooted) (hspells : Spells s p e) (hc : c.Sound h.forest Γ)
    (hD : e.Means h.forest Φ Γ false D) (hp : p.simplify h.forest = .ok p') :
    Decides h c p' D := by
  induction hspells generalizing p' D with
  | document =>
      rw [Expr.Means] at hD
      subst hD
      cases hp
      exact decides_document W R
  | key hname =>
      rw [keyCall, Expr.Means] at hD
      obtain ⟨-, As, hAs, rfl⟩ := hD
      obtain rfl := means_strings hAs
      rw [simplify] at hp
      cases hp
      exact decides_key W hc hname
  | first ht predicates =>
      rw [Expr.Means] at hD
      obtain ⟨-, A, Bs, hA, hBs, rfl⟩ := hD
      rw [Expr.Means] at hA
      subst hA
      obtain ⟨parent, ancestor, kept, hparent, hancestor, hkept, rfl⟩ := simplify_location hp
      cases hparent
      cases hancestor
      exact decides_kept W R hc (leads_first W) ht hBs hkept
  | child hq ht predicates ih =>
      rw [Expr.Means] at hD
      obtain ⟨-, A, Bs, hA, hBs, rfl⟩ := hD
      obtain ⟨parent, ancestor, kept, hparent, hancestor, hkept, rfl⟩ := simplify_location hp
      obtain ⟨q', hq', hparent⟩ := bind_eq_ok.mp hparent
      cases hparent
      cases hancestor
      exact decides_kept W R hc (leads_child W (ih hA hq')) ht hBs hkept
  | under hq ht predicates ih =>
      rw [Expr.Means] at hD
      obtain ⟨-, A, Bs, hA, hBs, rfl⟩ := hD
      rw [Expr.thenStep, Expr.Means] at hA
      obtain ⟨-, A', Bs', hA', hBs', rfl⟩ := hA
      rw [Expr.anyDescendant, Expr.MeansList] at hBs'
      subst hBs'
      obtain ⟨parent, ancestor, kept, hparent, hancestor, hkept, rfl⟩ := simplify_location hp
      obtain ⟨q', hq', hancestor⟩ := bind_eq_ok.mp hancestor
      cases hparent
      cases hancestor
      exact decides_kept W R hc (leads_under W (ih hA' hq')) ht hBs hkept
  | union _ _ ihp ihq =>
      rw [Expr.Means] at hD
      obtain ⟨A, B, hA, hB, rfl⟩ := hD
      rw [simplify] at hp
      obtain ⟨p', hp', hp⟩ := bind_eq_ok.mp hp
      obtain ⟨q', hq', hp⟩ := bind_eq_ok.mp hp
      cases hp
      exact decides_union W (ihp hA hp') (ihq hB hq')

omit W in
/-- What is simplified as a pattern can be simplified as an expression. -/
theorem simplify_of_spells (hspells : Spells s p e) (hp : p.simplify F = .ok p') :
    ∃ e', e.simplify F = .ok e' := by
  have hpath {start start' : Expr} {axis : Axis} {test : NodeTest} {es : List Expr}
      {kept : Option (List Expr)} (hstart : start.simplify F = .ok start')
      (hkept : Expr.simplifyPredicates F es = .ok kept) :
      ∃ e', (Expr.path start axis test es).simplify F = .ok e' := by
    rw [Expr.simplify, hstart, ok_bind]
    split
    · exact ⟨_, rfl⟩
    · rw [hkept]
      cases kept <;> exact ⟨_, rfl⟩
  induction hspells generalizing p' with
  | document => exact ⟨.root, by rw [Expr.simplify]⟩
  | @key name display value hname =>
      have hargs : Expr.simplifyList F [.string display, .string value] =
          .ok [.string display, .string value] := by
        simp [Expr.simplifyList, Expr.string, Expr.simplify]
      have hdependent : (intrinsicDependencies .key 2
          { CallBinding.free with scope := some s.nameScope }).isEmpty = false := by
        change (Dependencies.contextNode ||| Dependencies.controller).isEmpty = false
        decide
      refine ⟨keyCall s display value, ?_⟩
      rw [keyCall, Expr.simplify, hargs, ok_bind]
      unfold Expr.ofCall
      rw [if_neg (by simp [hdependent])]
  | first _ predicates =>
      obtain ⟨_, _, kept, -, -, hkept, -⟩ := simplify_location hp
      exact hpath (by rw [Expr.simplify]) hkept
  | child _ _ predicates ih =>
      obtain ⟨_, _, kept, hparent, -, hkept, -⟩ := simplify_location hp
      obtain ⟨q', hq', -⟩ := bind_eq_ok.mp hparent
      obtain ⟨e', he'⟩ := ih hq'
      exact hpath he' hkept
  | under _ _ predicates ih =>
      obtain ⟨_, _, kept, -, hancestor, hkept, -⟩ := simplify_location hp
      obtain ⟨q', hq', -⟩ := bind_eq_ok.mp hancestor
      obtain ⟨e', he'⟩ := ih hq'
      have hnone : Expr.simplifyPredicates F Expr.anyDescendant.predicates = .ok (some []) := by
        rw [Expr.anyDescendant, Expr.simplifyPredicates]
      obtain ⟨start', hstart⟩ := hpath he' hnone
      exact hpath hstart hkept
  | union _ _ ihp ihq =>
      rw [simplify] at hp
      obtain ⟨p', hp', hp⟩ := bind_eq_ok.mp hp
      obtain ⟨q', hq', hp⟩ := bind_eq_ok.mp hp
      obtain ⟨e', he'⟩ := ihp hp'
      obtain ⟨f', hf'⟩ := ihq hq'
      exact ⟨_, by rw [Expr.simplify, he', hf']; rfl⟩

end

end Pattern

end XPath
