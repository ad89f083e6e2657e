import XPath.Proofs.Evaluation.Answers

/-!
# Functions of the host in predicates

A call of a function of the host is answered during reduction, arguments and all, as soon as the
function reads a facet of the mask. Inside a predicate the mask keeps only the facets that stay
fixed along a list, but the context of the reduction has no item yet. That is right for a function
that reads none of those facets, and for a call that reads nothing of the item
(`Expr.Settles`). If all calls in predicates are of these kinds, the nodes of the value are the nodes
that are found (`Expr.Compiled.select_eq_inOrder_drain`). A call that reads facets of both kinds is
answered for the wrong node (`Expr.not_select_eq_inOrder_drain`).
-/

namespace XPath

variable {h : Host} {Γ : Typing} {inner : Bool} {c σ τ : Context} {e : Expr} {D : Meaning}
  {ns ms : List Node}

/-! ## The facets of the item -/

def Dependencies.item : Dependencies := .contextNode ||| .position ||| .last

/-- To rebind what stays fixed along a list is to rebind the item the other way round. -/
theorem Context.rebind_outer (σ τ : Context) : σ.rebind .outer τ = τ.rebind .item σ := by
  simp [rebind, Dependencies.item]

/-! ## Lawful functions -/

namespace Host

/-- What the function returns depends on what its arguments come to and on the facets that it
declares, and is of the type that it declares. -/
def Lawful (h : Host) (Γ : Typing) (f : ExtensionFunction) : Prop :=
  ∃ answer, f.Answers h.forest answer ∧ h.Returns Γ f answer

open Classical in
noncomputable def lawfulCalls (h : Host) (Γ : Typing) : Calls h.forest where
  known f := h.Lawful Γ f
  answer f := if hf : h.Lawful Γ f then hf.choose else fun _ _ => .nodes []
  answers hf := by
    rw [dif_pos hf]
    exact hf.choose_spec.1

instance (h : Host) (Γ : Typing) : h.Realizes (h.lawfulCalls Γ) Γ where
  returns {f} hf := by
    have hanswer : (h.lawfulCalls Γ).answer f = Exists.choose hf := dif_pos hf
    rw [hanswer]
    exact (Exists.choose_spec hf).2

end Host

namespace Expr

/-! ## What comes to nodes -/

/-- Expressions that come to nodes wherever variables are of their types. A step finds no nodes from
what is no node-set, but a step to the node itself leaves it as it is. -/
def findsNodes (Γ : Typing) : Expr → Bool
  | path start axis test _ => axis != .selfAxis || test.kind != .node || start.findsNodes Γ
  | filter base _ => base.findsNodes Γ
  | setOperation _ lhs rhs => lhs.findsNodes Γ && rhs.findsNodes Γ
  | sorted selection _ => selection.findsNodes Γ
  | e => e.selects Γ

theorem Means.of_findsNodes {F : Forest} {Φ : Calls F} {e : Expr} {D : Meaning}
    (hD : e.Means F Φ Γ inner D) (hfinds : e.findsNodes Γ = true) (hσ : σ.Sound F Γ) :
    (D σ).dataType = .nodeSet := by
  match e with
  | path start axis test predicates =>
      rw [Means] at hD
      rw [findsNodes] at hfinds
      obtain ⟨-, A, Bs, hA, -, rfl⟩ := hD
      unfold Meaning.path
      split
      · rfl
      · rename_i hscalar
        split
        · rename_i hself
          have hstart := hA.of_findsNodes (by simpa [hself] using hfinds) hσ
          obtain ⟨ns, hns⟩ := Outcome.eq_nodes_of_dataType hstart
          exact absurd hns (hscalar ns)
        · rfl
  | filter base predicate =>
      rw [Means] at hD
      obtain ⟨A, B, hA, -, rfl⟩ := hD
      exact dataType_select (hA.of_findsNodes hfinds hσ)
  | setOperation op lhs rhs =>
      rw [Means] at hD
      rw [findsNodes, Bool.and_eq_true] at hfinds
      obtain ⟨A, B, hA, hB, rfl⟩ := hD
      obtain ⟨as, has⟩ := Outcome.eq_nodes_of_dataType (hA.of_findsNodes hfinds.1 hσ)
      obtain ⟨bs, hbs⟩ := Outcome.eq_nodes_of_dataType (hB.of_findsNodes hfinds.2 hσ)
      dsimp only
      rw [has, hbs]
      rfl
  | sorted selection keys =>
      rw [Means] at hD
      exact hD.1.of_findsNodes hfinds hσ
  | literal _ | reference .. | binary .. | negate _ | nodeComparison .. | contextNode | parentNode
  | root | attributeNamed .. | call .. | extension .. | template _ | failure _ =>
      exact hD.of_selects hfinds hσ

/-! ## Expressions with calls of the host -/

/-- What values and enumerations ask of the parts of an expression to agree: values that are held
are sound, functions of the host are lawful, and what is lazy comes to nodes if a comparison by
order or a function of the host takes it. -/
def Lawful (h : Host) (Γ : Typing) : Expr → Prop
  | literal v => v.Sound h.forest
  | reference _ _ (some v) => v.Sound h.forest
  | reference name _ none => (Γ name).isSome = true
  | binary op _ rhs => op.isRelational = true → rhs.isLazy = true → rhs.findsNodes Γ = true
  | extension _ _ function args => h.Lawful Γ function ∧
      ∀ a ∈ args, a.isLazy = true → a.findsNodes Γ = true
  | _ => True

/-- A call for which it is right to be answered without an item, or that is not: the call reads
nothing of the item, or the function reads none of the facets that stay fixed along a list. -/
def Settles : Expr → Prop
  | extension _ _ function args => function.dependencies.intersects .outer = false ∨
      (function.dependencies ||| dependenciesOfList args).intersects .item = false
  | _ => True

def SettlesInside : Expr → Prop
  | path _ _ _ predicates => EveryOfList Settles predicates
  | filter _ predicate => predicate.Every Settles
  | sorted _ keys => ∀ k ∈ keys, k.key.Every Settles
  | _ => True

/-- An expression has a meaning if this holds of every part. -/
structure Answerable (h : Host) (Γ : Typing) (e : Expr) : Prop where
  lawful : e.Lawful h Γ
  regular : e.Regular h.forest
  settlesInside : e.SettlesInside

theorem lists_of_findsNodes {F : Forest} {Φ : Calls F} {es : List Expr} {As : List Meaning}
    (hAs : MeansList F Φ Γ inner es As)
    (hfinds : ∀ e ∈ es, e.isLazy = true → e.findsNodes Γ = true) :
    List.Forall₂ (Lists F Γ) es As := by
  induction es generalizing As with
  | nil =>
      rw [MeansList] at hAs
      rw [hAs]
      exact .nil
  | cons e es ih =>
      rw [MeansList] at hAs
      obtain ⟨A, As, hA, hAs, rfl⟩ := hAs
      exact .cons (fun hlazy σ hσ => hA.of_findsNodes (hfinds e List.mem_cons_self hlazy) hσ)
        (ih hAs fun e he => hfinds e (List.mem_cons_of_mem _ he))

/-- A call that reads nothing of the item comes to the same for every item. -/
theorem settled_of_settles {F : Forest} {Φ : Calls F} (W : F.WellFormed) {name : ExpandedName}
    {display : String} {function : ExtensionFunction} {args : List Expr} {As : List Meaning}
    (hknown : Φ.known function) (hAs : MeansList F Φ Γ inner args As)
    (h : (extension name display function args).Settles) :
    Meaning.Settled (fun σ => Φ.answer function (As.map fun A => A σ) σ) function := by
  refine h.imp_right fun hitem σ τ => ?_
  rw [Dependencies.intersects_or, Bool.or_eq_false_iff] at hitem
  rw [Context.rebind_outer]
  exact congrFun ((Φ.answers hknown).rebind_eq hitem.1 (MeansList.rebind_eq W hAs hitem.2)) τ

mutual

theorem exists_means {inner : Bool} (W : h.forest.WellFormed) (e : Expr)
    (he : e.Every (Answerable h Γ)) (hinner : inner = true → e.Every Settles) :
    ∃ D, e.Means h.forest (h.lawfulCalls Γ) Γ inner D := by
  match e with
  | literal v | reference _ _ (some v) =>
      rw [Every] at he
      simp only [Means]
      exact ⟨_, _, Value.Sound.denotes W he.lawful, rfl⟩
  | reference name display none =>
      rw [Every] at he
      simp only [Means]
      exact ⟨_, he.lawful, rfl⟩
  | binary op lhs rhs =>
      rw [Every] at he
      obtain ⟨A, hA⟩ := exists_means W lhs he.2.1 fun hi => (hinner hi).2.1
      obtain ⟨B, hB⟩ := exists_means W rhs he.2.2 fun hi => (hinner hi).2.2
      simp only [Means]
      refine ⟨_, A, B, hA, hB, fun hrel hlazy => ?_, rfl⟩
      have hlists : rhs.Lists h.forest Γ B := fun _ _ hσ =>
        hB.of_findsNodes (he.1.lawful hrel hlazy) hσ
      exact hlists.compares hrel hlazy
  | negate e =>
      rw [Every] at he
      obtain ⟨A, hA⟩ := exists_means W e he.2 fun hi => (hinner hi).2
      simp only [Means]
      exact ⟨_, A, hA, rfl⟩
  | nodeComparison node op v =>
      rw [Every] at he
      obtain ⟨A, hA⟩ := exists_means W node he.2 fun hi => (hinner hi).2
      simp only [Means]
      exact ⟨_, he.1.regular.1, he.1.regular.2, A, hA, rfl⟩
  | contextNode | parentNode | root | failure e =>
      simp only [Means]
      exact ⟨_, rfl⟩
  | attributeNamed name display parent =>
      rw [Every] at he
      simp only [Means]
      exact ⟨_, he.regular, rfl⟩
  | path start axis test predicates =>
      rw [Every] at he
      obtain ⟨A, hA⟩ := exists_means W start he.2.1 fun hi => (hinner hi).2.1
      obtain ⟨Bs, hBs⟩ := exists_meansList W predicates he.2.2 fun _ => he.1.settlesInside
      simp only [Means]
      exact ⟨_, he.1.regular, A, Bs, hA, hBs, rfl⟩
  | filter base predicate =>
      rw [Every] at he
      obtain ⟨A, hA⟩ := exists_means W base he.2.1 fun hi => (hinner hi).2.1
      obtain ⟨B, hB⟩ := exists_means W predicate he.2.2 fun _ => he.1.settlesInside
      simp only [Means]
      exact ⟨_, A, B, hA, hB, rfl⟩
  | setOperation op lhs rhs =>
      rw [Every] at he
      obtain ⟨A, hA⟩ := exists_means W lhs he.2.1 fun hi => (hinner hi).2.1
      obtain ⟨B, hB⟩ := exists_means W rhs he.2.2 fun hi => (hinner hi).2.2
      simp only [Means]
      exact ⟨_, A, B, hA, hB, rfl⟩
  | call function args binding =>
      rw [Every] at he
      obtain ⟨As, hAs⟩ := exists_meansList W args he.2 fun hi => (hinner hi).2
      simp only [Means]
      exact ⟨_, he.1.regular, As, hAs, rfl⟩
  | extension name display function args =>
      rw [Every] at he
      obtain ⟨As, hAs⟩ := exists_meansList W args he.2 fun hi => (hinner hi).2
      obtain ⟨hlawful, hfinds⟩ := he.1.lawful
      simp only [Means]
      exact ⟨_, hlawful, fun hi => settled_of_settles W hlawful hAs (hinner hi).1, As, hAs,
        lists_of_findsNodes hAs hfinds, rfl⟩
  | sorted selection keys =>
      rw [Every] at he
      obtain ⟨D, hD⟩ := exists_means W selection he.2.1 fun hi => (hinner hi).2.1
      obtain ⟨Ks, hKs⟩ := exists_meansKeys W keys he.2.2 he.1.settlesInside
        fun hi => (hinner hi).2.2
      simp only [Means]
      exact ⟨D, hD, Ks, hKs⟩
  | template parts =>
      rw [Every] at he
      obtain ⟨As, hAs⟩ := exists_meansParts W parts he.2 fun hi => (hinner hi).2
      simp only [Means]
      exact ⟨_, As, hAs, rfl⟩

theorem exists_meansList {inner : Bool} (W : h.forest.WellFormed) (es : List Expr)
    (hes : EveryOfList (Answerable h Γ) es) (hinner : inner = true → EveryOfList Settles es) :
    ∃ Ds, MeansList h.forest (h.lawfulCalls Γ) Γ inner es Ds := by
  match es with
  | [] => exact ⟨[], by rw [MeansList]⟩
  | e :: es =>
      rw [EveryOfList] at hes
      obtain ⟨D, hD⟩ := exists_means W e hes.1 fun hi => (hinner hi).1
      obtain ⟨Ds, hDs⟩ := exists_meansList W es hes.2 fun hi => (hinner hi).2
      exact ⟨D :: Ds, by rw [MeansList]; exact ⟨D, Ds, hD, hDs, rfl⟩⟩

theorem exists_meansOption {inner : Bool} (W : h.forest.WellFormed) (e : Option Expr)
    (he : EveryOfOption (Answerable h Γ) e) (hinner : inner = true → EveryOfOption Settles e) :
    ∃ D, MeansOption h.forest (h.lawfulCalls Γ) Γ inner e D := by
  match e with
  | none => exact ⟨none, by rw [MeansOption]⟩
  | some e =>
      obtain ⟨D, hD⟩ := exists_means W e he hinner
      exact ⟨some D, by rw [MeansOption]; exact ⟨D, hD, rfl⟩⟩

theorem exists_meansKeys {inner : Bool} (W : h.forest.WellFormed) (ks : List SortKey)
    (hks : EveryOfKeys (Answerable h Γ) ks) (hinside : ∀ k ∈ ks, k.key.Every Settles)
    (hinner : inner = true → EveryOfKeys Settles ks) :
    ∃ Ks, MeansKeys h.forest (h.lawfulCalls Γ) Γ inner ks Ks := by
  match ks with
  | [] => exact ⟨[], by rw [MeansKeys]⟩
  | .mk key order dataType caseOrder lang :: ks =>
      rw [EveryOfKeys] at hks
      obtain ⟨hkey, horder, htype, hcase, hlang, hks⟩ := hks
      obtain ⟨K, hK⟩ := exists_means W key hkey fun _ => hinside _ List.mem_cons_self
      obtain ⟨O, hO⟩ := exists_meansOption W order horder fun hi => (hinner hi).2.1
      obtain ⟨T, hT⟩ := exists_meansOption W dataType htype fun hi => (hinner hi).2.2.1
      obtain ⟨C, hC⟩ := exists_meansOption W caseOrder hcase fun hi => (hinner hi).2.2.2.1
      obtain ⟨L, hL⟩ := exists_meansOption W lang hlang fun hi => (hinner hi).2.2.2.2.1
      obtain ⟨Ks, hKs⟩ := exists_meansKeys W ks hks (fun k hk => hinside k (List.mem_cons_of_mem _ hk))
        fun hi => (hinner hi).2.2.2.2.2
      refine ⟨⟨K, O, T, C, L⟩ :: Ks, ?_⟩
      rw [MeansKeys]
      refine ⟨_, Ks, ?_, hKs, rfl⟩
      rw [MeansKey]
      exact ⟨hK, hO, hT, hC, hL⟩

theorem exists_meansParts {inner : Bool} (W : h.forest.WellFormed) (ps : List TemplatePart)
    (hps : EveryOfParts (Answerable h Γ) ps) (hinner : inner = true → EveryOfParts Settles ps) :
    ∃ Ds, MeansParts h.forest (h.lawfulCalls Γ) Γ inner ps Ds := by
  match ps with
  | [] => exact ⟨[], by rw [MeansParts]⟩
  | .text text :: ps =>
      rw [EveryOfParts] at hps
      obtain ⟨Ds, hDs⟩ := exists_meansParts W ps hps fun hi => hinner hi
      refine ⟨(fun _ => .string text) :: Ds, ?_⟩
      rw [MeansParts]
      exact ⟨_, Ds, by rw [MeansPart], hDs, rfl⟩
  | .expr e :: ps =>
      rw [EveryOfParts] at hps
      obtain ⟨D, hD⟩ := exists_means W e hps.1 fun hi => (hinner hi).1
      obtain ⟨Ds, hDs⟩ := exists_meansParts W ps hps.2 fun hi => (hinner hi).2
      refine ⟨D :: Ds, ?_⟩
      rw [MeansParts]
      exact ⟨D, Ds, by rwa [MeansPart], hDs, rfl⟩

end

/-! ## The nodes of the value and the nodes that are found -/

/-- The nodes of the value are the nodes that are found, in document order. -/
theorem Means.eq_inOrder {Φ : Calls h.forest} [h.Realizes Φ Γ]
    (W : h.forest.WellFormed) (hD : e.Means h.forest Φ Γ inner D) (hc : c.Sound h.forest Γ)
    (hns : e.select h c = .ok ns) (hms : e.drain h c = .ok ms) : ns = h.forest.inOrder ms := by
  obtain ⟨en, hen, hms⟩ := bind_eq_ok.mp hms
  obtain ⟨ks, hks, hlists, -⟩ := (h.sound_engine W _).enumerate hD (.refl _) hc hen
  rw [hD.select W hc hns] at hks
  cases hks
  have hmem := hlists.mem_iff hms
  have hhas : ∀ m ∈ ms, h.forest.Has m := fun m hm => hlists.has m ((hmem m).mp hm)
  exact hlists.ascending.eq_of_mem_iff (Forest.ascending_inOrder _ _) fun n =>
    (hmem n).symm.trans (W.mem_inOrder hhas).symm

/-! ## A function that reads the item -/

/-- The function `f`, which returns the context node and declares these facets. -/
def contextual (d : Dependencies) : ExtensionFunction := ⟨0, "f", 0, 0, d, .any⟩

def contextualHost : Host := .ofRoutines .nested [.contextNode]

def contextualScope (d : Dependencies) : StaticScope :=
  { namespaces := [("u", "urn:u")], extensions := [("urn:u", contextual d)] }

/-- `//x[u:f()/self::x]` -/
def foundByCall (d : Dependencies) : Expr :=
  everywhere "x" [path (extension ⟨"urn:u", "f"⟩ "u:f" (contextual d) []) .selfAxis
    ⟨.element, .named (.unprefixed "x")⟩ []]

-- Otherwise the reader's test for names of node types is unfolded down to the bytes of the names.
attribute [local irreducible] Lexer.isNodeTypeName in
theorem parse_foundByCall (d : Dependencies) :
    parse (contextualScope d) .nested "//x[u:f()/self::x]" = .ok (foundByCall d) := by
  cbv

theorem lawful_contextual {d : Dependencies} (hd : d.bit 3 = true) :
    contextualHost.Lawful Γ (contextual d) := by
  refine ⟨fun _ σ => .nodes σ.contextNode?.toList, ⟨fun m ws σ τ hm => ?_, nofun, ?_⟩, ⟨?_⟩⟩
  · rw [(Context.rebind_facet hm).2.2.1 hd]
  · rintro ws σ ns ⟨rfl⟩
    exact Forest.ascending_toList _ _
  · intro vs ws c σ v _ hc hσ hv
    have hrun : (do return Value.nodeSet (.singleton (← c.contextNode))) = Except.ok v := hv
    obtain ⟨n, hn, hv⟩ := bind_eq_ok.mp hrun
    cases hv
    have hσn : σ.contextNode? = some n := hc.contextNode ▸ Context.contextNode_eq_ok.mp hn
    rw [hσn]
    refine ⟨.singleton Forest.wellFormed_nested (hσ.contextNode n hσn), rfl, ?_⟩
    rintro ns ⟨rfl⟩
    exact Forest.ascending_singleton _ n

theorem lawful_foundByCall {d : Dependencies} (hd : d.bit 3 = true) :
    (foundByCall d).Every (Lawful contextualHost Γ) := by
  simp [Every, EveryOfList, Lawful, foundByCall, everywhere, lawful_contextual hd]

/-- If all calls of the host in predicates and sort keys settle, the nodes of the value are the nodes
that are found. -/
theorem Compiled.select_eq_inOrder_drain (W : h.forest.WellFormed) (he : Compiled h.forest e)
    (hlawful : e.Every (Lawful h Γ)) (hsettles : e.Every SettlesInside)
    (hc : c.Sound h.forest Γ) (hns : e.select h c = .ok ns) (hms : e.drain h c = .ok ms) :
    ns = h.forest.inOrder ms := by
  have hparts := (hlawful.imp₂ (fun _ => And.intro) he.isRegular).imp₂
    (fun _ h hsettles => Answerable.mk h.1 h.2 hsettles) hsettles
  obtain ⟨D, hD⟩ : ∃ D, e.Means h.forest (h.lawfulCalls Γ) Γ false D :=
    exists_means W e hparts nofun
  exact hD.eq_inOrder W hc hns hms

/-- If the function declares the context node alone, `//x[u:f()/self::x]` selects what it finds. -/
theorem select_eq_drain_foundByCall :
    (foundByCall .contextNode).select contextualHost flagContext = .ok [⟨0, 2⟩] ∧
      (foundByCall .contextNode).drain contextualHost flagContext = .ok [⟨0, 2⟩] ∧
      [⟨0, 2⟩] = contextualHost.forest.inOrder [⟨0, 2⟩] := by
  have hselect : (foundByCall .contextNode).select contextualHost flagContext =
      .ok [⟨0, 2⟩] := toOption_eq_some.mp (by decide +kernel)
  have hdrain : (foundByCall .contextNode).drain contextualHost flagContext =
      .ok [⟨0, 2⟩] := toOption_eq_some.mp (by decide +kernel)
  have hsettles : (foundByCall .contextNode).Every SettlesInside := by
    have houter : Dependencies.contextNode.intersects .outer = false := by decide
    simp [Every, EveryOfList, SettlesInside, Settles, foundByCall, everywhere, contextual, houter]
  exact ⟨hselect, hdrain, Compiled.select_eq_inOrder_drain (h := contextualHost)
    Forest.wellFormed_nested (.parsed (parse_foundByCall _)) (lawful_foundByCall (by simp)) hsettles
    sound_flagContext hselect hdrain⟩

/-- Once the function declares the current node as well, the call in `//x[u:f()/self::x]` is answered
for the node that the expression is evaluated at, and no item passes. -/
theorem not_select_eq_inOrder_drain : ¬∀ (h : Host) (Γ : Typing) (e : Expr) (c : Context)
    (ns ms : List Node), h.forest.WellFormed → Compiled h.forest e → e.Every (Lawful h Γ) →
      c.Sound h.forest Γ → e.select h c = .ok ns → e.drain h c = .ok ms →
        ns = h.forest.inOrder ms := by
  intro hequal
  have hselect : (foundByCall (.currentNode ||| .contextNode)).select contextualHost
      flagContext = .ok [] := toOption_eq_some.mp (by decide +kernel)
  have hdrain : (foundByCall (.currentNode ||| .contextNode)).drain contextualHost
      flagContext = .ok [⟨0, 2⟩] := toOption_eq_some.mp (by decide +kernel)
  have hnil := hequal contextualHost _ _ _ _ _ Forest.wellFormed_nested
    (.parsed (parse_foundByCall _)) (lawful_foundByCall (by simp)) sound_flagContext hselect hdrain
  rw [Forest.inOrder_of_ascending (Forest.ascending_singleton _ _)] at hnil
  cases hnil

end Expr

end XPath
