import XPath.Proofs.Evaluation.Sorting
import XPath.Proofs.Policy.Expr

/-!
# Evaluation under a policy

An engine that covers the parts of an expression makes an engine that covers the expression
(`Policy.Covers.next`). So the engines of a host cover what they are deep enough for
(`Policy.covers_engine`): an expression is answered `2 * e.size` levels deep, and listed one level
earlier.
-/

namespace XPath

open XPath.Expr hiding failure

variable {P : Policy} {h : Host} {E : Engine} {depth n k : Nat} {c : Context} {v : Value}
  {e predicate : Expr} {en base : Enumeration} {node : Node}

theorem Dependencies.isEmpty_of_disjoint_all {d : Dependencies} (hd : d.intersects .all = false) :
    d.isEmpty = true := by
  rw [isEmpty_iff]
  intro i
  by_cases hi : i < 8
  · rw [disjoint_iff] at hd
    refine Bool.eq_false_iff.mpr fun hbit => ?_
    simpa [hi] using hd i hbit
  · rw [bit, BitVec.getLsbD_of_ge _ _ (by omega)]

namespace Policy

/-! ## Predicates and steps -/

/-- What reading the enumeration meets is admitted, whatever its flags say. -/
structure Meets (P : Policy) (en : Enumeration) : Prop where
  items : ∀ item ∈ en.items, Ends P.error P.node item
  beyond : ∀ e, some e ∈ en.beyond → P.error e

theorem AdmitsListing.meets (hen : P.AdmitsListing en) : P.Meets en where
  items item hitem := by
    cases item with
    | ok n => exact hen.nodes n hitem
    | error e => exact hen.errors e hitem
  beyond := hen.beyond

theorem Meets.admits (hen : P.Meets en) (hflags : P.flags en) : P.AdmitsListing en where
  nodes _ hn := hen.items _ hn
  errors _ he := hen.items _ he
  beyond := hen.beyond
  flags := hflags

theorem AdmitsContext.forItem (hc : P.AdmitsContext c) (hn : P.node node) {l : LastPosition} :
    P.AdmitsContext (c.forItem node k l) where
  contextNode := by
    rintro _ ⟨⟩
    exact hn
  currentNode := hc.currentNode
  bindings := hc.bindings
  controller := hc.controller

theorem passes_computes (hP : P.Closed h) (hserves : P.Serves E predicate c) :
    P.Computes (E.passes h.forest predicate c) := by
  unfold Engine.passes
  dsimp only
  split
  · exact Ends.pure trivial
  · exact hserves.number.bind fun _ _ _ => Ends.pure trivial
  · exact hserves.truth
  · refine hserves.value.bind fun v _ hv => ?_
    split
    · exact Ends.pure trivial
    · exact computes_toBool hP hv

theorem meets_keepIf (hn : P.node node) {test : Except Error Bool} (htest : P.Computes test) :
    ∀ item ∈ keepIf node test, Ends P.error P.node item := by
  unfold keepIf
  split
  · rintro _ hitem
    obtain rfl := List.mem_singleton.mp hitem
    exact hn
  · simp
  · rintro _ hitem
    obtain rfl := List.mem_singleton.mp hitem
    exact htest

/-- A scan yields nothing but nodes it was given, errors it was given, and errors of the tests. -/
theorem meets_filterItems (hP : P.Closed h)
    (hserves : ∀ n k l, P.node n → P.Serves E predicate (c.forItem n k l)) {size : ListSize}
    (items : List Item) (hitems : ∀ item ∈ items, Ends P.error P.node item) (position : Nat)
    (skipped : Bool) :
    ∀ item ∈ filterItems E h.forest predicate c size position skipped items,
      Ends P.error P.node item := by
  induction items generalizing position skipped with
  | nil => simp [filterItems]
  | cons first rest ih =>
      have hrest := ih fun item h => hitems item (List.mem_cons_of_mem _ h)
      have hfirst : Ends P.error P.node first := hitems first List.mem_cons_self
      have hcons {first : Item} {items : List Item} (hfirst : Ends P.error P.node first)
          (hitems : ∀ item ∈ items, Ends P.error P.node item) :
          ∀ item ∈ first :: items, Ends P.error P.node item := by
        simpa using ⟨hfirst, hitems⟩
      cases skipped with
      | true =>
          cases first with
          | error e | ok n =>
              rw [filterItems]
              exact hrest _ _
      | false =>
          cases first with
          | error e =>
              rw [filterItems]
              exact hcons hfirst (hrest _ _)
          | ok n =>
              have htest (l : LastPosition) :
                  P.Computes (E.passes h.forest predicate (c.forItem n (position + 1) l)) :=
                passes_computes hP (hserves n _ l hfirst)
              have happend {test : Except Error Bool} {items : List Item} (ht : P.Computes test)
                  (hitems : ∀ item ∈ items, Ends P.error P.node item) :
                  ∀ item ∈ keepIf n test ++ items, Ends P.error P.node item := by
                intro item hitem
                rcases List.mem_append.mp hitem with hitem | hitem
                · exact meets_keepIf hfirst ht item hitem
                · exact hitems item hitem
              unfold filterItems
              dsimp only
              split
              · split
                · exact happend (htest _) (by simp)
                · exact happend (htest _) (hrest _ _)
              · split
                · exact happend (htest _) (hrest _ _)
                · exact happend (htest _) (hrest _ _)
                · split
                  · exact happend (htest _) (hrest _ _)
                  · rename_i failure hfailure
                    split
                    · have hcollect : Ends P.error P.AdmitsNodes (collect rest) := nodes_of_collect
                        (fun n hn => hitems _ (List.mem_cons_of_mem _ hn))
                        fun e he => hitems _ (List.mem_cons_of_mem _ he)
                      have hmet : Ends P.error P.node (.error failure) := hcollect.of_error hfailure
                      exact hcons hmet (hrest _ _)
                    · exact happend (htest _) (hrest _ _)

theorem meets_filter (hP : P.Closed h)
    (hserves : ∀ n k l, P.node n → P.Serves E predicate (c.forItem n k l)) (hbase : P.Meets base) :
    P.Meets (E.filter h.forest base predicate c) := by
  have hpassing (size : ListSize) :
      ∀ item ∈ filterItems E h.forest predicate c size 0 false base.items,
        Ends P.error P.node item := meets_filterItems hP hserves base.items hbase.items 0 false
  unfold Engine.filter
  dsimp only
  generalize (if base.size = .unknown && predicate.dependencies.contains .last then ListSize.ahead
    else base.size) = size
  split
  · exact ⟨hpassing _, by simp⟩
  · split
    · refine ⟨fun item hitem => ?_, fun e he => hbase.beyond e ?_⟩
      · rcases List.mem_append.mp hitem with hitem | hitem
        · exact hpassing _ item hitem
        · obtain ⟨met, hmet, heq⟩ := List.mem_filterMap.mp hitem
          obtain ⟨e, rfl, rfl⟩ := Option.map_eq_some_iff.mp heq
          exact hbase.beyond e ((List.takeWhile_sublist _).subset hmet)
      · exact (List.dropWhile_sublist _).subset (List.mem_of_mem_drop he)
    · exact ⟨hpassing _, hbase.beyond⟩

theorem meets_step (hP : P.Closed h) {axis : Axis} {test : NodeTest} {predicates : List Expr}
    (hserves : ∀ p ∈ predicates, ∀ n k l, P.node n → P.Serves E p (c.forItem n k l))
    (hn : P.node node) : P.Meets (E.step h.forest axis test predicates c node) := by
  have haxis : P.Meets (axisEnumeration h.forest axis node (some test)) := by
    refine ⟨fun item hitem => ?_, by simp [axisEnumeration]⟩
    obtain ⟨m, hm, rfl⟩ := List.mem_map.mp hitem
    exact hP.walk hn m (List.mem_filter.mp hm).1
  unfold Engine.step
  generalize axisEnumeration h.forest axis node (some test) = base at haxis
  induction predicates generalizing base with
  | nil => exact haxis
  | cons p predicates ih =>
      exact ih (fun q hq => hserves q (List.mem_cons_of_mem _ hq)) _
        (meets_filter hP (hserves p List.mem_cons_self) haxis)

theorem meets_path (hP : P.Closed h) {axis : Axis} {test : NodeTest} {predicates : List Expr}
    {one : Bool}
    (hserves : ∀ p ∈ predicates, ∀ n k l, P.node n → P.Serves E p (c.forItem n k l))
    (hbase : P.Meets base) : P.Meets (E.path h.forest base axis test predicates c one) := by
  refine ⟨fun item hitem => ?_, hbase.beyond⟩
  obtain ⟨origin, horigin, hitem⟩ := List.mem_flatMap.mp hitem
  have hmet := hbase.items origin horigin
  cases origin with
  | error e =>
      obtain rfl := List.mem_singleton.mp hitem
      exact hmet
  | ok n => exact (meets_step hP hserves hmet).items item hitem

/-! ## Sorts -/

theorem admits_key {ks : List SortKey} (hks : EveryOfKeys P.AdmitsPart ks) {s : SortKey}
    (hs : s ∈ ks) : P.AdmitsExpr s.key ∧ EveryOfOption P.AdmitsPart s.order ∧
      EveryOfOption P.AdmitsPart s.dataType ∧ EveryOfOption P.AdmitsPart s.caseOrder ∧
      EveryOfOption P.AdmitsPart s.lang := by
  induction ks with
  | nil => cases hs
  | cons first ks ih =>
      obtain ⟨key, order, dataType, caseOrder, lang⟩ := first
      rw [EveryOfKeys] at hks
      obtain ⟨hkey, horder, htype, hcase, hlang, hks⟩ := hks
      rcases List.mem_cons.mp hs with rfl | hs
      · exact ⟨hkey, horder, htype, hcase, hlang⟩
      · exact ih hks hs

theorem size_of_mem_keys {ks : List SortKey} {s : SortKey} (hs : s ∈ ks) :
    sizeOfKey s ≤ sizeOfKeys ks := by
  induction ks with
  | nil => cases hs
  | cons first ks ih =>
      rw [sizeOfKeys]
      rcases List.mem_cons.mp hs with rfl | hs
      · omega
      · have := ih hs
        omega

theorem admits_part {ps : List TemplatePart} (hps : EveryOfParts P.AdmitsPart ps)
    (hp : .expr e ∈ ps) : P.AdmitsExpr e ∧ e.size < sizeOfParts ps := by
  induction ps with
  | nil => cases hp
  | cons first ps ih =>
      rw [sizeOfParts]
      rcases List.mem_cons.mp hp with rfl | hp
      · rw [EveryOfParts] at hps
        rw [sizeOfPart]
        exact ⟨hps.1, by omega⟩
      · have hrest : EveryOfParts P.AdmitsPart ps := by
          cases first with
          | text text => exact hps
          | expr e => exact hps.2
        obtain ⟨he, hlt⟩ := ih hrest hp
        exact ⟨he, by omega⟩

/-- The engine answers the key for every item, and the attributes once. -/
structure ServesKey (P : Policy) (E : Engine) (s : SortKey) (c : Context) : Prop where
  key : ∀ n k l, P.node n → P.Computes (E.text s.key (c.forItem n k l))
  order : ∀ e, s.order = some e → P.Computes (E.text e c)
  dataType : ∀ e, s.dataType = some e → P.Computes (E.text e c)
  caseOrder : ∀ e, s.caseOrder = some e → P.Computes (E.text e c)
  lang : ∀ e, s.lang = some e → P.Computes (E.text e c)

theorem sortAttribute_computes {a : Option Expr} (ha : ∀ e, a = some e → P.Computes (E.text e c))
    (default : String) : P.Computes (E.sortAttribute c a default) := by
  cases a with
  | none => exact Ends.pure trivial
  | some e => exact ha e rfl

theorem comparer_computes (hP : P.Closed h) {s : SortKey} (hs : P.ServesKey E s c) :
    P.Computes (E.comparer c s) := by
  have hthrow {α : Type} (f : EvaluationFault) :
      P.Computes (throw (.evaluation f) : Except Error α) := hP.error _ (by simp)
  have hcomparer (lowerFirst : Option Bool) : P.Computes (E.textComparer c s.lang lowerFirst) := by
    unfold Engine.textComparer
    split
    · rename_i e hlang
      exact (hs.lang e hlang).map (R := fun _ => True) fun _ _ => trivial
    · exact Ends.pure trivial
    · exact Ends.pure trivial
  have hrest (order : String) (lowerFirst : Option Bool) : P.Computes (do
      let dataType ← E.sortAttribute c s.dataType "text"
      let comparer ←
        if dataType == "number" then pure Comparer.numeric
        else if dataType == "text" || dataType.toList.contains ':' then
          E.textComparer c s.lang lowerFirst
        else throw (.evaluation .sortDataType)
      return if order == "ascending" then comparer else .descending comparer) := by
    refine (sortAttribute_computes hs.dataType _).bind fun dataType _ _ => ?_
    dsimp only
    split
    · exact Ends.pure trivial
    · split
      · exact (hcomparer lowerFirst).bind fun _ _ _ => Ends.pure trivial
      · exact Ends.bind (hthrow _) fun _ _ _ => Ends.pure trivial
  unfold Engine.comparer
  refine (sortAttribute_computes hs.order _).bind fun order _ _ => ?_
  dsimp only
  split
  · exact hthrow _
  · refine (sortAttribute_computes hs.caseOrder _).bind fun caseOrder _ _ => ?_
    split
    · exact hrest order _
    · exact hrest order _
    · exact hrest order _
    · exact hthrow _

theorem sortValues_computes {ks : List (SortKey × Comparer)}
    (hks : ∀ k ∈ ks, P.Computes (E.text k.1.key c)) : P.Computes (E.sortValues c ks) := by
  induction ks with
  | nil => exact Ends.pure trivial
  | cons k ks ih =>
      exact (hks k List.mem_cons_self).bind fun _ _ _ =>
        (ih fun k hk => hks k (List.mem_cons_of_mem _ hk)).bind fun _ _ _ => Ends.pure trivial

/-- The nodes of a sort with the values of their keys, and the list in their order. -/
theorem sortNodes_ends (hP : P.Closed h) {ks : List SortKey} {comparers : List Comparer}
    {nodes : List Node} (hks : ∀ s ∈ ks, P.ServesKey E s c) (hnodes : P.AdmitsNodes nodes) :
    Ends P.error P.AdmitsListing (do
      let records ← (nodes.zipIdx 1).mapM fun (n, position) => do
        let values ← E.sortValues (c.forItem n position (.known nodes.length)) (ks.zip comparers)
        return (n, values)
      let before (a b : Node × List SortValue) : Bool :=
        (compareSortValues comparers a.2 b.2).then (h.forest.compareNodes a.1 b.1) == .lt
      return .ofNodes ((sortByInsertion before records).map (·.1)) false false) := by
  refine (Ends.mapM (R := fun r : Node × List SortValue => P.node r.1) fun r hr => ?_).bind
    fun records _ hrecords => Ends.pure ?_
  · obtain ⟨n, position⟩ := r
    have hn : P.node n := hnodes n (List.fst_mem_of_mem_zipIdx hr)
    refine (sortValues_computes fun k hk => ?_).bind fun _ _ _ => Ends.pure hn
    exact (hks k.1 (List.of_mem_zip hk).1).key n _ _ hn
  · have hsorted : P.AdmitsNodes ((sortByInsertion (fun a b : Node × List SortValue =>
        (compareSortValues comparers a.2 b.2).then (h.forest.compareNodes a.1 b.1) == .lt)
          records).map (·.1)) := by
      intro n hn
      obtain ⟨r, hr, rfl⟩ := List.mem_map.mp hn
      exact hrecords r ((sortByInsertion_perm _ _).mem_iff.mp hr)
    exact AdmitsListing.stored hsorted (hP.flags_unordered hsorted)

theorem sort_ends (hP : P.Closed h) {ks : List SortKey}
    (hselection : Ends P.error P.AdmitsListing (E.enumerate e c))
    (hks : ∀ s ∈ ks, P.ServesKey E s c) :
    Ends P.error P.AdmitsListing (E.sort h.forest e ks c) := by
  unfold Engine.sort
  refine (Ends.mapM fun s hs => comparer_computes hP (hks s hs)).bind fun comparers _ _ => ?_
  refine hselection.bind fun base _ hbase => ?_
  dsimp only
  split
  · exact hbase.collect.bind fun nodes _ hnodes => sortNodes_ends hP hks hnodes
  · refine (hbase.ofEnumeration hP).bind fun x _ hx => ?_
    exact sortNodes_ends hP hks (hx.sort hP).nodes_of_extent

/-! ## Engines that are deep enough -/

/-- Something `n` levels deep is within reach, or not reaching it is admitted. -/
def Deep (P : Policy) (depth n : Nat) : Prop :=
  P.error (.internalFault .depthExceeded) ∨ n ≤ depth

theorem Deep.le (hd : P.Deep depth n) (hk : n ≤ depth → k ≤ depth) : P.Deep depth k := hd.imp_right hk

theorem Deep.pred (hd : P.Deep (depth + 1) n) (hk : n ≤ depth + 1 → k ≤ depth) : P.Deep depth k :=
  hd.imp_right hk

/-- An engine so many levels deep gives admitted answers about all it is deep enough for. -/
structure Covers (P : Policy) (E : Engine) (depth : Nat) : Prop where
  constant : ∀ {v c}, P.Deep depth 1 → P.AdmitsValue v → P.AdmitsContext c →
    P.Serves E (literal v) c
  serves : ∀ {e c}, P.Deep depth (2 * e.size) → P.AdmitsExpr e → P.AdmitsContext c →
    P.Serves E e c
  lists : ∀ {e c}, P.Deep depth 2 → P.Deep depth (2 * e.size - 1) → P.AdmitsExpr e →
    P.AdmitsContext c → Ends P.error P.AdmitsListing (E.enumerate e c)
  one : ∀ {e c en}, e.isSingleton = true → E.enumerate e c = .ok en → ∃ n, en = .ofOption n

namespace Covers

variable (hP : P.Closed h) (hE : P.Covers E depth)

include hE

/-- The parts of an expression are listed where they are answered. -/
theorem lists_part (hd : P.Deep depth (2 * e.size)) (he : P.AdmitsExpr e)
    (hc : P.AdmitsContext c) : Ends P.error P.AdmitsListing (E.enumerate e c) :=
  hE.lists (hd.le fun hle => by have := e.size_pos; omega) (hd.le fun hle => by omega) he hc

include hP

omit hE in
theorem oneNode_ends (he : P.AdmitsExpr e) (hc : P.AdmitsContext c) :
    Ends P.error (fun n => ∀ k ∈ n, P.node k) (Engine.oneNode h.forest e c) := by
  have hnode := contextNode_ends hP hc
  have hbound (parent : Except Error Node) (hparent : Ends P.error P.node parent)
      (name : ExpandedName) : Ends P.error (fun n => ∀ k ∈ n, P.node k) (do
        let parent ← parent
        return (h.forest.attributes parent).find? fun a =>
          (h.forest.name? a).any (·.expanded == name)) := by
    refine hparent.bind fun parent _ hparent =>
      Ends.pure (P := fun n : Option Node => ∀ k ∈ n, P.node k) fun k hk => ?_
    exact hP.attributes hparent k (List.mem_of_find?_eq_some hk)
  match e, he with
  | contextNode, _ => exact hnode.map fun n hn k hk => by cases hk; exact hn
  | parentNode, _ => exact hnode.map fun n hn k hk => hP.parent hn hk
  | root, _ => exact hnode.map fun n hn k hk => by cases hk; exact hP.documentRoot hn
  | attributeNamed name display (some n), he =>
      rw [AdmitsExpr, Every, AdmitsPart] at he
      exact hbound (pure n) (he n rfl) name
  | attributeNamed name display none, _ => exact hbound c.contextNode hnode name
  | literal _, _ | .reference .., _ | binary .., _ | negate _, _ | nodeComparison .., _
  | path .., _ | filter .., _ | setOperation .., _ | call .., _ | extension .., _ | sorted .., _
  | template _, _ | .failure _, _ =>
      exact Ends.pure (P := fun n : Option Node => ∀ k ∈ n, P.node k) (by simp)

/-- A reduced expression reads nothing of the context, so that it is an intent. -/
theorem nodeSet_ends (hd : P.Deep (depth + 1) (2 * e.size)) (hsize : 2 ≤ e.size)
    (he : P.AdmitsExpr e) (hc : P.AdmitsContext c) :
    Ends P.error P.AdmitsSet (E.nodeSet h e c) := by
  have hparts (e' : Expr) (he' : P.AdmitsExpr e') (hlt : e'.size < e.size) :
      Ends P.error P.AdmitsValue (E.value e' c) :=
    (hE.serves (hd.pred fun hle => by omega) he' hc).value
  refine (fits_reduceWith hP hc hparts .all e he le_rfl).bind fun e' hreduce he' => ?_
  split
  · exact AdmitsSet.sorted hP (admits_literal.mp he'.admits)
  · exact admits_toNodeSet_value hP (admits_literal.mp he'.admits) hc
  · have hempty := Dependencies.isEmpty_of_disjoint_all (disjoint_of_reduceWith hreduce)
    have hle := he'.size_le
    refine Ends.bind (P := fun i : Intent => P.AdmitsSet (.intent i)) ?_
      fun i _ hi => Ends.pure hi
    rw [Engine.intent, if_pos hempty]
    exact admits_intent (hE.lists (hd.pred fun hle => by omega) (hd.pred fun hle => by omega)
      he'.admits admits_standalone)

omit hP in
theorem servesKey {s : SortKey} (hd : P.Deep depth (2 * sizeOfKey s - 2))
    (hs : P.AdmitsExpr s.key ∧ EveryOfOption P.AdmitsPart s.order ∧
      EveryOfOption P.AdmitsPart s.dataType ∧ EveryOfOption P.AdmitsPart s.caseOrder ∧
      EveryOfOption P.AdmitsPart s.lang) (hc : P.AdmitsContext c) : P.ServesKey E s c := by
  obtain ⟨key, order, dataType, caseOrder, lang⟩ := s
  obtain ⟨hkey, horder, htype, hcase, hlang⟩ := hs
  rw [sizeOfKey] at hd
  have hattribute {a : Option Expr} (ha : EveryOfOption P.AdmitsPart a)
      (hd : P.Deep depth (2 * sizeOfOption a)) (e : Expr) (hsome : a = some e) :
      P.Computes (E.text e c) := by
    subst hsome
    exact (hE.serves hd ha hc).text
  exact {
    key := fun n k l hn => (hE.serves (e := key) (hd.le fun hle => by omega) hkey (hc.forItem hn)).text
    order := hattribute (a := order) horder (hd.le fun hle => by omega)
    dataType := hattribute (a := dataType) htype (hd.le fun hle => by omega)
    caseOrder := hattribute (a := caseOrder) hcase (hd.le fun hle => by omega)
    lang := hattribute (a := lang) hlang (hd.le fun hle => by omega) }

omit hP in
theorem frame (hd : P.Deep (depth + 1) (2 * e.size - 1)) (htwo : P.Deep (depth + 1) 2)
    {function : Builtin} {args : List Expr} {binding : CallBinding}
    (heq : e = call function args binding) (he : P.AdmitsExpr e) (hc : P.AdmitsContext c) :
    P.AdmitsFrame ⟨E, h.forest, function, args, binding, c⟩ := by
  subst heq
  obtain ⟨hbinding, hargs⟩ := admits_call.mp he
  have harg {e : Expr} (he : e ∈ args) : P.Serves E e c := by
    refine hE.serves (hd.pred fun hle => ?_) (admits_mem hargs he) hc
    rw [size] at hle
    have := size_of_mem he
    omega
  refine ⟨fun i => ?_, fun _ => harg, hbinding, hc⟩
  cases hi : args[i]? with
  | some e =>
      simp only [CallFrame.arg, hi, Option.getD_some]
      exact harg (List.mem_of_getElem? hi)
  | none =>
      simp only [CallFrame.arg, hi, Option.getD_none]
      exact hE.constant (htwo.pred fun hle => by omega) trivial hc

omit hE in
theorem oneNodeSet_ends (he : P.AdmitsExpr e) (hc : P.AdmitsContext c) :
    Ends P.error P.AdmitsValue (do
      match ← Engine.oneNode h.forest e c with
      | some n => return .nodeSet (.singleton n)
      | none => return .nodeSet .empty) := by
  refine (oneNode_ends hP he hc).bind fun n _ hn => ?_
  split
  · exact Ends.pure (admits_singleton hP (hn _ rfl))
  · exact Ends.pure (admits_empty hP)

/-- The value of an expression; one that selects nodes is also reduced and listed. -/
theorem value_ends (hd : P.Deep (depth + 1) (2 * e.size - 1)) (htwo : P.Deep (depth + 1) 2)
    (hlisted : e.isNodeSetExpression = true → P.Deep (depth + 1) (2 * e.size))
    (he : P.AdmitsExpr e) (hc : P.AdmitsContext c) :
    Ends P.error P.AdmitsValue (E.ruleValue h e c) := by
  match e with
  | literal v => exact admits_ofConstant hP (admits_literal.mp he)
  | .reference name display (some v) =>
      rw [AdmitsExpr, Every, AdmitsPart] at he
      exact he
  | .reference name display none =>
      rw [AdmitsExpr, Every, AdmitsPart] at he
      exact valueOf_ends hP hc he
  | binary op lhs rhs =>
      obtain ⟨hl, hr⟩ := admits_binary.mp he
      rw [size] at hd
      exact binary_ends hP op (hE.serves (hd.pred fun hle => by omega) hl hc)
        (hE.serves (hd.pred fun hle => by omega) hr hc)
  | negate e =>
      rw [size] at hd
      exact (hE.serves (hd.pred fun hle => by omega) (admits_negate.mp he) hc).number.bind
        fun _ _ _ => Ends.pure trivial
  | nodeComparison node op v =>
      obtain ⟨hv, hnode⟩ := admits_nodeComparison.mp he
      rw [size] at hd
      exact (compareNode_computes hP op (hE.serves (hd.pred fun hle => by omega) hnode hc)
        hv).bind fun _ _ _ => Ends.pure trivial
  | contextNode | parentNode | root | attributeNamed name display parent =>
      exact oneNodeSet_ends hP he hc
  | path start axis test predicates =>
      refine (nodeSet_ends hP hE (hlisted rfl) ?_ he hc).bind fun s _ hs => Ends.pure hs
      rw [size]
      have := start.size_pos
      omega
  | filter base predicate =>
      refine (nodeSet_ends hP hE (hlisted rfl) ?_ he hc).bind fun s _ hs => Ends.pure hs
      rw [size]
      have := base.size_pos
      omega
  | setOperation op lhs rhs =>
      refine (nodeSet_ends hP hE (hlisted rfl) ?_ he hc).bind fun s _ hs => Ends.pure hs
      rw [size]
      have := lhs.size_pos
      omega
  | sorted selection keys =>
      refine (nodeSet_ends hP hE (hlisted rfl) ?_ he hc).bind fun s _ hs => Ends.pure hs
      rw [size]
      have := selection.size_pos
      omega
  | call function args binding => exact AdmitsFrame.run hP (frame hE hd htwo rfl he hc) rfl
  | extension name display f args =>
      obtain ⟨hfunction, hargs⟩ := admits_extension.mp he
      rw [size] at hd
      refine (Ends.mapM (R := P.AdmitsValue) fun e he => ?_).bind fun vs _ hvs =>
        hP.apply f vs c hfunction hvs hc
      refine (hE.serves (hd.pred fun hle => ?_) (admits_mem hargs he) hc).value
      have := size_of_mem he
      omega
  | template parts =>
      rw [size] at hd
      refine (Ends.mapM (R := fun _ => True) fun p hp => ?_).bind fun _ _ _ => Ends.pure trivial
      cases p with
      | text text => exact Ends.pure trivial
      | expr e =>
          obtain ⟨he, hle⟩ := admits_part (admits_template.mp he) hp
          exact (hE.serves (hd.pred fun hle => by omega) he hc).text
  | .failure error =>
      rw [AdmitsExpr, Every, AdmitsPart] at he
      exact he

theorem enumerate_ends (hd : P.Deep (depth + 1) (2 * e.size - 1)) (htwo : P.Deep (depth + 1) 2)
    (he : P.AdmitsExpr e) (hc : P.AdmitsContext c) :
    Ends P.error P.AdmitsListing (E.ruleEnumerate h e c) := by
  have hone (e : Expr) (he : P.AdmitsExpr e) :
      Ends P.error P.AdmitsListing ((Engine.oneNode h.forest e c).map Enumeration.ofOption) :=
    (oneNode_ends hP he hc).map fun _ hn => AdmitsListing.ofOption hP hn
  have hvalue (hlisted : e.isNodeSetExpression = false) : Ends P.error P.AdmitsListing (do
      (← (← E.ruleValue h e c).toNodeSet c).store h.forest) := by
    refine (value_ends hP hE hd htwo (by simp [hlisted]) he hc).bind fun v _ hv => ?_
    exact (admits_toNodeSet_value hP hv hc).bind fun s _ hs => AdmitsSet.store hP hs
  have hserves (p : Expr) (hp : P.AdmitsExpr p) (hsize : 2 * p.size + 1 ≤ 2 * e.size - 1)
      (n : Node) (k : Nat) (l : LastPosition) (hn : P.node n) :
      P.Serves E p (c.forItem n k l) :=
    hE.serves (hd.pred fun hle => by omega) hp (hc.forItem hn)
  match e with
  | literal (.nodeSet s) => exact AdmitsSet.enumerate hP (admits_literal.mp he)
  | contextNode | parentNode | root | attributeNamed name display parent => exact hone _ he
  | path start axis test predicates =>
      obtain ⟨hstart, hpredicates⟩ := admits_path.mp he
      rw [size] at hd hserves
      refine (hE.lists_part (hd.pred fun hle => by omega) hstart hc).bind fun base hlist hbase => ?_
      refine Ends.pure ((meets_path hP (fun p hp => ?_) hbase.meets).admits
        (hP.flags_path hbase fun hsingle => hE.one hsingle hlist))
      refine hserves p (admits_mem hpredicates hp) ?_
      have := size_of_mem hp
      omega
  | filter base predicate =>
      obtain ⟨hbase, hpredicate⟩ := admits_filter.mp he
      rw [size] at hd hserves
      rw [Engine.ruleEnumerate]
      split
      · exact AdmitsListing.ofOption hP (n := none) (by simp)
      · refine (hE.lists_part (hd.pred fun hle => by omega) hbase hc).bind fun nodes _ hnodes => ?_
        have hrest (nodes : Enumeration) (hnodes : P.AdmitsListing nodes) :
            P.AdmitsListing (E.filter h.forest nodes predicate c) :=
          (meets_filter hP (hserves predicate hpredicate (by omega)) hnodes.meets).admits
            (hP.flags_filter hnodes)
        split
        · exact (hnodes.inDocumentOrder hP).bind fun nodes _ hnodes =>
            Ends.pure (hrest nodes hnodes)
        · exact Ends.pure (hrest nodes hnodes)
  | setOperation op lhs rhs =>
      obtain ⟨hl, hr⟩ := admits_setOperation.mp he
      rw [size] at hd
      refine (hE.lists_part (hd.pred fun hle => by omega) hl hc).bind fun left _ hleft => ?_
      exact (hE.lists_part (hd.pred fun hle => by omega) hr hc).bind fun right _ hright =>
        hleft.merge hP hright
  | sorted selection keys =>
      obtain ⟨hselection, hkeys⟩ := admits_sorted.mp he
      rw [size] at hd
      refine sort_ends hP (hE.lists_part (hd.pred fun hle => by omega) hselection hc) fun s hs => ?_
      exact servesKey hE (hd.pred fun hle => by have := size_of_mem_keys hs; omega)
        (admits_key hkeys hs) hc
  | literal (.boolean _) | literal (.number _) | literal (.string _) | literal (.fragment _)
  | literal (.object _) | .reference name display constant | binary op lhs rhs | negate e
  | nodeComparison node op v | call function args binding | extension name display f args
  | template parts | .failure error => exact hvalue rfl

/-- An engine that covers the parts makes an engine that covers the whole. -/
theorem next : P.Covers (E.next h) (depth + 1) := by
  -- An expression that selects nodes is looked into, any other one is converted.
  have hserves {e : Expr} {c : Context} (hd : P.Deep (depth + 1) (2 * e.size - 1))
      (htwo : P.Deep (depth + 1) 2)
      (hlisted : e.isNodeSetExpression = true → P.Deep (depth + 1) (2 * e.size))
      (he : P.AdmitsExpr e) (hc : P.AdmitsContext c) : P.Serves (E.next h) e c := by
    have hvalue := value_ends hP hE hd htwo hlisted he hc
    have hlist := enumerate_ends hP hE hd htwo he hc
    have hfirst : Ends P.error (fun first => ∀ k ∈ first, P.node k) (E.ruleFirst h e c) :=
      hlist.bind fun _ _ hen => hen.first?
    refine ⟨hvalue, ?_, ?_, ?_, hfirst⟩
    · show P.Computes (E.ruleTruth h e c)
      unfold Engine.ruleTruth
      split
      · exact hlist.bind fun _ _ hen => hen.firstItem.bind fun _ _ _ => Ends.pure trivial
      · exact hvalue.bind fun _ _ hv => computes_toBool hP hv
    · show P.Computes (E.ruleNumber h e c)
      unfold Engine.ruleNumber
      split
      · refine hfirst.bind fun first _ _ => ?_
        split <;> exact Ends.pure trivial
      · exact hvalue.bind fun _ _ hv => computes_toNumber hP hv
    · show P.Computes (E.ruleText h e c)
      unfold Engine.ruleText
      split
      · exact hfirst.bind fun _ _ _ => Ends.pure trivial
      · exact hvalue.bind fun _ _ hv => computes_toText hP hv
  refine ⟨fun {v c} _ hv hc => ?_, fun {e c} hd he hc => ?_, fun {e c} htwo hd he hc =>
    enumerate_ends hP hE hd htwo he hc, fun {e c en} hsingle hen => ?_⟩
  · have hvalue := admits_ofConstant hP hv
    have hlist : Ends P.error P.AdmitsListing (E.ruleEnumerate h (literal v) c) := by
      match v, hv with
      | .nodeSet s, hv => exact AdmitsSet.enumerate hP hv
      | .boolean _, hv | .number _, hv | .string _, hv | .fragment _, hv | .object _, hv =>
          exact hvalue.bind fun w _ hw => (admits_toNodeSet_value hP hw hc).bind
            fun s _ hs => AdmitsSet.store hP hs
    exact {
      value := hvalue
      truth := hvalue.bind fun _ _ hw => computes_toBool hP hw
      number := hvalue.bind fun _ _ hw => computes_toNumber hP hw
      text := hvalue.bind fun _ _ hw => computes_toText hP hw
      first := hlist.bind fun _ _ hen => hen.first? }
  · have hpos := e.size_pos
    exact hserves (hd.le fun hle => by omega) (hd.le fun hle => by omega) (fun _ => hd) he hc
  · unfold Expr.isSingleton at hsingle
    split at hsingle
    · obtain ⟨n, -, rfl⟩ := map_eq_ok.mp hen
      exact ⟨n, rfl⟩
    · obtain ⟨n, -, rfl⟩ := map_eq_ok.mp hen
      exact ⟨n, rfl⟩
    · obtain ⟨n, -, rfl⟩ := map_eq_ok.mp hen
      exact ⟨n, rfl⟩
    · obtain ⟨n, -, rfl⟩ := map_eq_ok.mp hen
      exact ⟨n, rfl⟩
    · cases hen
      exact ⟨none, rfl⟩
    · rename_i n
      cases hen
      exact ⟨some n, rfl⟩
    · cases hsingle

end Covers

theorem covers_exhausted : P.Covers .exhausted 0 := by
  have hfault {n : Nat} (hd : P.Deep 0 n) (hn : 0 < n) :
      P.error (.internalFault .depthExceeded) := hd.resolve_right (by omega)
  exact {
    constant := fun hd _ _ => by
      have hdeep := hfault hd Nat.one_pos
      exact ⟨hdeep, hdeep, hdeep, hdeep, hdeep⟩
    serves := fun {e c} hd _ _ => by
      have hdeep := hfault hd (by have := e.size_pos; omega)
      exact ⟨hdeep, hdeep, hdeep, hdeep, hdeep⟩
    lists := fun htwo _ _ _ => hfault htwo Nat.two_pos
    one := fun _ hen => by cases hen }

theorem covers_engine (hP : P.Closed h) (depth : Nat) : P.Covers (h.engine depth) depth := by
  induction depth with
  | zero => exact covers_exhausted
  | succ depth ih => exact ih.next hP

variable (hP : P.Closed h) (he : P.AdmitsExpr e) (hc : P.AdmitsContext c)

include hP he hc

theorem serves_engine : P.Serves (e.engine h) e c :=
  (covers_engine hP _).serves (.inr le_rfl) he hc

theorem enumerate_admits : Ends P.error P.AdmitsListing (e.enumerate h c) :=
  (covers_engine hP _).lists_part (.inr le_rfl) he hc

end Policy

end XPath
