import XPath.Evaluation
import XPath.Proofs.Meaning.Outcome
import XPath.Proofs.Meaning.Reading

/-!
# Policies

A policy says which nodes, fragments, variables, functions of the host and errors an evaluation may
meet, and what it wants of the flags of an enumeration. It is closed over a host if evaluation, given
only what is admitted, comes to nothing else: then it holds of every answer of an engine
(`Policy.serves_engine`). Different policies show that no promise of the library is broken, that flags
tell the truth, and that nothing but an extension function makes a fragment.
-/

namespace XPath

/-- What may be met in an evaluation. -/
structure Policy where
  node : Node → Prop
  fragment : Fragment → Prop
  reference : ExpandedName → Prop
  function : ExtensionFunction → Prop
  error : Error → Prop
  flags : Enumeration → Prop

namespace Policy

variable (P : Policy)

/-- All that reading the enumeration meets is admitted. -/
structure AdmitsListing (en : Enumeration) : Prop where
  nodes : ∀ n, .ok n ∈ en.items → P.node n
  errors : ∀ e, .error e ∈ en.items → P.error e
  beyond : ∀ e, some e ∈ en.beyond → P.error e
  flags : P.flags en

abbrev AdmitsNodes (ns : List Node) : Prop := ∀ n ∈ ns, P.node n

/-- The computation fails with admitted errors only. -/
abbrev Computes {α : Type} (x : Except Error α) : Prop := Ends P.error (fun _ => True) x

def AdmitsSet (s : NodeSet) : Prop := Ends P.error P.AdmitsListing s.listing

def AdmitsValue : Value → Prop
  | .nodeSet s => P.AdmitsSet s
  | .fragment f => P.fragment f
  | _ => True

/-- What the services of a controller answer is admitted. -/
structure AdmitsController (k : Controller) : Prop where
  selectByKey : ∀ name value document, Ends P.error P.AdmitsNodes (k.selectByKey name value document)
  loadDocument : ∀ href base, Ends P.error P.node (k.loadDocument href base)
  materialize : ∀ f, P.fragment f → Ends P.error P.node (k.materialize f)

structure AdmitsBinding (b : CallBinding) : Prop where
  node : ∀ n, b.node = some n → P.node n
  controller : ∀ k, b.controller = .bound (some k) → P.AdmitsController k

structure AdmitsContext (c : Context) : Prop where
  contextNode : ∀ n, c.contextNode? = some n → P.node n
  currentNode : ∀ n, c.currentNode? = some n → P.node n
  bindings : ∀ name v, P.reference name → c.valueOf name = .ok v → P.AdmitsValue v
  controller : ∀ k, c.controller? = some k → P.AdmitsController k

/-- What the expression holds apart from its parts is admitted. -/
def AdmitsPart : Expr → Prop
  | .literal v => P.AdmitsValue v
  | .reference _ _ (some v) => P.AdmitsValue v
  | .reference name _ none => P.reference name
  | .attributeNamed _ _ parent => ∀ n, parent = some n → P.node n
  | .nodeComparison _ _ v => P.AdmitsValue v
  | .call _ _ b => P.AdmitsBinding b
  | .extension _ _ f _ => P.function f
  | .failure e => P.error e
  | _ => True

abbrev AdmitsExpr (e : Expr) : Prop := e.Every P.AdmitsPart

/-- Given what is admitted, evaluation comes to nothing else. -/
structure Closed (h : Host) : Prop where
  error : ∀ e, (∀ f, e ≠ .internalFault f) → P.error e
  apply : ∀ f vs c, P.function f → (∀ v ∈ vs, P.AdmitsValue v) → P.AdmitsContext c →
    Ends P.error P.AdmitsValue (h.apply f.identity vs c)
  parent : ∀ {n p}, P.node n → h.forest.parent? n = some p → P.node p
  documentRoot : ∀ {n}, P.node n → P.node (h.forest.documentRoot n)
  attributes : ∀ {n}, P.node n → P.AdmitsNodes (h.forest.attributes n)
  walk : ∀ {axis n}, P.node n → P.AdmitsNodes (h.forest.walk axis n)
  elementById : ∀ {n m id}, P.node n → h.forest.elementById? n id = some m → P.node m
  flags_ofOption : ∀ {n : Option Node}, (∀ k ∈ n, P.node k) → P.flags (.ofOption n)
  flags_ofNodes : ∀ {ns}, P.AdmitsNodes ns → P.flags (Extent.ofNodes ns false).enumerate
  flags_unordered : ∀ {ns}, P.AdmitsNodes ns → P.flags (.ofNodes ns false false)
  flags_ofEnumeration : ∀ {en x}, P.AdmitsListing en → Extent.ofEnumeration en = .ok x →
    P.flags x.enumerate
  flags_sort : ∀ {x : Extent}, P.AdmitsListing x.enumerate → P.flags (x.sort h.forest).enumerate
  flags_merge : ∀ {op l r en}, P.AdmitsListing l → P.AdmitsListing r →
    l.merge h.forest op r = .ok en → P.flags en
  flags_filter : ∀ {E base predicate c}, P.AdmitsListing base →
    P.flags (Engine.filter E h.forest base predicate c)
  flags_path : ∀ {E base axis test predicates c one}, P.AdmitsListing base →
    (one = true → ∃ n, base = .ofOption n) →
    P.flags (Engine.path E h.forest base axis test predicates c one)

/-! ## Enumerations -/

variable {P} {h : Host} {en l r : Enumeration} {x : Extent} {s t : NodeSet} {n : Node}
  {ns : List Node} {op : SetOperator} (hP : P.Closed h)

/-- If all nodes and flags are admitted, only the functions of the host could come to something else. -/
theorem Closed.of_nodes (hnode : ∀ n, P.node n) (hflags : ∀ en, P.flags en)
    (herror : ∀ e, (∀ f, e ≠ .internalFault f) → P.error e)
    (happly : ∀ f vs c, P.function f → (∀ v ∈ vs, P.AdmitsValue v) → P.AdmitsContext c →
      Ends P.error P.AdmitsValue (h.apply f.identity vs c)) : P.Closed h where
  error := herror
  apply := happly
  parent _ _ := hnode _
  documentRoot _ := hnode _
  attributes _ _ _ := hnode _
  walk _ _ _ := hnode _
  elementById _ _ := hnode _
  flags_ofOption _ := hflags _
  flags_ofNodes _ := hflags _
  flags_unordered _ := hflags _
  flags_ofEnumeration _ _ := hflags _
  flags_sort _ := hflags _
  flags_merge _ _ _ := hflags _
  flags_filter _ := hflags _
  flags_path _ _ := hflags _

theorem nodes_of_collect {items : List Item} (hn : ∀ n, .ok n ∈ items → P.node n)
    (he : ∀ e, .error e ∈ items → P.error e) : Ends P.error P.AdmitsNodes (collect items) := by
  induction items with
  | nil => exact fun n hn => absurd hn List.not_mem_nil
  | cons item items ih =>
      cases item with
      | error e => exact he e List.mem_cons_self
      | ok n =>
          refine (ih (fun n hn' => hn n (List.mem_cons_of_mem _ hn'))
            fun e he' => he e (List.mem_cons_of_mem _ he')).map fun ms hms => ?_
          exact List.forall_mem_cons.mpr ⟨hn n List.mem_cons_self, hms⟩

namespace AdmitsListing

theorem collect (hen : P.AdmitsListing en) : Ends P.error P.AdmitsNodes en.nodes :=
  nodes_of_collect hen.nodes hen.errors

theorem firstItem (hen : P.AdmitsListing en) :
    Ends P.error (fun first => ∀ k ∈ first, P.node k) (firstItem en.items) := by
  match hitems : en.items with
  | [] => exact Ends.pure (by simp)
  | .error e :: _ => exact hen.errors e (by simp [hitems])
  | .ok n :: _ =>
      refine Ends.pure fun k hk => ?_
      cases hk
      exact hen.nodes n (by simp [hitems])

theorem anyItem (hen : P.AdmitsListing en) (p : Node → Bool) : P.Computes (anyItem p en.items) := by
  have hall (items : List Item) (he : ∀ e, .error e ∈ items → P.error e) :
      P.Computes (XPath.anyItem p items) := by
    induction items with
    | nil => exact Ends.pure trivial
    | cons item items ih =>
        cases item with
        | error e => exact he e List.mem_cons_self
        | ok n =>
            rw [XPath.anyItem]
            split
            · exact Ends.pure trivial
            · exact ih fun e h => he e (List.mem_cons_of_mem _ h)
  exact hall _ hen.errors

theorem stored {sorted reverse : Bool} (hns : P.AdmitsNodes ns)
    (hflags : P.flags (.ofNodes ns sorted reverse)) :
    P.AdmitsListing (.ofNodes ns sorted reverse) where
  nodes n hn := hns n (by simpa [Enumeration.ofNodes] using hn)
  errors e he := by simp [Enumeration.ofNodes] at he
  beyond e he := by simp [Enumeration.ofNodes] at he
  flags := hflags

theorem nodes_of_extent (hx : P.AdmitsListing x.enumerate) : P.AdmitsNodes x.nodes :=
  fun n hn => hx.nodes n (by simpa [Extent.enumerate, Enumeration.ofNodes] using hn)

theorem first? (hen : P.AdmitsListing en) :
    Ends P.error (fun first => ∀ k ∈ first, P.node k) (en.first? h.forest) := by
  unfold Enumeration.first?
  split
  · exact hen.firstItem
  · refine hen.collect.map fun ns hns k hk => ?_
    exact hns k (Forest.mem_of_earliest? hk)

include hP

theorem ofOption {n : Option Node} (hn : ∀ k ∈ n, P.node k) : P.AdmitsListing (.ofOption n) where
  nodes k hk := hn k (by simpa [Enumeration.ofOption, eq_comm] using hk)
  errors e he := by simp [Enumeration.ofOption] at he
  beyond e he := by simp [Enumeration.ofOption] at he
  flags := hP.flags_ofOption hn

theorem ofEnumeration (hen : P.AdmitsListing en) :
    Ends P.error (fun x => P.AdmitsListing x.enumerate) (Extent.ofEnumeration en) := by
  refine Ends.mono (hen.collect.map (R := fun x => P.AdmitsNodes x.nodes) fun ns hns => hns)
    fun x hx hns => stored hns ?_
  exact hP.flags_ofEnumeration hen hx

theorem sort (hx : P.AdmitsListing x.enumerate) : P.AdmitsListing (x.sort h.forest).enumerate := by
  refine stored ?_ (hP.flags_sort hx)
  have hns := hx.nodes_of_extent
  unfold Extent.sort
  split
  · exact hns
  · dsimp only
    split
    · exact fun n hn => hns n (List.mem_reverse.mp hn)
    · exact fun n hn => hns n (Forest.mem_of_mem_inOrder hn)

theorem inDocumentOrder (hen : P.AdmitsListing en) :
    Ends P.error P.AdmitsListing (en.inDocumentOrder h.forest) := by
  unfold Enumeration.inDocumentOrder
  split
  · exact hen
  · exact (ofEnumeration hP hen).map fun x hx => sort hP hx

end AdmitsListing

/-! ## Merges -/

theorem mem_mergeReadings {F : Forest} {Q : Item → Prop} {left right : List Reading}
    (hleft : ∀ r, some r ∈ left → Q r) (hright : ∀ r, some r ∈ right → Q r) :
    ∀ r, some r ∈ mergeReadings F op left right → Q r := by
  induction left generalizing right with
  | nil =>
      rw [mergeReadings, mergeRest]
      split
      · exact hright
      · simp
  | cons reading left ih =>
      have ih {right : List Reading} (h : ∀ r, some r ∈ right → Q r) :=
        ih (fun r hr => hleft r (List.mem_cons_of_mem _ hr)) h
      match reading, hleft with
      | none, _ =>
          rw [mergeReadings]
          unfold mergeEnd
          split
          · intro r hr
            have hnone : ∀ r, some r ∈ ([] : List Reading) → Q r := by simp
            exact ih hnone r (by simpa using hr)
          · rename_i first right
            split
            · intro r hr
              rcases List.mem_cons.mp hr with hr | hr
              · exact hright r (hr ▸ List.mem_cons_self)
              · exact ih (fun r hr => hright r (List.mem_cons_of_mem _ hr)) r hr
            · intro r hr
              exact ih hright r (by simpa using hr)
      | some (.error e), hleft =>
          rw [mergeReadings]
          intro r hr
          rcases List.mem_cons.mp hr with hr | hr
          · exact hleft r (hr ▸ List.mem_cons_self)
          · exact ih hright r hr
      | some (.ok a), hleft =>
          rw [mergeReadings]
          have ha : Q (.ok a) := hleft _ List.mem_cons_self
          have hhead {right : List Reading} (h : ∀ r, some r ∈ right → Q r) {first : Option Item}
              (hfirst : ∀ r, first = some r → Q r) :
              ∀ r, some r ∈ first :: mergeReadings F op left right → Q r := by
            intro r hr
            rcases List.mem_cons.mp hr with hr | hr
            · exact hfirst r hr.symm
            · exact ih h r hr
          have hdropped {r : Item}
              (hr : (if op = .intersect then none else some (.ok a)) = some r) : Q r := by
            split at hr
            · cases hr
            · cases hr
              exact ha
          induction right with
          | nil =>
              rw [mergeHead]
              exact hhead (by simp) fun r => hdropped
          | cons first right ihright =>
              have htail : ∀ r, some r ∈ right → Q r :=
                fun r hr => hright r (List.mem_cons_of_mem _ hr)
              match first, hright with
              | none, _ =>
                  rw [mergeHead]
                  exact hhead htail fun r => hdropped
              | some (.error e), hright =>
                  rw [mergeHead]
                  exact hhead htail fun r hr => hright r (hr ▸ List.mem_cons_self)
              | some (.ok b), hright =>
                  rw [mergeHead]
                  split
                  · split
                    · exact ih hright
                    · exact hhead hright fun r hr => by
                        cases hr
                        exact ha
                  · split
                    · intro r hr
                      rcases List.mem_cons.mp hr with hr | hr
                      · exact hright r (hr ▸ List.mem_cons_self)
                      · exact ihright htail r hr
                    · exact ihright htail
                  · split
                    · exact ih htail
                    · exact hhead htail fun r hr => by
                        cases hr
                        exact ha

theorem some_mem_of_mem_itemsOf {item : Item} {readings : List Reading}
    (h : item ∈ Enumeration.itemsOf readings) : some item ∈ readings := by
  fun_induction Enumeration.itemsOf readings with
  | case1 first readings ih =>
      rcases List.mem_cons.mp h with rfl | h
      · exact List.mem_cons_self
      · exact List.mem_cons_of_mem _ (ih h)
  | case2 => simp at h

theorem error_mem_of_mem_beyondOf {e : Error} {readings : List Reading}
    (h : some e ∈ Enumeration.beyondOf readings) : some (.error e) ∈ readings := by
  fun_induction Enumeration.beyondOf readings with
  | case1 => simp at h
  | case2 first readings ih => exact List.mem_cons_of_mem _ (ih h)
  | case3 readings =>
      obtain ⟨reading, hreading, heq⟩ := List.mem_map.mp h
      refine List.mem_cons_of_mem _ ?_
      split at heq
      · cases heq
        exact hreading
      · cases heq

theorem AdmitsListing.of_reading (hen : P.AdmitsListing en) {item : Item}
    (h : some item ∈ en.readings) :
    (∀ n, item = .ok n → P.node n) ∧ ∀ e, item = .error e → P.error e := by
  rw [Enumeration.readings, List.mem_append, List.mem_cons, List.mem_map, List.mem_map] at h
  obtain ⟨_, hitem, ⟨⟩⟩ | ⟨⟨⟩⟩ | ⟨e, he, heq⟩ := h
  · exact ⟨fun n hn => hen.nodes n (hn ▸ hitem), fun e he => hen.errors e (he ▸ hitem)⟩
  · obtain ⟨e, rfl, rfl⟩ := Option.map_eq_some_iff.mp heq
    refine ⟨fun n hn => (by cases hn), fun e' he' => ?_⟩
    cases he'
    exact hen.beyond e he

include hP

theorem AdmitsListing.merge (hl : P.AdmitsListing l) (hr : P.AdmitsListing r) :
    Ends P.error P.AdmitsListing (l.merge h.forest op r) := by
  refine Ends.mono (P := fun en => (∀ n, .ok n ∈ en.items → P.node n) ∧
    (∀ e, .error e ∈ en.items → P.error e) ∧ ∀ e, some e ∈ en.beyond → P.error e) ?_
    fun en hen hall => ⟨hall.1, hall.2.1, hall.2.2, hP.flags_merge hl hr hen⟩
  refine (hl.inDocumentOrder hP).bind fun l' _ hl' => ?_
  refine (hr.inDocumentOrder hP).bind fun r' _ hr' => Ends.pure ?_
  have hall : ∀ item, some item ∈ mergeReadings h.forest op l'.readings r'.readings →
      (∀ n, item = .ok n → P.node n) ∧ ∀ e, item = .error e → P.error e :=
    mem_mergeReadings (fun _ hitem => hl'.of_reading hitem) fun _ hitem => hr'.of_reading hitem
  exact ⟨fun n hn => (hall _ (some_mem_of_mem_itemsOf hn)).1 n rfl,
    fun e he => (hall _ (some_mem_of_mem_itemsOf he)).2 e rfl,
    fun e he => (hall _ (error_mem_of_mem_beyondOf he)).2 e rfl⟩

end Policy

end XPath
