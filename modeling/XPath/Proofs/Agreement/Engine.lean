import XPath.Proofs.Agreement.Parts
import XPath.Proofs.Evaluation.Answers

/-!
# Answers depend on the dependencies only

An expression without fragments and without functions of the host comes to the same in contexts that
agree on its dependencies, be it a value or an error (`Expr.evaluate_congr`). Only a fragment could
need a controller that the expression is not said to read.
-/

namespace XPath

open XPath.Expr hiding failure

variable {E : Engine} {h : Host} {c c' : Context} {m : Dependencies} {e : Expr} {v : Value}
  {depth : Nat}

/-! ## No fragments -/

/-- No fragments, neither in constants nor in the variables of a context, and no functions of the
host that could make one. -/
def Policy.fragmentless (c : Context) : Policy where
  node _ := True
  fragment _ := False
  reference name := ∀ v, c.valueOf name = .ok v → ∀ f, v ≠ .fragment f
  function _ := False
  error _ := True
  flags _ := True

namespace Policy

variable {c₀ : Context}

theorem admitsValue_fragmentless : (fragmentless c₀).AdmitsValue v ↔ ∀ f, v ≠ .fragment f := by
  match v with
  | .fragment f => exact ⟨False.elim, fun hv => hv f rfl⟩
  | .boolean _ | .number _ | .string _ | .object _ => exact ⟨by rintro _ _ ⟨⟩, fun _ => trivial⟩
  | .nodeSet s =>
      refine ⟨by rintro _ _ ⟨⟩, fun _ => ?_⟩
      show Ends _ _ s.listing
      cases s.listing with
      | error e => trivial
      | ok en =>
          exact ⟨fun _ _ => trivial, fun _ _ => trivial, fun _ _ => trivial, trivial⟩

theorem closed_fragmentless : (fragmentless c₀).Closed h :=
  .of_nodes (fun _ => trivial) (fun _ => trivial) (fun _ _ => trivial) fun _ _ _ hf => hf.elim

/-- Everything but fragments and functions of the host. -/
structure Fragmentless (P : Policy) : Prop where
  fragment : ∀ f, ¬P.fragment f
  function : ∀ f, ¬P.function f
  node : ∀ n, P.node n
  error : ∀ e, P.error e

/-- No functions of the host, but all nodes and errors. -/
structure Hostless (P : Policy) : Prop where
  function : ∀ f, ¬P.function f
  node : ∀ n, P.node n
  error : ∀ e, P.error e

theorem Fragmentless.hostless {P : Policy} (hf : P.Fragmentless) : P.Hostless where
  function := hf.function
  node := hf.node
  error := hf.error

/-- What makes a node-set of a fragment is the same in both contexts, if there can be a fragment. -/
def Settles (P : Policy) (c c' : Context) : Prop := ∀ f, P.fragment f → c.controller? = c'.controller?

theorem Fragmentless.settles {P : Policy} (hf : P.Fragmentless) (c c' : Context) :
    P.Settles c c' :=
  fun f hfragment => (hf.fragment f hfragment).elim

/-- Only a fragment needs the controller to become a node-set. -/
theorem Settles.toNodeSet {P : Policy} (hs : P.Settles c c') (hv : P.AdmitsValue v) :
    v.toNodeSet c = v.toNodeSet c' := by
  match v with
  | .fragment f =>
      unfold Value.toNodeSet Context.controller
      rw [hs f hv]
  | .nodeSet _ | .boolean _ | .number _ | .string _ | .object _ => rfl

theorem fragmentless_fragmentless : (fragmentless c₀).Fragmentless where
  fragment _ hf := hf
  function _ hf := hf
  node _ := trivial
  error _ := trivial

theorem ends_true {α : Type} {P : α → Prop} {Q : Error → Prop} (hQ : ∀ e, Q e) (hP : ∀ a, P a)
    (x : Except Error α) : Ends Q P x := by
  cases x with
  | error e => exact hQ e
  | ok a => exact hP a

theorem admitsController_fragmentless (k : Controller) : (fragmentless c₀).AdmitsController k where
  selectByKey _ _ _ := ends_true (fun _ => trivial) (fun _ _ _ => trivial) _
  loadDocument _ _ := ends_true (fun _ => trivial) (fun _ => trivial) _
  materialize _ hf := hf.elim

theorem admitsContext_fragmentless (c : Context) : (fragmentless c).AdmitsContext c where
  contextNode _ _ := trivial
  currentNode _ _ := trivial
  bindings _ _ hname hv := admitsValue_fragmentless.mpr (hname _ hv)
  controller k _ := admitsController_fragmentless k

end Policy

/-! ## Facets of the parts -/

namespace Expr

theorem bit_of_mem {es : List Expr} (he : e ∈ es) {i : Nat} (hi : e.dependencies.bit i = true) :
    (dependenciesOfList es).bit i = true := by
  induction es with
  | nil => cases he
  | cons first es ih =>
      rw [dependenciesOfList, Dependencies.bit_or, Bool.or_eq_true]
      rcases List.mem_cons.mp he with rfl | he
      · exact .inl hi
      · exact .inr (ih he)

theorem bit_of_mem_parts {ps : List TemplatePart} (he : .expr e ∈ ps) {i : Nat}
    (hi : e.dependencies.bit i = true) : (dependenciesOfParts ps).bit i = true := by
  induction ps with
  | nil => cases he
  | cons first ps ih =>
      rw [dependenciesOfParts, Dependencies.bit_or, Bool.or_eq_true]
      rcases List.mem_cons.mp he with rfl | he
      · exact .inl hi
      · exact .inr (ih he)

theorem bit_of_mem_keys {ks : List SortKey} {s : SortKey} (hs : s ∈ ks) {i : Nat}
    (hi : (dependenciesOfKey s).bit i = true) : (dependenciesOfKeys ks).bit i = true := by
  induction ks with
  | nil => cases hs
  | cons first ks ih =>
      rw [dependenciesOfKeys, Dependencies.bit_or, Bool.or_eq_true]
      rcases List.mem_cons.mp hs with rfl | hs
      · exact .inl hi
      · exact .inr (ih hs)

end Expr

/-! ## Reduction -/

theorem Expr.length_of_reduceListWith {es es' : List Expr} (he : reduceListWith E h m c es = .ok es') :
    es'.length = es.length := by
  induction es generalizing es' with
  | nil =>
      cases he
      rfl
  | cons e es ih =>
      obtain ⟨e', -, he⟩ := bind_eq_ok.mp he
      obtain ⟨rest, hrest, he⟩ := bind_eq_ok.mp he
      cases he
      rw [List.length_cons, List.length_cons, ih hrest]

section Reduce

variable {P : Policy}

theorem asNodeSource_congr (hs : P.Settles c c') (he : P.AdmitsExpr e) :
    asNodeSource c e = asNodeSource c' e := by
  unfold asNodeSource
  split
  · rw [hs.toNodeSet (Policy.admits_literal.mp he)]
  · rfl

theorem reduceCall_congr {F : Forest} {function : Builtin} {args : List Expr}
    {binding : CallBinding}
    (h : c.AgreeOn (intrinsicDependencies function args.length binding &&& m) c') :
    reduceCall F m c function args binding = reduceCall F m c' function args binding := by
  unfold reduceCall
  simp only [Dependencies.contains_position, Dependencies.contains_last,
    Dependencies.contains_currentNode, Dependencies.contains_contextNode,
    Dependencies.contains_controller]
  generalize intrinsicDependencies function args.length binding &&& m = d at h
  have hcontroller : (if d.bit 6 = true then ControllerBinding.bound c.controller?
      else binding.controller) = if d.bit 6 = true then .bound c'.controller?
      else binding.controller := by
    split
    · rw [h.controller (by assumption)]
    · rfl
  rw [hcontroller]
  split
  · rename_i hbit
    rw [h.position hbit]
  · rename_i hbit
    rw [h.last_eq hbit]
  · rename_i hbit
    rw [h.currentNode_eq hbit]
  · split
    · rw [h.contextNode_eq (by assumption)]
    · rfl

theorem bound_congr {f : Node → Expr} (h : c.AgreeOn (.contextNode &&& m) c') :
    (if m.contains .contextNode then do return f (← c.contextNode) else .ok e) =
      (if m.contains .contextNode then do return f (← c'.contextNode) else .ok e) := by
  split
  · rename_i hm
    rw [Dependencies.contains_contextNode] at hm
    rw [h.contextNode_eq (by simp [hm])]
  · rfl

mutual

/-- Reduction comes to the same in contexts that agree on what it replaces. -/
theorem reduceWith_congr (hP : P.Closed h) (hf : P.Hostless)
    (hs : P.Settles c c') (hc : P.AdmitsContext c)
    (hE : ∀ e, P.AdmitsExpr e → Ends P.error P.AdmitsValue (E.value e c))
    (m : Dependencies) (e : Expr) (he : P.AdmitsExpr e)
    (hagree : c.AgreeOn (e.dependencies &&& m) c') :
    e.reduceWith E h m c = e.reduceWith E h m c' := by
  -- A start, a base or an operand that is left as a fragment is made a node-set of alike.
  have hsource (part : Expr) (hpart : P.AdmitsExpr part) (part' : Expr)
      (hreduce : part.reduceWith E h m c = .ok part') :
      asNodeSource c part' = asNodeSource c' part' :=
    asNodeSource_congr hs ((Policy.fits_reduceWith hP hc (fun e he _ => hE e he) m part hpart
      le_rfl).of_ok hreduce).admits
  unfold reduceWith
  split
  · rfl
  · rename_i hmask
    match e with
    | literal v | .failure error => rfl
    | .reference name display (some v) =>
        exact absurd (congrArg (!·) (Dependencies.not_intersects_empty m)) hmask
    | .reference name display none =>
        have hbit : (Dependencies.variableValues &&& m).bit 0 = true := by
          rw [Bool.not_eq_true, Bool.not_eq_false', Dependencies.intersects_iff] at hmask
          obtain ⟨i, hi, hm⟩ := hmask
          obtain rfl : i = 0 := by simpa [dependencies] using hi
          simp [hm]
        dsimp only
        rw [hagree.valueOf hbit]
    | binary op lhs rhs =>
        obtain ⟨hl, hr⟩ := Policy.admits_binary.mp he
        rw [dependencies] at hagree
        dsimp only
        rw [reduceWith_congr hP hf hs hc hE m lhs hl hagree.left_and,
          reduceWith_congr hP hf hs hc hE m rhs hr hagree.right_and]
    | negate e =>
        dsimp only
        rw [reduceWith_congr hP hf hs hc hE m e (Policy.admits_negate.mp he) hagree]
    | nodeComparison node op v =>
        dsimp only
        rw [reduceWith_congr hP hf hs hc hE m node (Policy.admits_nodeComparison.mp he).2 hagree]
    | contextNode => exact bound_congr hagree
    | parentNode => exact bound_congr (f := fun n => ofNode (h.forest.parent? n)) hagree
    | root => exact bound_congr (f := fun n => ofNode (some (h.forest.documentRoot n))) hagree
    | attributeNamed name display (some n) =>
        exact absurd (congrArg (!·) (Dependencies.not_intersects_empty m)) hmask
    | attributeNamed name display none => exact bound_congr hagree
    | path start axis test predicates =>
        obtain ⟨hstart, hpredicates⟩ := Policy.admits_path.mp he
        rw [dependencies] at hagree
        dsimp only
        refine bind_congr_of_ok (reduceWith_congr hP hf hs hc hE m start hstart hagree.left_and)
          fun start' hstart' => ?_
        have houter := hagree.right_and.and_outer
        refine bind_congr_of_ok (hsource start hstart start' hstart') fun _ _ => ?_
        refine bind_congr_of_ok ?_ fun _ _ => rfl
        exact reduceListWith_congr hP hf hs hc hE _ predicates hpredicates houter
    | filter base predicate =>
        obtain ⟨hbase, hpredicate⟩ := Policy.admits_filter.mp he
        rw [dependencies] at hagree
        dsimp only
        refine bind_congr_of_ok (reduceWith_congr hP hf hs hc hE m base hbase hagree.left_and)
          fun base' hbase' => ?_
        have houter := hagree.right_and.and_outer
        refine bind_congr_of_ok (hsource base hbase base' hbase') fun _ _ => ?_
        refine bind_congr_of_ok ?_ fun _ _ => rfl
        exact reduceWith_congr hP hf hs hc hE _ predicate hpredicate houter
    | setOperation op lhs rhs =>
        obtain ⟨hl, hr⟩ := Policy.admits_setOperation.mp he
        rw [dependencies] at hagree
        dsimp only
        refine bind_congr_of_ok (reduceWith_congr hP hf hs hc hE m lhs hl hagree.left_and)
          fun lhs' hlhs' => ?_
        refine bind_congr_of_ok (hsource lhs hl lhs' hlhs') fun _ _ => ?_
        refine bind_congr_of_ok (reduceWith_congr hP hf hs hc hE m rhs hr hagree.right_and)
          fun rhs' hrhs' => ?_
        rw [hsource rhs hr rhs' hrhs']
    | call function args binding =>
        rw [dependencies] at hagree
        dsimp only
        refine bind_congr_of_ok (reduceListWith_congr hP hf hs hc hE m args (Policy.admits_call.mp he).2
          hagree.right_and) fun args' hargs' => reduceCall_congr ?_
        rw [length_of_reduceListWith hargs']
        exact hagree.left_and
    | extension name display f args => exact (hf.function _ (Policy.admits_extension.mp he).1).elim
    | sorted selection keys =>
        obtain ⟨hselection, hkeys⟩ := Policy.admits_sorted.mp he
        rw [dependencies] at hagree
        dsimp only
        rw [reduceWith_congr hP hf hs hc hE m selection hselection hagree.left_and,
          reduceKeysWith_congr hP hf hs hc hE m keys hkeys hagree.right_and]
    | template parts =>
        dsimp only
        rw [dependencies] at hagree
        rw [reducePartsWith_congr hP hf hs hc hE m parts (Policy.admits_template.mp he) hagree]
termination_by structural e

theorem reduceListWith_congr (hP : P.Closed h) (hf : P.Hostless)
    (hs : P.Settles c c') (hc : P.AdmitsContext c)
    (hE : ∀ e, P.AdmitsExpr e → Ends P.error P.AdmitsValue (E.value e c))
    (m : Dependencies) (es : List Expr) (hes : EveryOfList P.AdmitsPart es)
    (hagree : c.AgreeOn (dependenciesOfList es &&& m) c') :
    reduceListWith E h m c es = reduceListWith E h m c' es := by
  match es with
  | [] => rfl
  | e :: es =>
      rw [EveryOfList] at hes
      rw [dependenciesOfList] at hagree
      rw [reduceListWith, reduceListWith, reduceWith_congr hP hf hs hc hE m e hes.1 hagree.left_and,
        reduceListWith_congr hP hf hs hc hE m es hes.2 hagree.right_and]
termination_by structural es

theorem reduceOptionWith_congr (hP : P.Closed h) (hf : P.Hostless)
    (hs : P.Settles c c') (hc : P.AdmitsContext c)
    (hE : ∀ e, P.AdmitsExpr e → Ends P.error P.AdmitsValue (E.value e c))
    (m : Dependencies) (e : Option Expr) (he : EveryOfOption P.AdmitsPart e)
    (hagree : c.AgreeOn (dependenciesOfOption e &&& m) c') :
    reduceOptionWith E h m c e = reduceOptionWith E h m c' e := by
  match e with
  | none => rfl
  | some e =>
      rw [reduceOptionWith, reduceOptionWith, reduceWith_congr hP hf hs hc hE m e he hagree]
termination_by structural e

theorem reduceKeysWith_congr (hP : P.Closed h) (hf : P.Hostless)
    (hs : P.Settles c c') (hc : P.AdmitsContext c)
    (hE : ∀ e, P.AdmitsExpr e → Ends P.error P.AdmitsValue (E.value e c))
    (m : Dependencies) (ks : List SortKey) (hks : EveryOfKeys P.AdmitsPart ks)
    (hagree : c.AgreeOn (dependenciesOfKeys ks &&& m) c') :
    reduceKeysWith E h m c ks = reduceKeysWith E h m c' ks := by
  match ks with
  | [] => rfl
  | .mk key order dataType caseOrder lang :: ks =>
      rw [EveryOfKeys] at hks
      obtain ⟨hkey, horder, htype, hcase, hlang, hks⟩ := hks
      rw [dependenciesOfKeys, dependenciesOfKey] at hagree
      have hown := hagree.left_and
      rw [reduceKeysWith, reduceKeysWith, reduceKeyWith, reduceKeyWith,
        reduceWith_congr hP hf hs hc hE _ key hkey
          hown.left_and.left_and.left_and.left_and.and_outer,
        reduceOptionWith_congr hP hf hs hc hE m order horder hown.left_and.left_and.left_and.right_and,
        reduceOptionWith_congr hP hf hs hc hE m dataType htype hown.left_and.left_and.right_and,
        reduceOptionWith_congr hP hf hs hc hE m caseOrder hcase hown.left_and.right_and,
        reduceOptionWith_congr hP hf hs hc hE m lang hlang hown.right_and,
        reduceKeysWith_congr hP hf hs hc hE m ks hks hagree.right_and]
termination_by structural ks

theorem reducePartsWith_congr (hP : P.Closed h) (hf : P.Hostless)
    (hs : P.Settles c c') (hc : P.AdmitsContext c)
    (hE : ∀ e, P.AdmitsExpr e → Ends P.error P.AdmitsValue (E.value e c))
    (m : Dependencies) (ps : List TemplatePart)
    (hps : EveryOfParts P.AdmitsPart ps)
    (hagree : c.AgreeOn (dependenciesOfParts ps &&& m) c') :
    reducePartsWith E h m c ps = reducePartsWith E h m c' ps := by
  match ps with
  | [] => rfl
  | .text text :: ps =>
      rw [dependenciesOfParts] at hagree
      rw [reducePartsWith, reducePartsWith, reducePartWith, reducePartWith,
        reducePartsWith_congr hP hf hs hc hE m ps hps hagree.right_and]
  | .expr e :: ps =>
      rw [EveryOfParts] at hps
      rw [dependenciesOfParts, dependenciesOfPart] at hagree
      rw [reducePartsWith, reducePartsWith, reducePartWith, reducePartWith,
        reduceWith_congr hP hf hs hc hE m e hps.1 hagree.left_and,
        reducePartsWith_congr hP hf hs hc hE m ps hps.2 hagree.right_and]
termination_by structural ps

end

end Reduce

/-! ## Evaluation -/

/-- The engine answers alike in contexts that agree on the dependencies of an expression. -/
def Engine.Congruent (P : Policy) (E : Engine) : Prop :=
  ∀ {e : Expr} {c c' : Context}, P.AdmitsExpr e → P.AdmitsContext c → P.Settles c c' →
    c.AgreeOn e.dependencies c' → E.Alike e c c'

namespace Engine.Congruent

variable {P : Policy} (hP : P.Closed h) (hf : P.Hostless) (hs : P.Settles c c')
  (hcovers : P.Covers E depth) (hE : E.Congruent P)

include hs hE

/-- A predicate or a key is asked in the context of an item, which is the same in both. -/
theorem forItem (hf : P.Hostless) (he : P.AdmitsExpr e) (hc : P.AdmitsContext c)
    (hagree : c.AgreeOn (e.dependencies &&& .outer) c') (n : Node) (k : Nat) (l : LastPosition) :
    E.Alike e (c.forItem n k l) (c'.forItem n k l) :=
  hE he (hc.forItem (hf.node n)) hs hagree.forItem

theorem key (hf : P.Hostless) {s : SortKey} (hparts : P.AdmitsExpr s.key ∧
      EveryOfOption P.AdmitsPart s.order ∧ EveryOfOption P.AdmitsPart s.dataType ∧
      EveryOfOption P.AdmitsPart s.caseOrder ∧ EveryOfOption P.AdmitsPart s.lang)
    (hc : P.AdmitsContext c) (hagree : c.AgreeOn (dependenciesOfKey s) c') :
    E.KeysCorrespond c E c' s := by
  obtain ⟨key, order, dataType, caseOrder, lang⟩ := s
  obtain ⟨hkey, horder, htype, hcase, hlang⟩ := hparts
  rw [dependenciesOfKey] at hagree
  have hattribute {a : Option Expr} (ha : EveryOfOption P.AdmitsPart a)
      (hagree : c.AgreeOn (dependenciesOfOption a) c') (e : Expr) (hsome : a = some e) :
      E.text e c = E.text e c' := by
    subst hsome
    exact (hE ha hc hs hagree).text
  exact {
    key := fun n k l => (forItem hs hE hf hkey hc hagree.left.left.left.left n k l).text
    order := hattribute horder hagree.left.left.left.right
    dataType := hattribute htype hagree.left.left.right
    caseOrder := hattribute hcase hagree.left.right
    lang := hattribute hlang hagree.right }

omit hs hE in
theorem oneNode_congr {F : Forest} (hagree : c.AgreeOn e.dependencies c') :
    Engine.oneNode F e c = Engine.oneNode F e c' := by
  have hnode (hbit : e.dependencies.bit 3 = true) : c.contextNode = c'.contextNode :=
    hagree.contextNode_eq hbit
  match e with
  | contextNode | parentNode | root =>
      have hnode := hnode (by simp [dependencies])
      simp only [Engine.oneNode, hnode]
  | attributeNamed name display none =>
      have hnode := hnode (by simp [dependencies])
      simp only [Engine.oneNode, hnode]
  | attributeNamed name display (some n) => rfl
  | literal _ | .reference .. | .binary .. | negate _ | nodeComparison .. | .path .. | .filter ..
  | setOperation .. | call .. | extension .. | sorted .. | template _ | .failure _ => rfl

include hP hf hcovers

omit hE in
theorem nodeSet_congr (he : P.AdmitsExpr e) (hc : P.AdmitsContext c)
    (hagree : c.AgreeOn e.dependencies c') : E.nodeSet h e c = E.nodeSet h e c' := by
  have hvalue (e : Expr) (he : P.AdmitsExpr e) : Ends P.error P.AdmitsValue (E.value e c) :=
    (hcovers.serves (.inl (hf.error _)) he hc).value
  refine bind_congr_of_ok
    (reduceWith_congr hP hf hs hc hvalue .all e he (hagree.mono fun i hi => ?_))
    fun e' he' => ?_
  · rw [Dependencies.bit_and, Bool.and_eq_true] at hi
    exact hi.1
  · have hadmits := ((Policy.fits_reduceWith hP hc (fun e he _ => hvalue e he) .all e he
      le_rfl).of_ok he').admits
    split
    · rfl
    · exact hs.toNodeSet (Policy.admits_literal.mp hadmits)
    · rfl

theorem value_congr (he : P.AdmitsExpr e) (hc : P.AdmitsContext c)
    (hagree : c.AgreeOn e.dependencies c') : E.ruleValue h e c = E.ruleValue h e c' := by
  match e with
  | literal v | .reference name display (some v) | .failure error => rfl
  | .reference name display none => exact hagree.valueOf (by simp [dependencies]) name
  | .binary op lhs rhs =>
      obtain ⟨hl, hr⟩ := Policy.admits_binary.mp he
      rw [dependencies] at hagree
      have hl := hE hl hc hs hagree.left
      have hr := hE hr hc hs hagree.right
      exact binary_congr hl.corresponds hr.corresponds fun _ => ⟨hl.value, hr.value⟩
  | negate e =>
      rw [ruleValue, ruleValue, (hE (Policy.admits_negate.mp he) hc hs hagree).number]
  | nodeComparison node op v =>
      rw [ruleValue, ruleValue,
        compareNode_congr (hE (Policy.admits_nodeComparison.mp he).2 hc hs hagree).corresponds]
  | contextNode | parentNode | root | attributeNamed name display parent =>
      rw [ruleValue, ruleValue, oneNode_congr hagree]
  | .path start axis test predicates | .filter base predicate | setOperation op lhs rhs
  | sorted selection keys =>
      rw [ruleValue, ruleValue, nodeSet_congr hP hf hs hcovers he hc hagree]
  | call function args binding =>
      obtain ⟨-, hargs⟩ := Policy.admits_call.mp he
      rw [dependencies] at hagree
      have harg (e : Expr) (he : e ∈ args) : E.Alike e c c' :=
        hE (Policy.admits_mem hargs he) hc hs
          (hagree.right.mono fun i hi => bit_of_mem he hi)
      have harg? (i : Nat) : E.Alike (args[i]?.getD (.string "")) c c' := by
        cases hi : args[i]? with
        | some e => exact harg e (List.mem_of_getElem? hi)
        | none =>
            exact hE (Policy.admits_literal.mpr trivial) hc hs
              (hagree.left.mono fun i hi => by simp [string, dependencies] at hi)
      exact CallFrame.AgreesWith.run (f := ⟨E, h.forest, function, args, binding, c⟩)
        ⟨hagree.left, fun i => (harg? i).corresponds, fun e he => (harg e he).corresponds,
          fun _ i => ⟨(harg? i).value, (harg? i).nodes⟩⟩
  | extension name display f args => exact (hf.function f (Policy.admits_extension.mp he).1).elim
  | template parts =>
      rw [dependencies] at hagree
      rw [ruleValue, ruleValue, texts_congr fun e hp =>
        (hE (Policy.admits_part (Policy.admits_template.mp he) hp).1 hc hs
          (hagree.mono fun i hi => bit_of_mem_parts hp hi)).text]

theorem enumerate_congr (he : P.AdmitsExpr e) (hc : P.AdmitsContext c)
    (hagree : c.AgreeOn e.dependencies c') : E.ruleEnumerate h e c = E.ruleEnumerate h e c' := by
  have hother : (do (← (← E.ruleValue h e c).toNodeSet c).store h.forest) =
      (do (← (← E.ruleValue h e c').toNodeSet c').store h.forest) := by
    refine bind_congr_of_ok (value_congr hP hf hs hcovers hE he hc hagree) fun v hv => ?_
    have hadmits : P.AdmitsValue v :=
      ((hcovers.next hP).serves (.inl (hf.error _)) he hc).value.of_ok hv
    rw [hs.toNodeSet hadmits]
  match e with
  | literal (.nodeSet s) => rfl
  | contextNode | parentNode | root | attributeNamed name display parent =>
      rw [ruleEnumerate, ruleEnumerate, oneNode_congr hagree]
  | .path start axis test predicates =>
      obtain ⟨hstart, hpredicates⟩ := Policy.admits_path.mp he
      rw [dependencies] at hagree
      refine bind_congr_of_ok (hE hstart hc hs hagree.left).enumerate fun base _ => ?_
      rw [path_congr fun p hp n k l => (forItem hs hE hf (Policy.admits_mem hpredicates hp) hc
        (hagree.right.mono fun i hi => ?_) n k l).passes rfl]
      rw [Dependencies.bit_and, Bool.and_eq_true] at hi ⊢
      exact ⟨bit_of_mem hp hi.1, hi.2⟩
  | .filter base predicate =>
      obtain ⟨hbase, hpredicate⟩ := Policy.admits_filter.mp he
      rw [dependencies] at hagree
      have hfilter := filter_congr (F := h.forest) fun n k l =>
        (forItem hs hE hf hpredicate hc hagree.right n k l).passes rfl
      rw [ruleEnumerate, ruleEnumerate, (hE hbase hc hs hagree.left).enumerate]
      simp only [hfilter]
  | setOperation op lhs rhs =>
      obtain ⟨hl, hr⟩ := Policy.admits_setOperation.mp he
      rw [dependencies] at hagree
      rw [ruleEnumerate, ruleEnumerate, (hE hl hc hs hagree.left).enumerate,
        (hE hr hc hs hagree.right).enumerate]
  | sorted selection keys =>
      obtain ⟨hselection, hkeys⟩ := Policy.admits_sorted.mp he
      rw [dependencies] at hagree
      exact sort_congr (hE hselection hc hs hagree.left).enumerate fun s hmem =>
        key hs hE hf (Policy.admits_key hkeys hmem) hc
          (hagree.right.mono fun i hi => bit_of_mem_keys hmem hi)
  | literal (.boolean _) | literal (.number _) | literal (.string _) | literal (.fragment _)
  | literal (.object _) | .reference name display constant | .binary op lhs rhs | negate e
  | nodeComparison node op v | call function args binding | extension name display f args
  | template parts | .failure error => exact hother

omit hs in
/-- An engine that answers alike about the parts makes an engine that answers alike about the
whole. -/
theorem next : (E.next h).Congruent P := by
  intro e c c' he hc hs hagree
  have hvalue := value_congr hP hf hs hcovers hE he hc hagree
  have hnext := corresponds_next (enumerate_congr hP hf hs hcovers hE he hc hagree) fun _ => hvalue
  refine ⟨hnext.answers, hvalue, fun v hv => hs.toNodeSet ?_⟩
  exact ((hcovers.next hP).serves (.inl (hf.error _)) he hc).value.of_ok hv

end Engine.Congruent

theorem Engine.answers_exhausted : Engine.exhausted.Answers e c c' := ⟨rfl, rfl, rfl, rfl, rfl⟩

theorem Engine.congruent_exhausted {P : Policy} : Engine.exhausted.Congruent P :=
  fun _ _ _ _ => ⟨answers_exhausted, rfl, by rintro _ ⟨⟩⟩

/-- All engines of a host answer alike in contexts that agree on the dependencies and make the same of
fragments. -/
theorem Host.congruent_engine_of_hostless {P : Policy} (hP : P.Closed h) (hf : P.Hostless)
    (depth : Nat) : (h.engine depth).Congruent P := by
  induction depth with
  | zero => exact Engine.congruent_exhausted
  | succ depth ih => exact ih.next hP hf (Policy.covers_engine hP depth)

theorem Host.congruent_engine {P : Policy} (hP : P.Closed h) (hf : P.Fragmentless) (depth : Nat)
    (he : P.AdmitsExpr e) (hc : P.AdmitsContext c) (hagree : c.AgreeOn e.dependencies c') :
    (h.engine depth).Alike e c c' :=
  h.congruent_engine_of_hostless hP hf.hostless depth he hc (hf.settles c c') hagree

namespace Expr

/-- The expression is no call of a function of the host, and holds no fragment, nor does the variable
of the context that it names. -/
def Fragmentless (c : Context) : Expr → Prop
  | literal v => ∀ f, v ≠ .fragment f
  | reference _ _ (some v) => ∀ f, v ≠ .fragment f
  | reference name _ none => ∀ v, c.valueOf name = .ok v → ∀ f, v ≠ .fragment f
  | nodeComparison _ _ v => ∀ f, v ≠ .fragment f
  | extension .. => False
  | _ => True

theorem admits_of_fragmentless (he : e.Every (Fragmentless c)) :
    (Policy.fragmentless c).AdmitsExpr e := by
  refine Every.imp₂ (fun e hp _ => ?_) he he
  match e, hp with
  | literal v, hp => exact Policy.admitsValue_fragmentless.mpr hp
  | .reference name display (some v), hp => exact Policy.admitsValue_fragmentless.mpr hp
  | .reference name display none, hp => exact hp
  | nodeComparison node op v, hp => exact Policy.admitsValue_fragmentless.mpr hp
  | call function args binding, _ =>
      exact ⟨fun _ _ => trivial, fun k _ => Policy.admitsController_fragmentless k⟩
  | attributeNamed name display parent, _ => exact fun _ _ => trivial
  | .failure error, _ => exact trivial
  | contextNode, _ | parentNode, _ | root, _ | binary op lhs rhs, _ | negate e, _
  | path start axis test predicates, _ | filter base predicate, _ | setOperation op lhs rhs, _
  | sorted selection keys, _ | template parts, _ => exact trivial

/-- In contexts that agree on what the expression is said to depend on, it comes to the same value or
to the same error. -/
theorem evaluate_congr (he : e.Every (Fragmentless c)) (hagree : c.AgreeOn e.dependencies c') :
    e.evaluate h c = e.evaluate h c' :=
  (h.congruent_engine Policy.closed_fragmentless Policy.fragmentless_fragmentless _
    (admits_of_fragmentless he) (Policy.admitsContext_fragmentless c) hagree).value

/-! `//x[position() = last() and $b]` does not read the position outside. -/

def lastFlagged : Expr :=
  everywhere "x"
    [binary .and (binary .equals (call .position [] .free) (call .last [] .free)) flag]

def elsewhere : Context :=
  { flagContext with currentNode? := none, position := 7, lastPosition := .unknown,
                     controller? := some (.bare 1) }

theorem evaluate_congr_lastFlagged :
    flagContext.AgreeOn lastFlagged.dependencies elsewhere ∧
      lastFlagged.evaluate nestedHost flagContext = lastFlagged.evaluate nestedHost elsewhere := by
  have hbit (i : Nat) (hi : i = 2 ∨ i = 4 ∨ i = 5 ∨ i = 6) :
      lastFlagged.dependencies.bit i = false := by
    rcases hi with rfl | rfl | rfl | rfl <;> decide +kernel
  have hagree : flagContext.AgreeOn lastFlagged.dependencies elsewhere :=
    { valueOf := fun _ _ => rfl
      currentNode := fun hi => by simp [hbit 2] at hi
      contextNode := fun _ => rfl
      position := fun hi => by simp [hbit 4] at hi
      last := fun hi => by simp [hbit 5] at hi
      controller := fun hi => by simp [hbit 6] at hi }
  refine ⟨hagree, evaluate_congr ?_ hagree⟩
  simp only [Every, EveryOfList, Fragmentless, lastFlagged, everywhere, flag, and_true, true_and]
  intro v hv f hfragment
  subst hfragment
  simp [Context.valueOf, flagContext] at hv

end Expr

end XPath
