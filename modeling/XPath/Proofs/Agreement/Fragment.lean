import XPath.Proofs.Agreement.Engine
import XPath.Proofs.Expr.Dependencies

/-!
# Fragments in place of nodes

A variable that holds a fragment stands for the root of the tree that the controller makes of it,
wherever only its nodes are wanted: evaluation, enumeration and reduction come to the same as with
the root itself (`Expr.fragment_as_root`).

Whether the controller is still at hand depends on what is done with the expression. Reduction turns
the fragment into nodes where a path starts, where a filter has its base and where a set operation
has its operands, but not in the arguments of a call nor in the selection of a sort
(`Expr.not_fragment_as_root`). An expression that is evaluated as it stands may have it there too, in
predicates as well; but to evaluate what selects nodes is to reduce it first. `Expr.NodesOnly` follows
the use that is made of each part.
-/

namespace XPath

open XPath.Expr hiding failure

variable {E : Engine} {h : Host} {c c' : Context} {m : Dependencies} {e : Expr}
  {name : ExpandedName}

/-! ## Where the fragment stands -/

/-- What is done with an expression: it is reduced, or asked for its value (which reduces it if it
selects nodes), or asked for something else. -/
inductive Use
  | reduced
  | value
  | listed
  deriving DecidableEq

namespace Use

/-- The use of a part that evaluation would use in a way of its own. -/
def part (u own : Use) : Use := if u = reduced then reduced else own

/-- The use of the parts of an expression that selects nodes. -/
def nodes (u : Use) : Use := if u = listed then listed else reduced

end Use

/-- Functions that want a node-set as their argument and nothing else of it. -/
def Builtin.takesNodes : Builtin → Bool
  | .count | .sum | .localName | .namespaceUri | .name | .generateId => Bool.true
  | _ => Bool.false

namespace Expr

mutual

/-- In this use of the expression the variable is nowhere asked for but for its nodes, and where it
is, the controller is still at hand. `source` says that the place of the expression itself is one
where nodes are wanted. -/
def NodesOnly (name : ExpandedName) (u : Use) (source : Bool) : Expr → Prop
  | reference other _ none => source = true ∨ other ≠ name
  | binary op lhs rhs =>
      lhs.NodesOnly name (u.part (if op.isComparison then .value else .listed)) false ∧
        rhs.NodesOnly name (u.part (if op.isComparison then .value else .listed)) false
  | negate e => e.NodesOnly name (u.part .listed) false
  | nodeComparison node _ _ => node.NodesOnly name (u.part .listed) false
  | path start _ _ predicates =>
      start.NodesOnly name u.nodes true ∧ NodesOnlyOfList name u.nodes false predicates
  | filter base predicate =>
      base.NodesOnly name u.nodes true ∧ predicate.NodesOnly name u.nodes false
  | setOperation _ lhs rhs => lhs.NodesOnly name u.nodes true ∧ rhs.NodesOnly name u.nodes true
  | call function args _ =>
      NodesOnlyOfList name (u.part (if function.readsValues then .value else .listed))
        (u != .reduced && function.takesNodes) args
  | extension _ _ _ args => NodesOnlyOfList name (u.part .value) false args
  | sorted selection keys =>
      selection.NodesOnly name u.nodes (u == .listed) ∧ NodesOnlyOfKeys name u.nodes keys
  | template parts => NodesOnlyOfParts name (u.part .listed) parts
  | literal _ | reference _ _ (some _) | contextNode | parentNode | root | attributeNamed .. => True
  | failure _ => True

def NodesOnlyOfList (name : ExpandedName) (u : Use) (source : Bool) : List Expr → Prop
  | [] => True
  | e :: rest => e.NodesOnly name u source ∧ NodesOnlyOfList name u source rest

def NodesOnlyOfOption (name : ExpandedName) (u : Use) : Option Expr → Prop
  | none => True
  | some e => e.NodesOnly name u false

def NodesOnlyOfKeys (name : ExpandedName) (u : Use) : List SortKey → Prop
  | [] => True
  | .mk key order dataType caseOrder lang :: rest => key.NodesOnly name u false ∧
      NodesOnlyOfOption name u order ∧ NodesOnlyOfOption name u dataType ∧
      NodesOnlyOfOption name u caseOrder ∧ NodesOnlyOfOption name u lang ∧
      NodesOnlyOfKeys name u rest

def NodesOnlyOfParts (name : ExpandedName) (u : Use) : List TemplatePart → Prop
  | [] => True
  | .text _ :: rest => NodesOnlyOfParts name u rest
  | .expr e :: rest => e.NodesOnly name u false ∧ NodesOnlyOfParts name u rest

end

mutual

theorem NodesOnly.of_reduced {u : Use} {source source' : Bool}
    (hs : source = true → source' = true) {e : Expr} (he : e.NodesOnly name .reduced source) :
    e.NodesOnly name u source' := by
  match e with
  | literal _ | reference _ _ (some _) | contextNode | parentNode | root | attributeNamed _ _ _
  | failure _ => trivial
  | reference other _ none => exact he.imp_left hs
  | binary _ lhs rhs | filter lhs rhs | setOperation _ lhs rhs =>
      rw [NodesOnly] at he ⊢
      exact ⟨he.1.of_reduced id, he.2.of_reduced id⟩
  | negate e | nodeComparison e _ _ =>
      rw [NodesOnly] at he ⊢
      exact he.of_reduced id
  | path start _ _ predicates =>
      rw [NodesOnly] at he ⊢
      exact ⟨he.1.of_reduced id, NodesOnlyOfList.of_reduced id he.2⟩
  | call _ args _ | extension _ _ _ args =>
      rw [NodesOnly] at he ⊢
      exact NodesOnlyOfList.of_reduced (by simp) he
  | sorted selection keys =>
      rw [NodesOnly] at he ⊢
      exact ⟨he.1.of_reduced (by simp), NodesOnlyOfKeys.of_reduced he.2⟩
  | template parts =>
      rw [NodesOnly] at he ⊢
      exact NodesOnlyOfParts.of_reduced he
termination_by structural e

theorem NodesOnlyOfList.of_reduced {u : Use} {source source' : Bool}
    (hs : source = true → source' = true) {es : List Expr} (he : NodesOnlyOfList name .reduced source es) :
    NodesOnlyOfList name u source' es := by
  match es with
  | [] => trivial
  | e :: es => exact ⟨he.1.of_reduced hs, NodesOnlyOfList.of_reduced hs he.2⟩
termination_by structural es

theorem NodesOnlyOfOption.of_reduced {u : Use} {e : Option Expr}
    (he : NodesOnlyOfOption name .reduced e) : NodesOnlyOfOption name u e := by
  match e with
  | none => trivial
  | some e => exact NodesOnly.of_reduced (e := e) id he
termination_by structural e

theorem NodesOnlyOfKeys.of_reduced {u : Use} {ks : List SortKey}
    (he : NodesOnlyOfKeys name .reduced ks) : NodesOnlyOfKeys name u ks := by
  match ks with
  | [] => trivial
  | .mk key order dataType caseOrder lang :: ks =>
      obtain ⟨hkey, horder, htype, hcase, hlang, hks⟩ := he
      exact ⟨hkey.of_reduced id, horder.of_reduced, htype.of_reduced, hcase.of_reduced,
        hlang.of_reduced, NodesOnlyOfKeys.of_reduced hks⟩
termination_by structural ks

theorem NodesOnlyOfParts.of_reduced {u : Use} {ps : List TemplatePart}
    (he : NodesOnlyOfParts name .reduced ps) : NodesOnlyOfParts name u ps := by
  match ps with
  | [] => trivial
  | .text _ :: ps =>
      rw [NodesOnlyOfParts] at he ⊢
      exact NodesOnlyOfParts.of_reduced he
  | .expr e :: ps => exact ⟨he.1.of_reduced id, NodesOnlyOfParts.of_reduced he.2⟩
termination_by structural ps

end

mutual

theorem nodesOnly_of_disjoint {u : Use} {source : Bool} {m : Dependencies} (hm : m.bit 0 = true)
    {e : Expr} (he : e.DisjointFrom m) : e.NodesOnly name u source := by
  have hm' : (m &&& .outer).bit 0 = true := by simp [hm]
  match e with
  | literal _ | reference _ _ (some _) | contextNode | parentNode | root | attributeNamed _ _ _
  | failure _ => trivial
  | reference other _ none =>
      rw [DisjointFrom, Dependencies.disjoint_iff] at he
      simp [he 0 (by simp [dependencies])] at hm
  | binary _ lhs rhs =>
      obtain ⟨hl, hr⟩ := disjoint_binary.mp he
      exact ⟨nodesOnly_of_disjoint hm hl, nodesOnly_of_disjoint hm hr⟩
  | negate e | nodeComparison e _ _ => exact nodesOnly_of_disjoint (e := e) hm he
  | path start _ _ predicates =>
      obtain ⟨hstart, hpredicates⟩ := disjoint_path.mp he
      exact ⟨nodesOnly_of_disjoint hm hstart, nodesOnlyOfList_of_disjoint hm' hpredicates⟩
  | filter base predicate =>
      obtain ⟨hbase, hpredicate⟩ := disjoint_filter.mp he
      exact ⟨nodesOnly_of_disjoint hm hbase, nodesOnly_of_disjoint hm' hpredicate⟩
  | setOperation _ lhs rhs =>
      obtain ⟨hl, hr⟩ := disjoint_setOperation.mp he
      exact ⟨nodesOnly_of_disjoint hm hl, nodesOnly_of_disjoint hm hr⟩
  | call _ args _ =>
      rw [NodesOnly]
      exact nodesOnlyOfList_of_disjoint hm (disjoint_call.mp he).2
  | extension _ _ _ args =>
      rw [DisjointFrom, dependencies, Dependencies.intersects_or, Bool.or_eq_false_iff] at he
      rw [NodesOnly]
      exact nodesOnlyOfList_of_disjoint hm he.2
  | sorted selection keys =>
      obtain ⟨hselection, hkeys⟩ := disjoint_sorted.mp he
      exact ⟨nodesOnly_of_disjoint hm hselection, nodesOnlyOfKeys_of_disjoint hm hkeys⟩
  | template parts =>
      rw [NodesOnly]
      exact nodesOnlyOfParts_of_disjoint hm he
termination_by structural e

theorem nodesOnlyOfList_of_disjoint {u : Use} {source : Bool} {m : Dependencies}
    (hm : m.bit 0 = true) {es : List Expr} (he : (dependenciesOfList es).intersects m = false) :
    NodesOnlyOfList name u source es := by
  match es with
  | [] => trivial
  | e :: es =>
      obtain ⟨he, hes⟩ := disjoint_cons.mp he
      exact ⟨nodesOnly_of_disjoint hm he, nodesOnlyOfList_of_disjoint hm hes⟩
termination_by structural es

theorem nodesOnlyOfOption_of_disjoint {u : Use} {m : Dependencies} (hm : m.bit 0 = true)
    {e : Option Expr} (he : (dependenciesOfOption e).intersects m = false) :
    NodesOnlyOfOption name u e := by
  match e with
  | none => trivial
  | some e => exact nodesOnly_of_disjoint (e := e) hm he
termination_by structural e

theorem nodesOnlyOfKeys_of_disjoint {u : Use} {m : Dependencies} (hm : m.bit 0 = true)
    {ks : List SortKey} (he : (dependenciesOfKeys ks).intersects m = false) :
    NodesOnlyOfKeys name u ks := by
  match ks with
  | [] => trivial
  | .mk key order dataType caseOrder lang :: ks =>
      have hm' : (m &&& .outer).bit 0 = true := by simp [hm]
      obtain ⟨hk, hks⟩ := disjoint_consKey.mp he
      obtain ⟨hkey, horder, htype, hcase, hlang⟩ := disjoint_key.mp hk
      exact ⟨nodesOnly_of_disjoint hm' hkey, nodesOnlyOfOption_of_disjoint hm horder,
        nodesOnlyOfOption_of_disjoint hm htype, nodesOnlyOfOption_of_disjoint hm hcase,
        nodesOnlyOfOption_of_disjoint hm hlang, nodesOnlyOfKeys_of_disjoint hm hks⟩
termination_by structural ks

theorem nodesOnlyOfParts_of_disjoint {u : Use} {m : Dependencies} (hm : m.bit 0 = true)
    {ps : List TemplatePart} (he : (dependenciesOfParts ps).intersects m = false) :
    NodesOnlyOfParts name u ps := by
  match ps with
  | [] => trivial
  | .text _ :: ps =>
      rw [NodesOnlyOfParts]
      exact nodesOnlyOfParts_of_disjoint hm (disjoint_consPart.mp he).2
  | .expr e :: ps =>
      obtain ⟨he, hps⟩ := disjoint_consPart.mp he
      exact ⟨nodesOnly_of_disjoint (e := e) hm he, nodesOnlyOfParts_of_disjoint hm hps⟩
termination_by structural ps

end

theorem NodesOnlyOfList.of_mem {u : Use} {source : Bool} {es : List Expr}
    (hes : NodesOnlyOfList name u source es) (he : e ∈ es) : e.NodesOnly name u source := by
  induction es with
  | nil => cases he
  | cons first es ih =>
      rcases List.mem_cons.mp he with rfl | he
      · exact hes.1
      · exact ih hes.2 he

theorem nodesOnlyOfList_of_forall {u : Use} {source : Bool} {es : List Expr}
    (hes : ∀ e ∈ es, e.NodesOnly name u source) : NodesOnlyOfList name u source es := by
  induction es with
  | nil => trivial
  | cons first es ih =>
      exact ⟨hes first List.mem_cons_self, ih fun e he => hes e (List.mem_cons_of_mem _ he)⟩

theorem NodesOnlyOfKeys.of_mem {u : Use} {ks : List SortKey} {s : SortKey}
    (hks : NodesOnlyOfKeys name u ks) (hs : s ∈ ks) :
    s.key.NodesOnly name u false ∧ NodesOnlyOfOption name u s.order ∧
      NodesOnlyOfOption name u s.dataType ∧ NodesOnlyOfOption name u s.caseOrder ∧
      NodesOnlyOfOption name u s.lang := by
  induction ks with
  | nil => cases hs
  | cons first ks ih =>
      obtain ⟨key, order, dataType, caseOrder, lang⟩ := first
      obtain ⟨hkey, horder, htype, hcase, hlang, hks⟩ := hks
      rcases List.mem_cons.mp hs with rfl | hs
      · exact ⟨hkey, horder, htype, hcase, hlang⟩
      · exact ih hks hs

theorem NodesOnlyOfParts.of_mem {u : Use} {ps : List TemplatePart}
    (hps : NodesOnlyOfParts name u ps) (he : .expr e ∈ ps) : e.NodesOnly name u false := by
  induction ps with
  | nil => cases he
  | cons first ps ih =>
      cases first with
      | text text => exact ih hps (by simpa using he)
      | expr first =>
          rcases List.mem_cons.mp he with heq | he
          · cases heq
            exact hps.1
          · exact ih hps.2 he

/-- An expression that may be asked for its value may be asked for anything else. -/
theorem NodesOnly.of_value {source source' : Bool} (hs : source = true → source' = true)
    (he : e.NodesOnly name .value source) : e.NodesOnly name .listed source' := by
  match e with
  | literal _ | reference _ _ (some _) | contextNode | parentNode | root | attributeNamed _ _ _
  | failure _ => trivial
  | reference other _ none => exact he.imp_left hs
  | binary .. | negate _ | nodeComparison .. | call .. | extension .. | template _ => exact he
  | path .. | filter .. | setOperation .. | sorted .. =>
      -- asked for its value it is reduced
      exact NodesOnly.of_reduced hs he

/-- Only an expression that selects nodes is reduced when it is asked for its value. -/
theorem NodesOnly.value_of_listed {source : Bool} (hshape : e.isNodeSetExpression = false)
    (he : e.NodesOnly name .listed source) : e.NodesOnly name .value source := by
  match e with
  | reference _ _ none | binary .. | negate _ | nodeComparison .. | call .. | extension ..
  | template _ => exact he
  | literal _ | reference _ _ (some _) | failure _ | contextNode | parentNode | root
  | attributeNamed _ _ _ => trivial
  | path .. | filter .. | setOperation .. | sorted .. => cases hshape

/-- The variable may stand alone where nodes are wanted, but need not. -/
theorem NodesOnly.to_source (he : e.NodesOnly name .listed false) :
    e.NodesOnly name .listed true := by
  match e with
  | reference _ _ none => exact he.imp_left nofun
  | literal _ | reference _ _ (some _) | failure _ | contextNode | parentNode | root
  | attributeNamed _ _ _ => trivial
  | binary .. | negate _ | nodeComparison .. | call .. | extension .. | template _ | path ..
  | filter .. | setOperation .. | sorted .. => exact he

theorem NodesOnly.reduced_of_value (hshape : e.isNodeSetExpression = true)
    (he : e.NodesOnly name .value false) : e.NodesOnly name .reduced false := by
  match e with
  | path .. | filter .. | setOperation .. | sorted .. => exact he
  | contextNode | parentNode | root | attributeNamed _ _ _ => trivial
  | literal _ | reference .. | failure _ | binary .. | negate _ | nodeComparison .. | call ..
  | extension .. | template _ => cases hshape

/-- Where nodes are wanted the variable may stand alone. -/
theorem NodesOnly.of_source {u : Use} (he : e.NodesOnly name u true) :
    (∃ display, e = reference name display none) ∨ e.NodesOnly name u false := by
  match e with
  | reference other display none =>
      by_cases hother : other = name
      · exact .inl ⟨display, by rw [hother]⟩
      · exact .inr (.inr hother)
  | literal _ | reference _ _ (some _) | contextNode | parentNode | root | attributeNamed _ _ _
  | failure _ | binary .. | negate _ | nodeComparison .. | path .. | filter .. | setOperation ..
  | call .. | extension .. | sorted .. | template _ => exact .inr he

end Expr

/-! ## The variable in two contexts -/

/-- The contexts differ in one variable: in the first it holds a fragment, in the second the root of
the tree that the controller makes of it. -/
structure Context.Materializes (name : ExpandedName) (c c' : Context) : Prop where
  rebound : ∃ bindings, c' = { c with bindings }
  others : ∀ other, other ≠ name → c.valueOf other = c'.valueOf other
  root : ∃ f n, c.valueOf name = .ok (.fragment f) ∧
    (Value.fragment f).toNodeSet c = .ok (.singleton n) ∧
    c'.valueOf name = .ok (.nodeSet (.singleton n))

namespace Context.Materializes

theorem forItem (hc : c.Materializes name c') (n : Node) (k : Nat) (l : LastPosition) :
    (c.forItem n k l).Materializes name (c'.forItem n k l) where
  rebound := by
    obtain ⟨bindings, rfl⟩ := hc.rebound
    exact ⟨bindings, rfl⟩
  others := hc.others
  root := hc.root

variable (hc : c.Materializes name c')

include hc

theorem toNodeSet (v : Value) : v.toNodeSet c = v.toNodeSet c' := by
  obtain ⟨bindings, rfl⟩ := hc.rebound
  cases v <;> rfl

theorem asNodeSource (e : Expr) : e.asNodeSource c = e.asNodeSource c' := by
  unfold Expr.asNodeSource
  split
  · rw [hc.toNodeSet]
  · rfl

theorem oneNode (F : Forest) (e : Expr) : Engine.oneNode F e c = Engine.oneNode F e c' := by
  obtain ⟨bindings, rfl⟩ := hc.rebound
  cases e <;> rfl

theorem reduceCall (F : Forest) (m : Dependencies) (function : Builtin) (args : List Expr)
    (binding : CallBinding) :
    Expr.reduceCall F m c function args binding = Expr.reduceCall F m c' function args binding := by
  obtain ⟨bindings, rfl⟩ := hc.rebound
  rfl

theorem agreeOn_intrinsic (function : Builtin) (count : Nat) (binding : CallBinding) :
    c.AgreeOn (intrinsicDependencies function count binding) c' := by
  obtain ⟨bindings, rfl⟩ := hc.rebound
  exact
    { valueOf := fun hbit => by
        rw [Meaning.bit_intrinsic_of_notin] at hbit <;> simp at hbit ⊢
      currentNode := fun _ => rfl
      contextNode := fun _ => rfl
      position := fun _ => rfl
      last := fun _ => rfl
      controller := fun _ => rfl }

/-- Reduction makes nodes of the variable where it stands for them. -/
theorem reduceSource {α : Type} (he : e.NodesOnly name .reduced true)
    (hreduce : e.NodesOnly name .reduced false →
      e.reduceWith E h m c = e.reduceWith E h m c') (use : Expr → Except Error α) :
    (do use (← Expr.asNodeSource c (← e.reduceWith E h m c))) =
      (do use (← Expr.asNodeSource c' (← e.reduceWith E h m c'))) := by
  obtain ⟨display, rfl⟩ | he := he.of_source
  · obtain ⟨f, n, hf, hnodes, hn⟩ := hc.root
    unfold reduceWith
    split
    · rfl
    · dsimp only
      rw [hf, hn]
      simp [Expr.asNodeSource, Except.map, hnodes]
  · rw [hreduce he]
    simp only [hc.asNodeSource]

end Context.Materializes

/-! ## Reduction -/

/-- The functions of the host do not tell the fragment and the root apart. -/
def Host.Ignores (h : Host) (name : ExpandedName) : Prop :=
  ∀ {c c' : Context}, c.Materializes name c' →
    ∀ identity vs, h.apply identity vs c = h.apply identity vs c'

mutual

theorem reduceWith_root
    (hc : c.Materializes name c')
    (hE : ∀ e : Expr, e.NodesOnly name .value false → E.value e c = E.value e c')
    (hhost : h.Ignores name) (m : Dependencies) (e : Expr) (he : e.NodesOnly name .reduced false) :
    e.reduceWith E h m c = e.reduceWith E h m c' := by
  unfold reduceWith
  split
  · rfl
  · rename_i hmask
    match e with
    | literal v | .failure error => rfl
    | reference other display (some v) =>
        exact absurd (congrArg (!·) (Dependencies.not_intersects_empty m)) hmask
    | reference other display none =>
        dsimp only
        rw [hc.others other (he.resolve_left nofun)]
    | binary op lhs rhs =>
        rw [NodesOnly] at he
        dsimp only
        rw [reduceWith_root hc hE hhost m lhs he.1, reduceWith_root hc hE hhost m rhs he.2]
    | negate e =>
        rw [NodesOnly] at he
        dsimp only
        rw [reduceWith_root hc hE hhost m e he]
    | nodeComparison node op v =>
        rw [NodesOnly] at he
        dsimp only
        rw [reduceWith_root hc hE hhost m node he]
    | contextNode | parentNode | root | attributeNamed name display parent =>
        obtain ⟨bindings, rfl⟩ := hc.rebound
        rfl
    | path start axis test predicates =>
        rw [NodesOnly] at he
        refine (hc.reduceSource he.1 (reduceWith_root hc hE hhost m start) _).trans ?_
        refine bind_congr_of_ok rfl fun _ _ => bind_congr_of_ok rfl fun _ _ => ?_
        rw [reduceListWith_root hc hE hhost _ predicates he.2]
    | filter base predicate =>
        rw [NodesOnly] at he
        refine (hc.reduceSource he.1 (reduceWith_root hc hE hhost m base) _).trans ?_
        refine bind_congr_of_ok rfl fun _ _ => bind_congr_of_ok rfl fun _ _ => ?_
        rw [reduceWith_root hc hE hhost _ predicate he.2]
    | setOperation op lhs rhs =>
        rw [NodesOnly] at he
        refine (hc.reduceSource he.1 (reduceWith_root hc hE hhost m lhs) _).trans ?_
        refine bind_congr_of_ok rfl fun _ _ => bind_congr_of_ok rfl fun _ _ => ?_
        exact hc.reduceSource he.2 (reduceWith_root hc hE hhost m rhs) _
    | call function args binding =>
        rw [NodesOnly] at he
        dsimp only
        rw [reduceListWith_root hc hE hhost m args he]
        simp only [hc.reduceCall]
    | extension other display function args =>
        rw [NodesOnly] at he
        have hvalues : args.mapM (fun e => E.value e c) = args.mapM (fun e => E.value e c') :=
          mapM_congr fun e hmem => hE e ((he.of_mem hmem).of_reduced id)
        dsimp only
        simp only [hvalues, hhost hc, reduceListWith_root hc hE hhost m args he]
    | sorted selection keys =>
        rw [NodesOnly] at he
        dsimp only
        rw [reduceWith_root hc hE hhost m selection he.1, reduceKeysWith_root hc hE hhost m keys he.2]
    | template parts =>
        rw [NodesOnly] at he
        dsimp only
        rw [reducePartsWith_root hc hE hhost m parts he]
termination_by structural e

theorem reduceListWith_root
    (hc : c.Materializes name c')
    (hE : ∀ e : Expr, e.NodesOnly name .value false → E.value e c = E.value e c')
    (hhost : h.Ignores name) (m : Dependencies) (es : List Expr)
    (he : NodesOnlyOfList name .reduced false es) :
    reduceListWith E h m c es = reduceListWith E h m c' es := by
  match es with
  | [] => rfl
  | e :: es =>
      rw [reduceListWith, reduceListWith, reduceWith_root hc hE hhost m e he.1, reduceListWith_root hc hE hhost m es he.2]
termination_by structural es

theorem reduceOptionWith_root
    (hc : c.Materializes name c')
    (hE : ∀ e : Expr, e.NodesOnly name .value false → E.value e c = E.value e c')
    (hhost : h.Ignores name) (m : Dependencies) (e : Option Expr)
    (he : NodesOnlyOfOption name .reduced e) :
    reduceOptionWith E h m c e = reduceOptionWith E h m c' e := by
  match e with
  | none => rfl
  | some e => rw [reduceOptionWith, reduceOptionWith, reduceWith_root hc hE hhost m e he]
termination_by structural e

theorem reduceKeysWith_root
    (hc : c.Materializes name c')
    (hE : ∀ e : Expr, e.NodesOnly name .value false → E.value e c = E.value e c')
    (hhost : h.Ignores name) (m : Dependencies) (ks : List SortKey)
    (he : NodesOnlyOfKeys name .reduced ks) :
    reduceKeysWith E h m c ks = reduceKeysWith E h m c' ks := by
  match ks with
  | [] => rfl
  | .mk key order dataType caseOrder lang :: ks =>
      obtain ⟨hkey, horder, htype, hcase, hlang, hks⟩ := he
      rw [reduceKeysWith, reduceKeysWith, reduceKeyWith, reduceKeyWith, reduceWith_root hc hE hhost _ key hkey,
        reduceOptionWith_root hc hE hhost m order horder, reduceOptionWith_root hc hE hhost m dataType htype,
        reduceOptionWith_root hc hE hhost m caseOrder hcase, reduceOptionWith_root hc hE hhost m lang hlang,
        reduceKeysWith_root hc hE hhost m ks hks]
termination_by structural ks

theorem reducePartsWith_root
    (hc : c.Materializes name c')
    (hE : ∀ e : Expr, e.NodesOnly name .value false → E.value e c = E.value e c')
    (hhost : h.Ignores name) (m : Dependencies) (ps : List TemplatePart)
    (he : NodesOnlyOfParts name .reduced ps) :
    reducePartsWith E h m c ps = reducePartsWith E h m c' ps := by
  match ps with
  | [] => rfl
  | .text text :: ps =>
      rw [reducePartsWith, reducePartsWith, reducePartWith, reducePartWith,
        reducePartsWith_root hc hE hhost m ps he]
  | .expr e :: ps =>
      rw [reducePartsWith, reducePartsWith, reducePartWith, reducePartWith,
        reduceWith_root hc hE hhost m e he.1, reducePartsWith_root hc hE hhost m ps he.2]
termination_by structural ps

end

/-! ## Calls -/

/-- A function that wants nothing but nodes comes to the same for the same nodes. -/
theorem CallFrame.run_of_nodeSet {f f' : CallFrame} (hf : f.function.takesNodes = true)
    (hfunction : f'.function = f.function) (hforest : f'.forest = f.forest)
    (hargs : f'.args = f.args) (hnodes : f.nodeSet 0 = f'.nodeSet 0) (hfocus : f.focus = f'.focus) :
    f.run = f'.run := by
  have htarget : f.target = f'.target := by
    rw [target, target, hargs, hnodes, hfocus, hforest]
  have hofTarget (g : Node → String) : f.ofTarget g = f'.ofTarget g := by
    rw [ofTarget, ofTarget, htarget]
  unfold run
  rw [hfunction, hforest]
  cases hname : f.function with
  | count => dsimp only; rw [hnodes]
  | sum => dsimp only; rw [sum, sum, hnodes, hforest]
  | localName | namespaceUri | name | generateId => exact hofTarget _
  | _ => simp [hname, Builtin.takesNodes] at hf

/-! ## Evaluation -/

/-- The engine comes to the same in both contexts, as far as the variable stands for its nodes. -/
structure Engine.Rooted (E : Engine) (name : ExpandedName) (c c' : Context) : Prop where
  value : ∀ {e : Expr}, e.NodesOnly name .value false → E.value e c = E.value e c'
  answers : ∀ {e : Expr}, e.NodesOnly name .listed false → E.Answers e c c'
  enumerate : ∀ {e : Expr}, e.NodesOnly name .listed true → E.enumerate e c = E.enumerate e c'
  reference : ∀ display, E.value (.reference name display none) c =
      E.value (.reference name display none) c' ∨
    E.value (.reference name display none) c = c.valueOf name ∧
      E.value (.reference name display none) c' = c'.valueOf name

namespace Engine

theorem rooted_exhausted : Engine.exhausted.Rooted name c c' :=
  ⟨fun _ => rfl, fun _ => answers_exhausted, fun _ => rfl, fun _ => .inl rfl⟩

/-- A predicate that may be a number or not is none that selects nodes. -/
theorem isNodeSetExpression_of_either (h : e.predicateKind = .either) :
    e.isNodeSetExpression = false := by
  match e with
  | contextNode | parentNode | root | attributeNamed .. | .path .. | .filter .. | setOperation ..
  | sorted .. => simp [predicateKind, dataType] at h
  | literal _ | .reference .. | .failure _ | .binary .. | negate _ | nodeComparison .. | call ..
  | extension .. | template _ => rfl

namespace Rooted

section

variable {F : Forest} (hc : c.Materializes name c') (hE : E.Rooted name c c')

include hc hE

theorem alike (he : e.NodesOnly name .value false) : E.Alike e c c' where
  toAnswers := hE.answers (he.of_value id)
  value := hE.value he
  nodes v _ := hc.toNodeSet v

omit hc in
theorem passes (he : e.NodesOnly name .listed false) (hposition : c.position = c'.position) :
    E.passes F e c = E.passes F e c' :=
  passes_congr (hE.answers he).corresponds
    (fun hkind => hE.value (he.value_of_listed (isNodeSetExpression_of_either hkind))) hposition

theorem nodeSet {f : CallFrame} {i : Nat} (he : (f.arg i).NodesOnly name .value true) :
    CallFrame.nodeSet { f with engine := E, context := c } i =
      CallFrame.nodeSet { f with engine := E, context := c' } i := by
  have hsame (hvalue : E.value (f.arg i) c = E.value (f.arg i) c') :
      CallFrame.nodeSet { f with engine := E, context := c } i =
        CallFrame.nodeSet { f with engine := E, context := c' } i := by
    unfold CallFrame.nodeSet CallFrame.value
    dsimp only [CallFrame.arg] at hvalue ⊢
    rw [hvalue]
    simp only [hc.toNodeSet]
  obtain ⟨display, hname⟩ | he := he.of_source
  · obtain hvalue | ⟨hfragment, hroot⟩ := hE.reference display
    · exact hsame (by rw [hname, hvalue])
    · obtain ⟨x, n, hx, hnodes, hn⟩ := hc.root
      rw [← hname, hx] at hfragment
      rw [← hname, hn] at hroot
      unfold CallFrame.nodeSet CallFrame.value
      dsimp only [CallFrame.arg] at hfragment hroot ⊢
      rw [hfragment, hroot]
      exact hnodes
  · exact hsame (hE.value he)

theorem nodeSet_eq (hhost : h.Ignores name) (he : e.NodesOnly name .reduced false) :
    E.nodeSet h e c = E.nodeSet h e c' := by
  unfold Engine.nodeSet
  rw [reduceWith_root hc (fun e he => hE.value he) hhost .all e he]
  simp only [hc.toNodeSet]

theorem call_eq {function : Builtin} {args : List Expr} {binding : CallBinding}
    (he : (call function args binding).NodesOnly name .value false) :
    CallFrame.run ⟨E, F, function, args, binding, c⟩ =
      CallFrame.run ⟨E, F, function, args, binding, c'⟩ := by
  rw [NodesOnly, Use.part, if_neg nofun] at he
  have hfocus : CallFrame.focus ⟨E, F, function, args, binding, c⟩ =
      CallFrame.focus ⟨E, F, function, args, binding, c'⟩ := by
    obtain ⟨bindings, rfl⟩ := hc.rebound
    rfl
  -- an argument that is missing is an empty text
  have harg {u : Use} {source : Bool} (he : NodesOnlyOfList name u source args) (i : Nat) :
      (args[i]?.getD (.string "")).NodesOnly name u source := by
    cases hi : args[i]? with
    | none => trivial
    | some e => exact he.of_mem (List.mem_of_getElem? hi)
  by_cases htakes : function.takesNodes = true
  · have hreads : function.readsValues = true := by
      cases function <;> first | rfl | cases htakes
    rw [if_pos hreads, htakes] at he
    exact CallFrame.run_of_nodeSet htakes rfl rfl rfl
      (hE.nodeSet (f := ⟨E, F, function, args, binding, c⟩) hc (harg he 0)) hfocus
  · rw [Bool.not_eq_true] at htakes
    rw [htakes] at he
    have hlisted : NodesOnlyOfList name .listed false args := by
      split at he
      · exact nodesOnlyOfList_of_forall fun e hmem => (he.of_mem hmem).of_value id
      · exact he
    refine CallFrame.AgreesWith.run (f := ⟨E, F, function, args, binding, c⟩)
      ⟨hc.agreeOn_intrinsic _ _ _, fun i => (hE.answers (harg hlisted i)).corresponds,
        fun e hmem => (hE.answers (hlisted.of_mem hmem)).corresponds, fun hreads i => ?_⟩
    rw [if_pos hreads] at he
    have halike := hE.alike hc (harg he i)
    exact ⟨halike.value, halike.nodes⟩

theorem ruleValue_eq (hhost : h.Ignores name) (he : e.NodesOnly name .value false) :
    E.ruleValue h e c = E.ruleValue h e c' := by
  match e with
  | literal v | .reference other display (some v) | .failure error => rfl
  | .reference other display none => exact hc.others other (he.resolve_left nofun)
  | .binary op lhs rhs =>
      rw [NodesOnly, Use.part, if_neg nofun] at he
      by_cases hop : op.isComparison = true
      · rw [if_pos hop] at he
        exact binary_congr (hE.answers (he.1.of_value id)).corresponds
          (hE.answers (he.2.of_value id)).corresponds fun _ => ⟨hE.value he.1, hE.value he.2⟩
      · rw [if_neg hop] at he
        exact binary_congr (hE.answers he.1).corresponds (hE.answers he.2).corresponds
          fun h => absurd h hop
  | negate e =>
      rw [NodesOnly] at he
      rw [ruleValue, ruleValue, (hE.answers he).number]
  | nodeComparison node op v =>
      rw [NodesOnly] at he
      rw [ruleValue, ruleValue, compareNode_congr (hE.answers he).corresponds]
  | contextNode | parentNode | root | attributeNamed name display parent =>
      rw [ruleValue, ruleValue, hc.oneNode]
  | .path .. | .filter .. | setOperation .. | sorted .. =>
      rw [ruleValue, ruleValue, hE.nodeSet_eq hc hhost (he.reduced_of_value rfl)]
  | call function args binding => exact hE.call_eq hc he
  | extension other display f args =>
      rw [NodesOnly] at he
      have hvalues : args.mapM (fun e => E.value e c) = args.mapM (fun e => E.value e c') :=
        mapM_congr fun e hmem => hE.value (he.of_mem hmem)
      rw [ruleValue, ruleValue, hvalues]
      simp only [hhost hc]
  | template parts =>
      rw [NodesOnly] at he
      rw [ruleValue, ruleValue, texts_congr fun e hp => (hE.answers (he.of_mem hp)).text]

omit hc hE in
theorem text_of_option {a : Option Expr} (hE : E.Rooted name c c')
    (ha : NodesOnlyOfOption name .listed a) (e : Expr) (hsome : a = some e) :
    E.text e c = E.text e c' := by
  subst hsome
  exact (hE.answers ha).text

omit hc in
theorem key {s : SortKey} (hE' : ∀ n k l, E.Rooted name (c.forItem n k l) (c'.forItem n k l))
    (hs : s.key.NodesOnly name .listed false ∧ NodesOnlyOfOption name .listed s.order ∧
      NodesOnlyOfOption name .listed s.dataType ∧ NodesOnlyOfOption name .listed s.caseOrder ∧
      NodesOnlyOfOption name .listed s.lang) : E.KeysCorrespond c E c' s where
  key n k l := ((hE' n k l).answers hs.1).text
  order := hE.text_of_option hs.2.1
  dataType := hE.text_of_option hs.2.2.1
  caseOrder := hE.text_of_option hs.2.2.2.1
  lang := hE.text_of_option hs.2.2.2.2

theorem ruleEnumerate_eq (hE' : ∀ n k l, E.Rooted name (c.forItem n k l) (c'.forItem n k l))
    (hhost : h.Ignores name) (he : e.NodesOnly name .listed true) :
    E.ruleEnumerate h e c = E.ruleEnumerate h e c' := by
  have hother (hshape : e.isNodeSetExpression = false) (he : e.NodesOnly name .listed false) :
      (do (← (← E.ruleValue h e c).toNodeSet c).store h.forest) =
        (do (← (← E.ruleValue h e c').toNodeSet c').store h.forest) := by
    rw [hE.ruleValue_eq hc hhost (he.value_of_listed hshape)]
    simp only [hc.toNodeSet]
  match e with
  | literal (.nodeSet s) => rfl
  | contextNode | parentNode | root | attributeNamed other display parent =>
      rw [ruleEnumerate, ruleEnumerate, hc.oneNode]
  | .path start axis test predicates =>
      rw [NodesOnly] at he
      rw [ruleEnumerate, ruleEnumerate, hE.enumerate he.1]
      simp only [path_congr fun p hp n k l => (hE' n k l).passes (he.2.of_mem hp) rfl]
  | .filter base predicate =>
      rw [NodesOnly] at he
      rw [ruleEnumerate, ruleEnumerate, hE.enumerate he.1]
      simp only [filter_congr fun n k l => (hE' n k l).passes he.2 rfl]
  | setOperation op lhs rhs =>
      rw [NodesOnly] at he
      rw [ruleEnumerate, ruleEnumerate, hE.enumerate he.1, hE.enumerate he.2]
  | sorted selection keys =>
      rw [NodesOnly] at he
      exact sort_congr (hE.enumerate he.1) fun s hs => hE.key hE' (he.2.of_mem hs)
  | .reference other display none =>
      by_cases hother' : other = name
      · obtain ⟨f, n, hf, hnodes, hn⟩ := hc.root
        subst hother'
        show (do (← (← c.valueOf other).toNodeSet c).store h.forest) =
          (do (← (← c'.valueOf other).toNodeSet c').store h.forest)
        rw [hf, hn, ok_bind, ok_bind, hnodes]
        rfl
      · exact hother rfl (.inr hother')
  | literal (.boolean _) | literal (.number _) | literal (.string _) | literal (.fragment _)
  | literal (.object _) | .reference other display (some v) | .binary op lhs rhs | negate e
  | nodeComparison node op v | call function args binding | extension other display f args
  | template parts | .failure error => exact hother rfl he

theorem next (hE' : ∀ n k l, E.Rooted name (c.forItem n k l) (c'.forItem n k l))
    (hhost : h.Ignores name) : (E.next h).Rooted name c c' where
  value he := hE.ruleValue_eq hc hhost he
  answers he := (corresponds_next (hE.ruleEnumerate_eq hc hE' hhost he.to_source) fun hshape =>
    hE.ruleValue_eq hc hhost (he.value_of_listed hshape)).answers
  enumerate he := hE.ruleEnumerate_eq hc hE' hhost he
  reference _ := .inr ⟨rfl, rfl⟩

end

end Rooted

end Engine

/-- All engines of a host come to the same with the fragment and with the root. -/
theorem Host.rooted_engine (hhost : h.Ignores name) (depth : Nat) (hc : c.Materializes name c') :
    (h.engine depth).Rooted name c c' := by
  induction depth generalizing c c' with
  | zero => exact Engine.rooted_exhausted
  | succ depth ih => exact (ih hc).next hc (fun n k l => ih (hc.forItem n k l)) hhost

def Context.bind (c : Context) (name : ExpandedName) (v : Value) : Context :=
  { c with bindings := (name, v) :: c.bindings }

theorem Context.materializes_bind {k : Controller} {f : Fragment} {n : Node}
    (hk : c.controller? = some k) (hn : k.materialize f = .ok n) :
    (c.bind name (.fragment f)).Materializes name (c.bind name (.nodeSet (.singleton n))) where
  rebound := ⟨_, rfl⟩
  others other hother := by
    have hne : (name == other) = false := by simpa using Ne.symm hother
    simp [valueOf, bind, hne]
  root := by
    refine ⟨f, n, by simp [valueOf, bind], ?_, by simp [valueOf, bind]⟩
    simp [Value.toNodeSet, controller, bind, hk, hn]

namespace Expr

/-- A variable with a fragment does for one with the root of its tree: for the value, for the nodes
and the other answers, and for what is left by reduction and its value. -/
theorem fragment_as_root (hhost : h.Ignores name) (hc : c.Materializes name c') :
    (e.NodesOnly name .value false → e.evaluate h c = e.evaluate h c') ∧
    (e.NodesOnly name .listed true → e.enumerate h c = e.enumerate h c') ∧
    (e.NodesOnly name .listed false → (e.engine h).Answers e c c') ∧
    (e.NodesOnly name .reduced false →
      (∀ m, e.reduce h m c = e.reduce h m c') ∧
      (e.reduce h .all c >>= fun e' => e'.evaluate h c) =
        (e.reduce h .all c' >>= fun e' => e'.evaluate h c')) := by
  have hE := Host.rooted_engine hhost (2 * e.size) hc
  refine ⟨fun he => hE.value he, fun he => hE.enumerate he, fun he => hE.answers he, fun he => ?_⟩
  have hreduce (m : Dependencies) := reduceWith_root hc (fun _ he => hE.value he) hhost m e he
  refine ⟨hreduce, bind_congr_of_ok (hreduce .all) fun e' he' => ?_⟩
  -- what is left reads no variable any more
  have hall : Dependencies.all.bit 0 = true := by decide
  exact (Host.rooted_engine hhost _ hc).value
    (nodesOnly_of_disjoint hall (disjoint_of_reduceWith he'))

/-! Two expressions that use `$b` for its nodes, on `<r><x/></r>`. -/

/-- `$b//x[$b | .]` -/
def startedThere : Expr :=
  path (path flag .descendantOrSelf .anyNode []) .child ⟨.element, .named (.unprefixed "x")⟩
    [setOperation .union flag contextNode]

/-- `//x[generate-id($b)]` -/
def identified : Expr := everywhere "x" [call .generateId [flag] .free]

theorem nodesOnly_startedThere {u : Use} :
    startedThere.NodesOnly (.unprefixed "b") u false := by
  cases u <;> simp [startedThere, flag, NodesOnly, NodesOnlyOfList]

theorem nodesOnly_identified : identified.NodesOnly (.unprefixed "b") .listed false := by
  simp [identified, everywhere, flag, NodesOnly, NodesOnlyOfList, Use.nodes, Builtin.takesNodes]

/-- A controller that has the tree of every fragment at the first root. -/
def materializer : Controller := { Controller.bare 1 with materialize := fun _ => .ok ⟨0, 0⟩ }

/-- The root of `<r><x/></r>`, where `$b` has a value. -/
def boundContext (v : Value) : Context :=
  { Context.ofNode ⟨0, 0⟩ with controller? := some materializer }.bind (.unprefixed "b") v

abbrev fragmentContext : Context := boundContext (.fragment (.ofText "a"))

abbrev rootContext : Context := boundContext (.nodeSet (.singleton ⟨0, 0⟩))

theorem materializes_fragmentContext :
    fragmentContext.Materializes (.unprefixed "b") rootContext :=
  Context.materializes_bind rfl rfl

theorem ignores_nestedHost : nestedHost.Ignores name := fun _ _ _ => rfl

theorem fragment_as_root_startedThere :
    startedThere.evaluate nestedHost fragmentContext =
        startedThere.evaluate nestedHost rootContext ∧
      startedThere.reduce nestedHost .all fragmentContext =
        startedThere.reduce nestedHost .all rootContext ∧
      startedThere.select nestedHost rootContext = .ok [⟨0, 2⟩] ∧
      identified.enumerate nestedHost fragmentContext =
        identified.enumerate nestedHost rootContext ∧
      identified.drain nestedHost rootContext = .ok [⟨0, 2⟩] := by
  obtain ⟨hvalue, -, -, hreduced⟩ := fragment_as_root (e := startedThere)
    (@ignores_nestedHost (.unprefixed "b")) materializes_fragmentContext
  obtain ⟨-, hlisted, -⟩ := fragment_as_root (e := identified)
    (@ignores_nestedHost (.unprefixed "b")) materializes_fragmentContext
  exact ⟨hvalue nodesOnly_startedThere, (hreduced nodesOnly_startedThere).1 .all,
    toOption_eq_some.mp (by decide +kernel), hlisted nodesOnly_identified.to_source,
    toOption_eq_some.mp (by decide +kernel)⟩

/-- Reduction of the predicate in `//x[generate-id($b)]` leaves a call of a constant, which is folded
without a controller. -/
theorem not_fragment_as_root : ¬∀ (h : Host) (name : ExpandedName) (e : Expr) (c c' : Context),
    h.Ignores name → c.Materializes name c' → e.NodesOnly name .listed false →
      e.evaluate h c = e.evaluate h c' := by
  intro hsame
  have heq := hsame nestedHost _ identified _ _ ignores_nestedHost materializes_fragmentContext
    nodesOnly_identified
  have hfragment : (identified.evaluate nestedHost fragmentContext).toOption.isSome = false := by cbv
  have hroot : (identified.evaluate nestedHost rootContext).toOption.isSome = true := by cbv
  rw [heq, hroot] at hfragment
  cases hfragment

end Expr

end XPath
