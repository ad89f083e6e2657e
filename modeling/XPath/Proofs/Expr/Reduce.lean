import XPath.Expr.Reduce
import XPath.Proofs.Expr.Simplify

/-!
# Partial evaluation keeps the meaning

A reduced expression means in any context what the expression means in that context with the facets
of the mask taken from the context of the reduction (`Expr.Means.reduceWith`). With the full mask it
means the same in every context.
-/

namespace XPath

variable {F : Forest} {Φ : Calls F} {h : Host} {E : Engine} {Γ Γ' : Typing} {inner : Bool}
  {m : Dependencies} {c σ τ : Context} {e e' : Expr} {A D : Meaning} {n : Node} {v : Value}

/-! ## Facets and nodes -/

theorem Dependencies.facet_intersects {b : Dependencies} {i : Nat}
    (hb : ∀ j, b.bit j = decide (j = i)) : b.intersects m = m.bit i := by
  rw [Bool.eq_iff_iff, intersects_iff]
  simp [hb]

theorem Meaning.rebind_oneNode (find : Node → Option Node) (hm : m.bit 3 = true)
    (hn : τ.contextNode? = some n) :
    (oneNode none find).rebind m τ = fun _ => .nodes (find n).toList := by
  funext σ
  simp [rebind, oneNode, Context.rebind, hm, hn]

/-! ## Calls of the host -/

/-- What the reduction against a mask needs to answer calls of the host on the spot: an engine that
is sound for their arguments, and a mask that was narrowed inside predicates and sort keys. -/
class Calls.Reducible (Φ : Calls h.forest) (E : Engine) (Γ : Typing) (inner : Bool)
    (m : Dependencies) : Prop where
  sound : ∀ {f}, Φ.known f → E.Sound h.forest Φ Γ
  realizes : ∀ {f}, Φ.known f → h.Realizes Φ Γ
  narrowed : ∀ {f}, Φ.known f → m = .all ∨ (inner = true ∧ m = .outer)

instance : (Calls.none h.forest).Reducible E Γ inner m where
  sound hknown := hknown.elim
  realizes hknown := hknown.elim
  narrowed hknown := hknown.elim

/-- Against the whole context calls are answered as a sound engine answers them. -/
theorem Calls.Reducible.ofAll {Φ : Calls h.forest} [h.Realizes Φ Γ]
    (hE : E.Sound h.forest Φ Γ) : Φ.Reducible E Γ inner .all where
  sound _ := hE
  realizes _ := inferInstance
  narrowed _ := .inl rfl

theorem Calls.Reducible.narrow {Φ : Calls h.forest} (hred : Φ.Reducible E Γ inner m) :
    Φ.Reducible E Γ true (m &&& .outer) where
  sound hknown := hred.sound hknown
  realizes hknown := hred.realizes hknown
  narrowed hknown := by
    obtain rfl | ⟨-, rfl⟩ := hred.narrowed hknown
    · exact .inr ⟨rfl, rfl⟩
    · exact .inr ⟨rfl, rfl⟩

namespace Expr

theorem means_ofNode (W : F.WellFormed) {n : Option Node} (hn : ∀ k ∈ n, F.Has k) :
    (ofNode n).Means F Φ Γ inner fun _ => .nodes n.toList := by
  cases n with
  | none => exact means_emptyNodeSet W
  | some n =>
      refine means_literal ⟨.singleton W (hn n rfl), rfl, ?_⟩
      rintro ns ⟨rfl⟩
      exact Forest.ascending_singleton F n

theorem Means.asNodeSource (he : e.Means F Φ Γ inner D)
    (hsource : Expr.asNodeSource c e = .ok e') : e' = e := by
  unfold Expr.asNodeSource at hsource
  split at hsource
  · obtain ⟨w, hw, -⟩ := he.of_literal
    exact hw.means.elim
  · cases hsource
    rfl

/-! ## Calls -/

/-- What a call is reduced to if its function reads the facets `d` of the mask: the one thing that the
function tells, or a call that has captured the context node and the controller. -/
inductive Captures (F : Forest) (c : Context) (args : List Expr) (binding : CallBinding)
    (d : Dependencies) : Builtin → Expr → Prop
  | position (hd : d.bit 4 = true) :
      Captures F c args binding d .position (number (Float.ofNat c.position))
  | last {k : Nat} (hd : d.bit 5 = true) (hk : c.last = .ok k) :
      Captures F c args binding d .last (number (Float.ofNat k))
  | current {n : Node} (hd : d.bit 2 = true) (hn : c.currentNode = .ok n) :
      Captures F c args binding d .current (literal (.nodeSet (.singleton n)))
  | call {function : Builtin} {node : Option Node} {e' : Expr}
      (hposition : function = .position → d.bit 4 = false)
      (hlast : function = .last → d.bit 5 = false) (hcurrent : function = .current → d.bit 2 = false)
      (hnode : if d.bit 3 then ∃ n, node = some n ∧ c.contextNode = .ok n else node = binding.node)
      (he : (Expr.call function args { binding with
          node := node
          controller := if d.bit 6 then .bound c.controller? else binding.controller
          }).simplify F = .ok e') : Captures F c args binding d function e'

theorem captures_reduceCall {function : Builtin} {args : List Expr} {binding : CallBinding}
    (he : reduceCall F m c function args binding = .ok e') :
    Captures F c args binding (intrinsicDependencies function args.length binding &&& m)
      function e' := by
  unfold reduceCall at he
  simp only [Dependencies.contains_position, Dependencies.contains_last,
    Dependencies.contains_currentNode, Dependencies.contains_contextNode,
    Dependencies.contains_controller] at he
  generalize intrinsicDependencies function args.length binding &&& m = d at he ⊢
  split at he
  · cases he
    exact .position (by assumption)
  · obtain ⟨k, hk, he⟩ := bind_eq_ok.mp he
    cases he
    exact .last (by assumption) hk
  · obtain ⟨n, hn, he⟩ := bind_eq_ok.mp he
    cases he
    exact .current (by assumption) hn
  · rename_i hposition hlast hcurrent
    have hposition' := fun hf => Bool.eq_false_iff.mpr (hposition hf)
    have hlast' := fun hf => Bool.eq_false_iff.mpr (hlast hf)
    have hcurrent' := fun hf => Bool.eq_false_iff.mpr (hcurrent hf)
    split at he
    · rename_i hread
      obtain ⟨node, hnode, he⟩ := bind_eq_ok.mp he
      obtain ⟨n, hn, rfl⟩ := map_eq_ok.mp hnode
      exact .call hposition' hlast' hcurrent' (by rw [if_pos hread]; exact ⟨n, rfl, hn⟩) he
    · rename_i hread
      exact .call hposition' hlast' hcurrent' (by rw [if_neg hread]) he

/-- A call that comes to one value wherever the facets of the mask are those of `τ`. -/
theorem means_of_run (W : F.WellFormed) (hτ : τ.Sound F Γ) {function : Builtin}
    {As : List Meaning} {binding : CallBinding} (hbinding : binding.Sound F)
    (hrun : ∀ σ : Context, (Meaning.frame F function (As.map fun A => A (σ.rebind m τ)) binding
      (σ.rebind m τ)).run = .ok v) :
    (literal v).Means F Φ Γ' inner (Meaning.rebind m τ (.call F function As binding)) := by
  have heq : Meaning.rebind m τ (.call F function As binding) = fun _ => v.outcome F := by
    funext σ
    rw [Meaning.rebind, Meaning.call, hrun]
  rw [heq]
  exact means_literal (CallFrame.denotes_run W ⟨rfl, hbinding, hτ.rebind hτ fun _ => rfl⟩ (hrun τ))

/-- A call that has captured what its function reads of the facets of the mask. -/
theorem means_captured (W : F.WellFormed) (hτ : τ.Sound F Γ) (hc : τ.Extends c)
    {function : Builtin} {args : List Expr} {As : List Meaning} {binding : CallBinding}
    {node : Option Node} {d : Dependencies}
    (hd : intrinsicDependencies function As.length binding = d) (hbinding : binding.Sound F)
    (hargs : MeansList F Φ Γ' inner args (As.map (.rebind m τ)))
    (hposition : function = .position → (d &&& m).bit 4 = false)
    (hlast : function = .last → (d &&& m).bit 5 = false)
    (hcurrent : function = .current → (d &&& m).bit 2 = false)
    (hnode : if (d &&& m).bit 3 then ∃ n, node = some n ∧ τ.contextNode? = some n
      else node = binding.node) :
    (call function args { binding with
      node := node
      controller := if (d &&& m).bit 6 then .bound c.controller? else binding.controller
      }).Means F Φ Γ' inner (Meaning.rebind m τ (.call F function As binding)) := by
  have hunread {f : Builtin} {i : Nat} (hf : function ≠ f → d.bit i = false)
      (hsame : function = f → (d &&& m).bit i = false) : (d &&& m).bit i = false := by
    by_cases heq : function = f
    · exact hsame heq
    · rw [Dependencies.bit_and, hf heq, Bool.false_and]
  have hown := Meaning.bit_intrinsic_of_ne function As.length binding
  rw [hd] at hown
  rw [Means]
  refine ⟨⟨fun n hn => ?_, fun k hk => ?_⟩, _, hargs, ?_⟩
  · split at hnode
    · obtain ⟨n', rfl, hn'⟩ := hnode
      cases hn
      exact hτ.contextNode n hn'
    · rw [hnode] at hn
      exact hbinding.node n hn
  · dsimp only at hk
    split at hk
    · exact hτ.controller k (hc.controller ▸ ControllerBinding.bound.inj hk)
    · exact hbinding.controller k hk
  · funext σ
    refine Meaning.call_congr W (Meaning.agree_rebind hd.symm rfl ?_ ?_ ?_ hnode ?_) ?_
    · exact hunread hown.1 hcurrent
    · exact hunread hown.2.1 hposition
    · exact hunread hown.2.2 hlast
    · rw [hc.controller]
    · rw [List.map_map]
      rfl

/-- A reduced call comes to what its function reads of the mask, or has captured it. -/
theorem means_reduceCall (W : F.WellFormed) (hτ : τ.Sound F Γ) (hc : τ.Extends c)
    {function : Builtin} {args : List Expr} {As : List Meaning} {binding : CallBinding}
    (hbinding : binding.Sound F) (hargs : MeansList F Φ Γ' inner args (As.map (.rebind m τ)))
    (he : reduceCall F m c function args binding = .ok e') :
    e'.Means F Φ Γ' inner (Meaning.rebind m τ (.call F function As binding)) := by
  have hlength : args.length = As.length := by rw [hargs.length_eq, List.length_map]
  have hcaptures := captures_reduceCall he
  clear he
  rw [hlength] at hcaptures
  generalize hd : intrinsicDependencies function As.length binding = d at hcaptures
  have hbit {i : Nat} (hi : (d &&& m).bit i = true) : m.bit i = true := by
    rw [Dependencies.bit_and, Bool.and_eq_true] at hi
    exact hi.2
  cases hcaptures with
  | position hread =>
      refine means_of_run W hτ hbinding fun σ => ?_
      have hsame : (σ.rebind m τ).position = c.position := by
        rw [hc.position]
        simp [Context.rebind, hbit hread]
      rw [← hsame]
      rfl
  | @last k hread hk =>
      refine means_of_run W hτ hbinding fun σ => ?_
      have hsame : (σ.rebind m τ).last = .ok k := by
        rw [← hc.refines_last k hk]
        simp [Context.last, Context.rebind, hbit hread]
      exact bind_eq_ok.mpr ⟨k, hsame, rfl⟩
  | @current n hread hn =>
      refine means_of_run W hτ hbinding fun σ => ?_
      have hsame : (σ.rebind m τ).currentNode = .ok n := by
        rw [← hn]
        simp [Context.currentNode, Context.rebind, hbit hread, hc.currentNode]
      exact bind_eq_ok.mpr ⟨n, hsame, rfl⟩
  | call hposition hlast hcurrent hnode he =>
      refine Means.simplify W
        (means_captured W hτ hc hd hbinding hargs hposition hlast hcurrent ?_) he
      split at hnode
      · rename_i hread
        obtain ⟨n, rfl, hn⟩ := hnode
        rw [if_pos hread]
        exact ⟨n, rfl, hc.contextNode ▸ Context.contextNode_eq_ok.mp hn⟩
      · rename_i hread
        rwa [if_neg hread]

/-! ## Reduction -/

theorem isLazy_of_reduceCall {function : Builtin} {args : List Expr}
    {binding : CallBinding} (he : reduceCall F m c function args binding = .ok e') :
    e'.isLazy = false := by
  cases captures_reduceCall he with
  | position | last | current => rfl
  | call _ _ _ _ he => exact isLazy_of_simplify he rfl

theorem isLazy_of_reduceWith (he : e.reduceWith E h m c = .ok e') (hlazy : e.isLazy = false) :
    e'.isLazy = false := by
  unfold reduceWith at he
  split at he
  · cases he
    exact hlazy
  · cases e with
    | path | filter | setOperation | sorted => cases hlazy
    | literal | failure =>
        cases he
        rfl
    | reference name display constant =>
        obtain ⟨v, -, rfl⟩ := map_eq_ok.mp he
        rfl
    | binary op lhs rhs =>
        obtain ⟨lhs, -, he⟩ := bind_eq_ok.mp he
        obtain ⟨rhs, -, he⟩ := bind_eq_ok.mp he
        exact isLazy_of_simplify he rfl
    | negate e | nodeComparison e | template parts =>
        obtain ⟨e, -, he⟩ := bind_eq_ok.mp he
        exact isLazy_of_simplify he rfl
    | contextNode | parentNode | root | attributeNamed name display parent =>
        dsimp only at he
        split at he
        · obtain ⟨n, -, he⟩ := bind_eq_ok.mp he
          cases he
          rfl
        · cases he
          rfl
    | call function args binding =>
        obtain ⟨args, -, he⟩ := bind_eq_ok.mp he
        exact isLazy_of_reduceCall he
    | extension name display function args =>
        dsimp only at he
        split at he
        · obtain ⟨values, -, he⟩ := bind_eq_ok.mp he
          obtain ⟨v, -, he⟩ := bind_eq_ok.mp he
          cases he
          rfl
        · obtain ⟨args, -, he⟩ := bind_eq_ok.mp he
          cases he
          rfl

theorem isSingleton_ofNode (n : Option Node) : (ofNode n).isSingleton = true := by
  cases n <;> rfl

theorem isSingleton_of_reduceWith (he : e.reduceWith E h m c = .ok e')
    (hnode : e.isSingleton = true) : e'.isSingleton = true := by
  unfold reduceWith at he
  split at he
  · cases he
    exact hnode
  · cases e with
    | literal v =>
        cases he
        exact hnode
    | contextNode | parentNode | root =>
        dsimp only at he
        split at he
        · obtain ⟨n, -, he⟩ := bind_eq_ok.mp he
          cases he
          exact isSingleton_ofNode _
        · cases he
          rfl
    | attributeNamed name display parent =>
        dsimp only at he
        split at he
        · obtain ⟨n, -, he⟩ := bind_eq_ok.mp he
          cases he
          rfl
        · cases he
          rfl
    | _ => cases hnode

/-- An expression that reads the context node alone reads it from the context of the reduction. -/
theorem reduce_contextNode {f : Node → Expr} (hm : m.bit 3 = true) (hτ : τ.Sound F Γ)
    (hc : τ.Extends c)
    (he : (if m.contains .contextNode then do return f (← c.contextNode) else .ok e) = .ok e') :
    ∃ n, F.Has n ∧ τ.contextNode? = some n ∧ e' = f n := by
  rw [if_pos (by rwa [Dependencies.contains_contextNode])] at he
  obtain ⟨n, hn, he⟩ := bind_eq_ok.mp he
  cases he
  have hnode := hc.contextNode ▸ Context.contextNode_eq_ok.mp hn
  exact ⟨n, hτ.contextNode n hnode, hnode, rfl⟩

theorem Lists.rebind {A : Meaning} (h : e.Lists F Γ A) (hτ : τ.Sound F Γ)
    (hΓ : m.bit 0 = false → Γ' = Γ) : e.Lists F Γ' (A.rebind m τ) :=
  fun hlazy _ hσ => h hlazy _ (hσ.rebind hτ hΓ)

theorem lazy_of_reduceWith (he : e.reduceWith E h m c = .ok e') (hlazy : e'.isLazy = true) :
    e.isLazy = true := by
  by_contra hnot
  rw [isLazy_of_reduceWith he (Bool.eq_false_iff.mpr hnot)] at hlazy
  cases hlazy

theorem lazy_of_reduceListWith {es es' : List Expr} (he : reduceListWith E h m c es = .ok es') :
    List.Forall₂ (fun e' e => e'.isLazy = true → e.isLazy = true) es' es := by
  induction es generalizing es' with
  | nil =>
      cases he
      exact .nil
  | cons e es ih =>
      obtain ⟨e', he', he⟩ := bind_eq_ok.mp he
      obtain ⟨es', hes', he⟩ := bind_eq_ok.mp he
      cases he
      exact .cons (lazy_of_reduceWith he') (ih hes')

theorem reduceKeysWith_cons {key : Expr} {order dataType caseOrder lang : Option Expr}
    {ks ks' : List SortKey}
    (he : reduceKeysWith E h m c (.mk key order dataType caseOrder lang :: ks) = .ok ks') :
    ∃ key' order' dataType' caseOrder' lang' rest, key.reduceWith E h (m &&& .outer) c = .ok key' ∧
      reduceOptionWith E h m c order = .ok order' ∧
        reduceOptionWith E h m c dataType = .ok dataType' ∧
          reduceOptionWith E h m c caseOrder = .ok caseOrder' ∧
            reduceOptionWith E h m c lang = .ok lang' ∧ reduceKeysWith E h m c ks = .ok rest ∧
              ks' = .mk key' order' dataType' caseOrder' lang' :: rest := by
  obtain ⟨k', hk', he⟩ := bind_eq_ok.mp he
  obtain ⟨rest, hrest, he⟩ := bind_eq_ok.mp he
  cases he
  rw [reduceKeyWith] at hk'
  simp only [bind_eq_ok, pure_eq_ok] at hk'
  obtain ⟨key', hkey, order', horder, dataType', htype, caseOrder', hcase, lang', hlang, rfl⟩ := hk'
  exact ⟨key', order', dataType', caseOrder', lang', rest, hkey, horder, htype, hcase, hlang, hrest,
    rfl⟩

/-- A call of the host is answered on the spot if the function reads facets of the mask; otherwise
its arguments are reduced. -/
theorem means_reduceExtension {Φ : Calls h.forest} [hred : Φ.Reducible E Γ inner m]
    (hτ : τ.Sound h.forest Γ) (hc : τ.Extends c) (hΓ : m.bit 0 = false → Γ' = Γ)
    {name : ExpandedName} {display : String} {function : ExtensionFunction} {args : List Expr}
    (hD : (extension name display function args).Means h.forest Φ Γ inner D)
    (hargs : ∀ {As args'}, MeansList h.forest Φ Γ inner args As →
      reduceListWith E h m c args = .ok args' →
        MeansList h.forest Φ Γ' inner args' (As.map (.rebind m τ)))
    (he : (if function.dependencies.intersects m then do
        let values ← args.mapM fun e => E.value e c
        return literal (← h.apply function.identity values c)
      else do return extension name display function (← reduceListWith E h m c args)) = .ok e') :
    e'.Means h.forest Φ Γ' inner (D.rebind m τ) := by
  rw [Means] at hD
  obtain ⟨hknown, hsettled, As, hAs, hlists, hD⟩ := hD
  split at he
  · rename_i hreads
    obtain ⟨vs, hvs, he⟩ := bind_eq_ok.mp he
    obtain ⟨v, hv, he⟩ := bind_eq_ok.mp he
    cases he
    have hsame : D.rebind m τ = fun _ => D τ := by
      funext σ
      obtain rfl | ⟨rfl, rfl⟩ := hred.narrowed hknown
      · rw [Meaning.rebind, Context.rebind_all]
      · rcases hsettled rfl with hunread | hsame
        · rw [hunread] at hreads
          cases hreads
        · exact hsame σ τ
    have := hred.realizes hknown
    rw [hsame, hD]
    exact means_literal ((hred.sound hknown).extension hknown hAs hlists hc hτ hvs hv)
  · rename_i hunread
    obtain ⟨args', hargs', he⟩ := bind_eq_ok.mp he
    cases he
    rw [Means]
    refine ⟨hknown, fun hinner => (hsettled hinner).rebind, _, hargs hAs hargs',
      ?_, ?_⟩
    · have hlists' := lists_of_lazy (lazy_of_reduceListWith hargs') hlists
      exact List.forall₂_map_right_iff.mpr (hlists'.imp fun e A h => h.rebind hτ hΓ)
    · funext σ
      rw [hD, List.map_map]
      exact (Φ.answers hknown).reads m _ σ τ (Bool.eq_false_iff.mpr hunread)

mutual

/-- A reduced expression means what the expression means where the facets of the mask are those of
`τ`. The variables that it still reads keep their types. -/
theorem Means.reduceWith {inner : Bool} {e e' : Expr} {m : Dependencies} {D : Meaning}
    {Φ : Calls h.forest} [hred : Φ.Reducible E Γ inner m] (W : h.forest.WellFormed)
    (hτ : τ.Sound h.forest Γ) (hc : τ.Extends c) (hΓ : m.bit 0 = false → Γ' = Γ)
    (hD : e.Means h.forest Φ Γ inner D)
    (he : e.reduceWith E h m c = .ok e') : e'.Means h.forest Φ Γ' inner (D.rebind m τ) := by
  unfold Expr.reduceWith at he
  split at he
  · rename_i hm
    rw [Bool.not_eq_true'] at hm
    cases he
    rw [hD.rebind_eq W hm]
    exact hD.retype W hτ hΓ hm
  · rename_i hm
    rw [Bool.not_eq_true', Bool.not_eq_false] at hm
    have houter (h0 : (m &&& .outer).bit 0 = false) : Γ' = Γ := hΓ (by simpa using h0)
    have hnarrow := hred.narrow
    match e with
    | literal v | failure error =>
        rw [dependencies, Dependencies.intersects_iff] at hm
        simp at hm
    | reference name display (some v) =>
        rw [dependencies, Dependencies.intersects_iff] at hm
        simp at hm
    | attributeNamed name display (some n) =>
        rw [dependencies, Dependencies.intersects_iff] at hm
        simp at hm
    | reference name display none =>
        rw [dependencies, Dependencies.facet_intersects Dependencies.bit_variableValues] at hm
        obtain ⟨v, hv, rfl⟩ := map_eq_ok.mp he
        rw [Means] at hD
        obtain ⟨htyped, rfl⟩ := hD
        obtain ⟨t, ht⟩ := Option.isSome_iff_exists.mp htyped
        have hvalue : τ.valueOf name = .ok v := by
          rw [← hv, Context.valueOf, Context.valueOf, hc.bindings]
        have heq : Meaning.rebind m τ (.binding h.forest name) = fun _ => v.outcome h.forest := by
          funext σ
          have hsame : (σ.rebind m τ).valueOf name = .ok v := by
            rw [← hvalue]
            simp [Context.valueOf, Context.rebind, hm]
          rw [Meaning.rebind, Meaning.binding, hsame]
        rw [heq]
        exact means_literal (Value.Sound.denotes W (hτ.bindings name t v ht hvalue).1)
    | binary op lhs rhs =>
        obtain ⟨lhs', hlhs, he⟩ := bind_eq_ok.mp he
        obtain ⟨rhs', hrhs, he⟩ := bind_eq_ok.mp he
        rw [Means] at hD
        obtain ⟨A, B, hA, hB, hcompares, rfl⟩ := hD
        refine Means.simplify W ?_ he
        rw [Means]
        refine ⟨A.rebind m τ, B.rebind m τ, hA.reduceWith W hτ hc hΓ hlhs,
          hB.reduceWith W hτ hc hΓ hrhs, fun hop hlazy σ hσ => ?_, rfl⟩
        exact hcompares hop (lazy_of_reduceWith hrhs hlazy) _ (hσ.rebind hτ hΓ)
    | negate e =>
        obtain ⟨e', hred, he⟩ := bind_eq_ok.mp he
        rw [Means] at hD
        obtain ⟨A, hA, rfl⟩ := hD
        refine Means.simplify W ?_ he
        rw [Means]
        exact ⟨A.rebind m τ, hA.reduceWith W hτ hc hΓ hred, rfl⟩
    | nodeComparison node op v =>
        obtain ⟨node', hred, he⟩ := bind_eq_ok.mp he
        rw [Means] at hD
        obtain ⟨hnode, hv, A, hA, rfl⟩ := hD
        refine Means.simplify W ?_ he
        rw [Means]
        exact ⟨isSingleton_of_reduceWith hred hnode, hv, A.rebind m τ,
          hA.reduceWith W hτ hc hΓ hred, rfl⟩
    | contextNode =>
        rw [dependencies, Dependencies.facet_intersects Dependencies.bit_contextNode] at hm
        obtain ⟨n, hn, hτn, rfl⟩ := reduce_contextNode hm hτ hc he
        rw [Means] at hD
        rw [hD, Meaning.rebind_oneNode _ hm hτn]
        exact means_ofNode W (by rintro k ⟨rfl⟩; exact hn)
    | parentNode =>
        rw [dependencies, Dependencies.facet_intersects Dependencies.bit_contextNode] at hm
        obtain ⟨n, hn, hτn, rfl⟩ := reduce_contextNode hm hτ hc he
        rw [Means] at hD
        rw [hD, Meaning.rebind_oneNode _ hm hτn]
        exact means_ofNode W fun k hk => W.linked.has_parent hk
    | root =>
        rw [dependencies, Dependencies.facet_intersects Dependencies.bit_contextNode] at hm
        obtain ⟨n, hn, hτn, rfl⟩ := reduce_contextNode hm hτ hc he
        rw [Means] at hD
        rw [hD, Meaning.rebind_oneNode _ hm hτn]
        exact means_ofNode W (by rintro k ⟨rfl⟩; exact W.linked.has_documentRoot hn)
    | attributeNamed name display none =>
        rw [dependencies, Dependencies.facet_intersects Dependencies.bit_contextNode] at hm
        obtain ⟨n, hn, hτn, rfl⟩ := reduce_contextNode hm hτ hc he
        rw [Means] at hD
        rw [hD.2, Meaning.rebind_oneNode _ hm hτn, Means]
        exact ⟨by rintro k ⟨rfl⟩; exact hn, rfl⟩
    | path start axis test predicates =>
        obtain ⟨start', hstart, he⟩ := bind_eq_ok.mp he
        obtain ⟨start'', hsource, he⟩ := bind_eq_ok.mp he
        obtain ⟨predicates', hpredicates, he⟩ := bind_eq_ok.mp he
        rw [Means] at hD
        obtain ⟨hfits, A, Bs, hA, hBs, rfl⟩ := hD
        have hA' := hA.reduceWith W hτ hc hΓ hstart
        rw [hA'.asNodeSource hsource] at he
        rw [Meaning.path_rebind]
        refine Means.simplify W ?_ he
        rw [Means]
        exact ⟨hfits, _, _, hA', MeansList.reduceListWith W hτ hc houter hBs hpredicates, rfl⟩
    | filter base predicate =>
        obtain ⟨base', hbase, he⟩ := bind_eq_ok.mp he
        obtain ⟨base'', hsource, he⟩ := bind_eq_ok.mp he
        obtain ⟨predicate', hpredicate, he⟩ := bind_eq_ok.mp he
        rw [Means] at hD
        obtain ⟨A, B, hA, hB, rfl⟩ := hD
        have hA' := hA.reduceWith W hτ hc hΓ hbase
        rw [hA'.asNodeSource hsource] at he
        rw [Meaning.filter_rebind]
        refine Means.simplify W ?_ he
        rw [Means]
        exact ⟨_, _, hA', hB.reduceWith W hτ hc houter hpredicate, rfl⟩
    | setOperation op lhs rhs =>
        obtain ⟨lhs', hlhs, he⟩ := bind_eq_ok.mp he
        obtain ⟨lhs'', hleft, he⟩ := bind_eq_ok.mp he
        obtain ⟨rhs', hrhs, he⟩ := bind_eq_ok.mp he
        obtain ⟨rhs'', hright, he⟩ := bind_eq_ok.mp he
        rw [Means] at hD
        obtain ⟨A, B, hA, hB, rfl⟩ := hD
        have hA' := hA.reduceWith W hτ hc hΓ hlhs
        have hB' := hB.reduceWith W hτ hc hΓ hrhs
        rw [hA'.asNodeSource hleft, hB'.asNodeSource hright] at he
        refine Means.simplify W ?_ he
        rw [Means]
        exact ⟨A.rebind m τ, B.rebind m τ, hA', hB', rfl⟩
    | call function args binding =>
        obtain ⟨args', hargs, he⟩ := bind_eq_ok.mp he
        rw [Means] at hD
        obtain ⟨hbinding, As, hAs, rfl⟩ := hD
        exact means_reduceCall W hτ hc hbinding (MeansList.reduceListWith W hτ hc hΓ hAs hargs) he
    | extension name display function args =>
        exact means_reduceExtension hτ hc hΓ hD
          (fun hAs hargs => MeansList.reduceListWith W hτ hc hΓ hAs hargs) he
    | sorted selection keys =>
        obtain ⟨selection', hselection, he⟩ := bind_eq_ok.mp he
        obtain ⟨keys', hkeys, he⟩ := bind_eq_ok.mp he
        rw [Means] at hD
        obtain ⟨hselect, Ks, hKs⟩ := hD
        refine Means.simplify W ?_ he
        rw [Means]
        exact ⟨hselect.reduceWith W hτ hc hΓ hselection, _,
          MeansKeys.reduceKeysWith W hτ hc hΓ hKs hkeys⟩
    | template parts =>
        obtain ⟨parts', hparts, he⟩ := bind_eq_ok.mp he
        rw [Means] at hD
        obtain ⟨As, hAs, rfl⟩ := hD
        have heq : Meaning.rebind m τ (.template h.forest As) =
            .template h.forest (As.map (.rebind m τ)) := by
          funext σ
          simp only [Meaning.rebind, Meaning.template, List.map_map]
          rfl
        rw [heq]
        refine Means.simplify W ?_ he
        rw [Means]
        exact ⟨_, MeansParts.reducePartsWith W hτ hc hΓ hAs hparts, rfl⟩
termination_by structural e

theorem MeansList.reduceListWith {inner : Bool} {es es' : List Expr} {m : Dependencies}
    {Ds : List Meaning} {Φ : Calls h.forest} [Φ.Reducible E Γ inner m]
    (W : h.forest.WellFormed) (hτ : τ.Sound h.forest Γ) (hc : τ.Extends c)
    (hΓ : m.bit 0 = false → Γ' = Γ) (hDs : MeansList h.forest Φ Γ inner es Ds)
    (he : Expr.reduceListWith E h m c es = .ok es') :
    MeansList h.forest Φ Γ' inner es' (Ds.map (.rebind m τ)) := by
  match es with
  | [] =>
      cases he
      rw [MeansList] at hDs ⊢
      rw [hDs, List.map_nil]
  | e :: es =>
      obtain ⟨e', he', he⟩ := bind_eq_ok.mp he
      obtain ⟨es', hes', he⟩ := bind_eq_ok.mp he
      cases he
      rw [MeansList] at hDs ⊢
      obtain ⟨D, Ds, hD, hDs, rfl⟩ := hDs
      exact ⟨_, _, hD.reduceWith W hτ hc hΓ he', MeansList.reduceListWith W hτ hc hΓ hDs hes',
        List.map_cons⟩
termination_by structural es

theorem MeansOption.reduceOptionWith {inner : Bool} {e e' : Option Expr} {m : Dependencies}
    {D : Option Meaning} {Φ : Calls h.forest} [Φ.Reducible E Γ inner m]
    (W : h.forest.WellFormed) (hτ : τ.Sound h.forest Γ) (hc : τ.Extends c)
    (hΓ : m.bit 0 = false → Γ' = Γ) (hD : MeansOption h.forest Φ Γ inner e D)
    (he : Expr.reduceOptionWith E h m c e = .ok e') :
    MeansOption h.forest Φ Γ' inner e' (D.map (.rebind m τ)) := by
  match e with
  | none =>
      cases he
      rw [MeansOption] at hD ⊢
      rw [hD, Option.map_none]
  | some e =>
      obtain ⟨e', he', he⟩ := bind_eq_ok.mp he
      cases he
      rw [MeansOption] at hD ⊢
      obtain ⟨D, hD, rfl⟩ := hD
      exact ⟨_, hD.reduceWith W hτ hc hΓ he', rfl⟩
termination_by structural e

theorem MeansKeys.reduceKeysWith {inner : Bool} {ks ks' : List SortKey} {m : Dependencies}
    {Ks : List KeyMeaning} {Φ : Calls h.forest} [hred : Φ.Reducible E Γ inner m]
    (W : h.forest.WellFormed) (hτ : τ.Sound h.forest Γ)
    (hc : τ.Extends c) (hΓ : m.bit 0 = false → Γ' = Γ) (hKs : MeansKeys h.forest Φ Γ inner ks Ks)
    (he : Expr.reduceKeysWith E h m c ks = .ok ks') :
    MeansKeys h.forest Φ Γ' inner ks' (Ks.map (.rebind m τ)) := by
  match ks with
  | [] =>
      cases he
      rw [MeansKeys] at hKs ⊢
      rw [hKs, List.map_nil]
  | .mk key order dataType caseOrder lang :: ks =>
      have houter (h0 : (m &&& .outer).bit 0 = false) : Γ' = Γ := hΓ (by simpa using h0)
      have hnarrow := hred.narrow
      obtain ⟨key', order', dataType', caseOrder', lang', ks', hkey, horder, htype, hcase, hlang,
        hks', rfl⟩ := reduceKeysWith_cons he
      rw [MeansKeys] at hKs ⊢
      obtain ⟨K, Ks, hK, hKs, rfl⟩ := hKs
      refine ⟨K.rebind m τ, _, ?_, MeansKeys.reduceKeysWith W hτ hc hΓ hKs hks', List.map_cons⟩
      rw [MeansKey] at hK ⊢
      exact ⟨hK.1.reduceWith W hτ hc houter hkey,
        MeansOption.reduceOptionWith W hτ hc hΓ hK.2.1 horder,
        MeansOption.reduceOptionWith W hτ hc hΓ hK.2.2.1 htype,
        MeansOption.reduceOptionWith W hτ hc hΓ hK.2.2.2.1 hcase,
        MeansOption.reduceOptionWith W hτ hc hΓ hK.2.2.2.2 hlang⟩
termination_by structural ks

theorem MeansParts.reducePartsWith {inner : Bool} {ps ps' : List TemplatePart} {m : Dependencies}
    {Ds : List Meaning} {Φ : Calls h.forest} [Φ.Reducible E Γ inner m]
    (W : h.forest.WellFormed) (hτ : τ.Sound h.forest Γ) (hc : τ.Extends c)
    (hΓ : m.bit 0 = false → Γ' = Γ) (hDs : MeansParts h.forest Φ Γ inner ps Ds)
    (he : Expr.reducePartsWith E h m c ps = .ok ps') :
    MeansParts h.forest Φ Γ' inner ps' (Ds.map (.rebind m τ)) := by
  match ps with
  | [] =>
      cases he
      rw [MeansParts] at hDs ⊢
      rw [hDs, List.map_nil]
  | .text text :: ps =>
      obtain ⟨p', hp', he⟩ := bind_eq_ok.mp he
      obtain ⟨ps', hps', he⟩ := bind_eq_ok.mp he
      cases hp'
      cases he
      rw [MeansParts] at hDs ⊢
      obtain ⟨D, Ds, hD, hDs, rfl⟩ := hDs
      refine ⟨D.rebind m τ, _, ?_, MeansParts.reducePartsWith W hτ hc hΓ hDs hps', List.map_cons⟩
      rw [MeansPart] at hD ⊢
      rw [hD, Meaning.rebind_const]
  | .expr e :: ps =>
      obtain ⟨p', hp', he⟩ := bind_eq_ok.mp he
      obtain ⟨ps', hps', he⟩ := bind_eq_ok.mp he
      cases he
      obtain ⟨e', he', hp'⟩ := bind_eq_ok.mp hp'
      cases hp'
      rw [MeansParts] at hDs ⊢
      obtain ⟨D, Ds, hD, hDs, rfl⟩ := hDs
      refine ⟨D.rebind m τ, _, ?_, MeansParts.reducePartsWith W hτ hc hΓ hDs hps', List.map_cons⟩
      rw [MeansPart] at hD ⊢
      exact hD.reduceWith W hτ hc hΓ he'
termination_by structural ps

end

end Expr

end XPath
