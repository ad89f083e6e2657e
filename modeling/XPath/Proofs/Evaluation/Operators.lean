import XPath.Proofs.Evaluation.Predicate

/-!
# Operators, comparisons of one node and calls

What a sound engine makes of the parts of an expression is what the meaning of the expression says.
The engine of constants is sound.
-/

namespace XPath

variable {F : Forest} {Φ : Calls F} {E : Engine} {Γ : Typing} {inner : Bool}
  {e node lhs rhs : Expr} {A B D : Meaning} {c σ : Context} {v : Value} {w : Outcome}
  {op : BinaryOperator}

/-! ## Nodes and a constant -/

/-- Nodes are compared with a string each by its own string value, or by order as numbers. -/
theorem compare_nodes_string (op : BinaryOperator) (ns : List Node) (s : String) :
    (Outcome.nodes ns).compare F op (.string s) = ns.any fun n =>
      match op with
      | .equals => F.stringValue n == s
      | .notEquals => F.stringValue n != s
      | op => op.compareNumbers (Number.ofText (F.stringValue n)) (Number.ofText s) := by
  cases op <;> simp [Outcome.compare, Outcome.value, Value.compare, Value.equals,
    Value.nodeSetEquals, Value.compareNodeSet, Value.toText, Value.toNumber, bne]

theorem compare_nodes_number (op : BinaryOperator) (ns : List Node) (x : Float) :
    (Outcome.nodes ns).compare F op (.number x) = ns.any fun n =>
      op.compareNumbers (Number.ofText (F.stringValue n)) x := by
  cases op <;> simp [Outcome.compare, Outcome.value, Value.compare, Value.equals,
    Value.nodeSetEquals, Value.compareNodeSet, Value.toNumber, BinaryOperator.compareNumbers, bne]

/-! ## Constants -/

namespace Value.Denotes

variable {v' : Value}

theorem ofConstant (W : F.WellFormed) (h : v.Denotes F w) (hv : v.ofConstant F = .ok v') :
    v'.Means F w ∧ w.dataType = v'.dataType := by
  cases v with
  | nodeSet s =>
      obtain ⟨s', hs', rfl⟩ := map_eq_ok.mp hv
      exact ⟨NodeSet.Means.sorted W h.means hs', h.type⟩
  | fragment f => exact h.means.elim
  | boolean | number | string | object =>
      cases hv
      exact ⟨h.means, h.type⟩

theorem enumerate (W : F.WellFormed) (h : v.Denotes F w) {en : Enumeration}
    (hen : v.enumerate F c = .ok en) : ∃ ns, w = .nodes ns ∧ en.Lists F ns ∧ en.sorted = true := by
  cases v with
  | nodeSet s => exact NodeSet.Means.enumerate W h.means hen
  | fragment f => exact h.means.elim
  | boolean | number | string | object => cases hen

end Value.Denotes

namespace Engine

theorem sound_constants (W : F.WellFormed) : (constants F).Sound F Φ Γ where
  value {inner e D c σ v} h _ _ hv := by
    cases e with
    | literal u =>
        rw [Expr.Means] at h
        obtain ⟨w, hw, rfl⟩ := h
        obtain ⟨hmeans, htype⟩ := hw.ofConstant W hv
        exact ⟨hmeans, fun _ => htype⟩
    | _ => cases hv
  truth {inner e D c σ b} h _ _ hb := by
    cases e with
    | literal u =>
        rw [Expr.Means] at h
        obtain ⟨w, hw, rfl⟩ := h
        obtain ⟨v, hv, hb⟩ := bind_eq_ok.mp hb
        exact ⟨(hw.ofConstant W hv).1.toBool W hb, fun _ => hw.type⟩
    | _ => cases hb
  number {inner e D c σ x} h _ _ hx := by
    cases e with
    | literal u =>
        rw [Expr.Means] at h
        obtain ⟨w, hw, rfl⟩ := h
        obtain ⟨v, hv, hx⟩ := bind_eq_ok.mp hx
        exact ⟨(hw.ofConstant W hv).1.toNumber W hx, fun _ => hw.type⟩
    | _ => cases hx
  text {inner e D c σ t} h _ _ ht := by
    cases e with
    | literal u =>
        rw [Expr.Means] at h
        obtain ⟨w, hw, rfl⟩ := h
        obtain ⟨v, hv, ht⟩ := bind_eq_ok.mp ht
        exact (hw.ofConstant W hv).1.toText W ht
    | _ => cases ht
  first {inner e D c σ n} h _ _ hn := by
    cases e with
    | literal u =>
        rw [Expr.Means] at h
        obtain ⟨w, hw, rfl⟩ := h
        obtain ⟨en, hen, hn⟩ := bind_eq_ok.mp hn
        obtain ⟨ns, hns, hlists, -⟩ := hw.enumerate W hen
        exact ⟨ns, hns, hlists.first? hn⟩
    | _ => cases hn
  enumerate {inner e D c σ en} h _ _ hen := by
    cases e with
    | literal u =>
        rw [Expr.Means] at h
        obtain ⟨w, hw, rfl⟩ := h
        obtain ⟨ns, hns, hlists, hsorted⟩ := hw.enumerate W hen
        exact ⟨ns, hns, hlists, fun _ => hsorted⟩
    | _ => cases hen

@[simp] theorem value_constants (w : Outcome) :
    (constants F).value (.literal w.value) c = .ok w.value := by
  cases w with
  | nodes ns =>
      change (NodeSet.sorted F (.ofNodes ns true)).map Value.nodeSet = _
      rw [sorted_value]
      rfl
  | boolean | number | string | object => rfl

theorem ofConstant_value (w : Outcome) : w.value.ofConstant F = .ok w.value :=
  @value_constants F .standalone w

@[simp] theorem text_constants (w : Outcome) :
    (constants F).text (.literal w.value) c = .ok (w.text F) :=
  bind_eq_ok.mpr ⟨w.value, ofConstant_value w, toText_value w⟩

@[simp] theorem number_constants (w : Outcome) :
    (constants F).number (.literal w.value) c = .ok (w.toNumber F) :=
  bind_eq_ok.mpr ⟨w.value, ofConstant_value w, toNumber_value w⟩

@[simp] theorem truth_constants (w : Outcome) :
    (constants F).truth (.literal w.value) c = .ok w.holds :=
  bind_eq_ok.mpr ⟨w.value, ofConstant_value w, toBool_value w⟩

namespace Sound

/-! ## The parts of calls -/

/-- An argument of a call means what the call of outcomes has in its place. -/
theorem means_arg {function : Builtin} {args : List Expr} {As : List Meaning}
    {binding : CallBinding} (hAs : Expr.MeansList F Φ Γ inner args As) (i : Nat) (σ : Context) :
    ∃ D : Meaning, (CallFrame.arg ⟨E, F, function, args, binding, c⟩ i).Means F Φ Γ inner D ∧
      (Meaning.frame F function (As.map fun A => A σ) binding σ).arg i =
        .literal (D σ).value := by
  unfold CallFrame.arg Meaning.frame
  induction args generalizing As i with
  | nil =>
      rw [Expr.MeansList] at hAs
      rw [hAs]
      refine ⟨fun _ => .string "", ?_, rfl⟩
      have hempty : (Value.string "").Denotes F (.string "") := ⟨rfl, rfl, by rintro ns ⟨⟩⟩
      rw [List.getElem?_nil, Option.getD_none, Expr.string, Expr.Means]
      exact ⟨_, hempty, rfl⟩
  | cons e args ih =>
      rw [Expr.MeansList] at hAs
      obtain ⟨D, As, hD, hAs, rfl⟩ := hAs
      cases i with
      | zero => exact ⟨D, hD, rfl⟩
      | succ i => exact ih hAs i

variable (hE : E.Sound F Φ Γ)

include hE

/-- The comparison of the one node of an expression with a constant. -/
theorem compareNode (hA : node.Means F Φ Γ inner A) (hnode : node.isSingleton = true)
    (hv : v.dataType = .string ∨ v.dataType = .number) (hc : σ.Extends c) (hσ : σ.Sound F Γ)
    {b : Bool} (hb : E.compareNode F node op v c = .ok b) :
    b = (A σ).compare F op (v.outcome F) := by
  obtain ⟨first, hfirst, hb⟩ := bind_eq_ok.mp hb
  obtain ⟨ns, hns, rfl⟩ := hE.first hA hc hσ hfirst
  obtain ⟨n, hn⟩ := hA.of_isSingleton hnode (σ := σ)
  rw [hns] at hn
  cases hn
  rw [hns]
  cases v with
  | string s =>
      rw [Value.outcome, compare_nodes_string]
      cases n with
      | none =>
          cases hb
          rfl
      | some n =>
          cases op <;> cases hb <;> simp
  | number x =>
      rw [Value.outcome, compare_nodes_number]
      cases n with
      | none =>
          cases hb
          rfl
      | some n =>
          cases hb
          simp
  | boolean | nodeSet | fragment | object => simp [Value.dataType] at hv

theorem texts {args : List Expr} {As : List Meaning} (hAs : Expr.MeansList F Φ Γ inner args As)
    (hc : σ.Extends c) (hσ : σ.Sound F Γ) {ts : List String}
    (hts : args.mapM (fun e => E.text e c) = .ok ts) : ts = As.map fun A => (A σ).text F := by
  induction args generalizing As ts with
  | nil =>
      rw [Expr.MeansList] at hAs
      rw [List.mapM_nil, pure_eq_ok] at hts
      rw [hAs, ← hts]
      rfl
  | cons e args ih =>
      rw [Expr.MeansList] at hAs
      obtain ⟨D, As, hD, hAs, rfl⟩ := hAs
      simp only [List.mapM_cons, bind_eq_ok, pure_eq_ok] at hts
      obtain ⟨t, ht, ts, hts, rfl⟩ := hts
      rw [List.map_cons, ← hE.text hD hc hσ ht, ← ih hAs hts]

/-- A call evaluated by a sound engine follows the call of the outcomes of its arguments. -/
theorem follows {function : Builtin} {args : List Expr} {As : List Meaning}
    {binding : CallBinding} (hAs : Expr.MeansList F Φ Γ inner args As) (hc : σ.Extends c)
    (hσ : σ.Sound F Γ) : CallFrame.Follows F ⟨E, F, function, args, binding, c⟩
      (Meaning.frame F function (As.map fun A => A σ) binding σ) where
  forest := rfl
  forest' := rfl
  function := rfl
  count := by simp [Meaning.frame, hAs.length_eq]
  scope := rfl
  currentNode _ := by
    unfold Context.currentNode Meaning.frame
    rw [hc.currentNode]
  focus _ := by
    unfold CallFrame.focus Context.contextNode Meaning.frame
    rw [hc.contextNode]
  position _ := hc.position
  last _ := hc.refines_last
  controller? _ := by
    unfold CallFrame.controller? Meaning.frame
    rw [hc.controller]
  text i t ht := by
    obtain ⟨D, hD, harg⟩ := means_arg (E := E) hAs i σ
    rw [CallFrame.text, harg, hE.text hD hc hσ ht]
    exact text_constants _
  number i x hx := by
    obtain ⟨D, hD, harg⟩ := means_arg (E := E) hAs i σ
    rw [CallFrame.number, harg, (hE.number hD hc hσ hx).1]
    exact number_constants _
  truth i b hb := by
    obtain ⟨D, hD, harg⟩ := means_arg (E := E) hAs i σ
    rw [CallFrame.truth, harg, (hE.truth hD hc hσ hb).1]
    exact truth_constants _
  value i v hv := by
    obtain ⟨D, hD, harg⟩ := means_arg (E := E) hAs i σ
    refine ⟨D σ, Or.inl (hE.value hD hc hσ hv).1, ?_⟩
    rw [CallFrame.value, harg]
    exact value_constants _
  texts ts hts := by
    rw [hE.texts hAs hc hσ hts, mapM_eq_ok]
    unfold Meaning.frame
    rw [List.map_map, List.forall₂_map_left_iff, List.forall₂_map_right_iff, List.forall₂_same]
    exact fun A _ => text_constants (A σ)

variable (W : F.WellFormed)

include W

theorem call {function : Builtin} {args : List Expr} {As : List Meaning} {binding : CallBinding}
    (hAs : Expr.MeansList F Φ Γ inner args As) (hbinding : binding.Sound F) (hc : σ.Extends c)
    (hσ : σ.Sound F Γ) (hv : CallFrame.run ⟨E, F, function, args, binding, c⟩ = .ok v) :
    v.Denotes F (Meaning.call F function As binding σ) := by
  have hrun := (hE.follows hAs hc hσ).run W v hv
  rw [Meaning.call, hrun]
  exact CallFrame.denotes_run W ⟨rfl, hbinding, hσ⟩ hrun

/-! ## Binary operators -/

theorem binary (hA : lhs.Means F Φ Γ inner A) (hB : rhs.Means F Φ Γ inner B)
    (hcompares : Expr.Compares F Γ op rhs A B) (hc : σ.Extends c) (hσ : σ.Sound F Γ)
    (hv : E.binary F op lhs rhs c = .ok v) :
    v.Means F ((A σ).binary F op (B σ)) ∧ ((A σ).binary F op (B σ)).dataType = v.dataType := by
  have harith {combine : Float → Float → Float}
      (hv : (do return Value.number (combine (← E.number lhs c) (← E.number rhs c))) = .ok v) :
      v = .number (combine ((A σ).toNumber F) ((B σ).toNumber F)) := by
    obtain ⟨x, hx, hv⟩ := bind_eq_ok.mp hv
    obtain ⟨y, hy, hv⟩ := bind_eq_ok.mp hv
    rw [← (hE.number hA hc hσ hx).1, ← (hE.number hB hc hσ hy).1]
    exact (pure_eq_ok.mp hv).symm
  have hcompare (hop : op.isComparison = true)
      (hv : (do
        let a ← E.value lhs c
        let b ← E.value rhs c
        return Value.boolean (← a.compare F op b)) = .ok v) :
      v = .boolean ((A σ).compare F op (B σ)) := by
    obtain ⟨a, ha, hv⟩ := bind_eq_ok.mp hv
    obtain ⟨b, hb, hv⟩ := bind_eq_ok.mp hv
    obtain ⟨holds, hholds, hv⟩ := bind_eq_ok.mp hv
    obtain ⟨hmeansA, -⟩ := hE.value hA hc hσ ha
    obtain ⟨hmeansB, htypeB⟩ := hE.value hB hc hσ hb
    rw [← hmeansA.compare W hmeansB op ?_ hholds]
    · exact (pure_eq_ok.mp hv).symm
    · intro heq hne hempty hbset
      cases hlazy : rhs.isLazy with
      | false =>
          obtain ⟨ms, hms⟩ := Outcome.eq_nodes_of_dataType ((htypeB hlazy).trans hbset)
          rw [hempty, hms]
          exact Outcome.compare_empty heq hne ms
      | true =>
          have hrel : op.isRelational = true := by
            simp [BinaryOperator.isRelational, hop, heq, hne]
          exact hcompares hrel hlazy σ hσ hempty
  cases op with
  | or =>
      obtain ⟨b, hb, hv⟩ := bind_eq_ok.mp hv
      obtain ⟨rfl, -⟩ := hE.truth hA hc hσ hb
      unfold Outcome.binary
      split at hv
      · rename_i hleft
        cases hv
        rw [hleft]
        exact ⟨rfl, rfl⟩
      · rename_i hleft
        obtain ⟨b', hb', hv⟩ := bind_eq_ok.mp hv
        obtain ⟨rfl, -⟩ := hE.truth hB hc hσ hb'
        cases hv
        rw [Bool.eq_false_iff.mpr hleft]
        exact ⟨rfl, rfl⟩
  | and =>
      obtain ⟨b, hb, hv⟩ := bind_eq_ok.mp hv
      obtain ⟨rfl, -⟩ := hE.truth hA hc hσ hb
      unfold Outcome.binary
      split at hv
      · rename_i hleft
        obtain ⟨b', hb', hv⟩ := bind_eq_ok.mp hv
        obtain ⟨rfl, -⟩ := hE.truth hB hc hσ hb'
        cases hv
        rw [hleft]
        exact ⟨rfl, rfl⟩
      · rename_i hleft
        cases hv
        rw [Bool.eq_false_iff.mpr hleft]
        exact ⟨rfl, rfl⟩
  | plus | minus | multiply | divide | modulo =>
      rw [harith hv]
      exact ⟨rfl, rfl⟩
  | equals | notEquals | lessThan | lessThanOrEqual | greaterThan | greaterThanOrEqual =>
      rw [hcompare rfl hv]
      exact ⟨rfl, rfl⟩

/-! ## Functions of the host -/

omit W in
/-- An argument that comes to nodes if it is lazy denotes its outcome. -/
theorem denotes (hA : e.Means F Φ Γ inner A) (hlists : e.Lists F Γ A)
    (hc : σ.Extends c) (hσ : σ.Sound F Γ) (hv : E.value e c = .ok v) : v.Denotes F (A σ) := by
  obtain ⟨hmeans, htype⟩ := hE.value hA hc hσ hv
  refine ⟨hmeans, ?_, hA.inOrder⟩
  cases hlazy : e.isLazy with
  | false => exact htype hlazy
  | true =>
      have hnodes := hlists hlazy σ hσ
      cases v with
      | nodeSet s => exact hnodes
      | fragment f => exact hmeans.elim
      | boolean | number | string | object =>
          rw [hmeans] at hnodes
          cases hnodes

end Sound

theorem Sound.extension {h : Host} {Φ : Calls h.forest} [h.Realizes Φ Γ] (hE : E.Sound h.forest Φ Γ)
    {f : ExtensionFunction} {args : List Expr} {As : List Meaning} (hknown : Φ.known f)
    (hAs : Expr.MeansList h.forest Φ Γ inner args As)
    (hlists : List.Forall₂ (Expr.Lists h.forest Γ) args As) (hc : σ.Extends c)
    (hσ : σ.Sound h.forest Γ) {vs : List Value} (hvs : args.mapM (E.value · c) = .ok vs)
    (hv : h.apply f.identity vs c = .ok v) :
    v.Denotes h.forest (Φ.answer f (As.map fun A => A σ) σ) := by
  refine (Host.Realizes.returns hknown).denotes ?_ hc hσ hv
  clear hv
  rw [mapM_eq_ok] at hvs
  induction hlists generalizing vs with
  | nil =>
      cases hvs
      exact .nil
  | cons hlist hlists ih =>
      rw [Expr.MeansList] at hAs
      obtain ⟨A, As, hA, hAs, heq⟩ := hAs
      cases heq
      cases hvs with
      | cons hv hvs => exact .cons (hE.denotes hA hlist hc hσ hv) (ih hAs hvs)

end Engine

end XPath
