import XPath.Proofs.Expr.Reduce

/-!
# What is left to depend on

Simplification makes no expression depend on more of the context (`Expr.disjoint_of_simplify`), and
a reduced expression depends on no facet of the mask (`Expr.disjoint_of_reduceWith`).
-/

namespace XPath

variable {F : Forest} {E : Engine} {h : Host} {m : Dependencies} {c : Context}
  {e e' lhs rhs start base predicate : Expr} {op : BinaryOperator}

namespace Dependencies

theorem not_intersects_empty (m : Dependencies) : empty.intersects m = false := by
  rw [Bool.eq_false_iff, ne_eq, intersects_iff]
  rintro ⟨i, hi, -⟩
  simp at hi

theorem disjoint_iff {d : Dependencies} :
    d.intersects m = false ↔ ∀ i, d.bit i = true → m.bit i = false :=
  ⟨fun h _ hi => not_intersects h hi, fun h => by
    rw [Bool.eq_false_iff, ne_eq, intersects_iff]
    rintro ⟨i, hi, hm⟩
    rw [h i hi] at hm
    cases hm⟩

end Dependencies

namespace Expr

/-- Whether the expression reads no facet of the mask. -/
abbrev DisjointFrom (m : Dependencies) (e : Expr) : Prop := e.dependencies.intersects m = false

/-! ## Simplification -/

theorem disjoint_literal (v : Value) : (literal v).DisjointFrom m :=
  Dependencies.not_intersects_empty m

theorem disjoint_binary :
    (binary op lhs rhs).DisjointFrom m ↔ lhs.DisjointFrom m ∧ rhs.DisjointFrom m := by
  rw [DisjointFrom, dependencies, Dependencies.intersects_or, Bool.or_eq_false_iff]

theorem disjoint_path {axis : Axis} {test : NodeTest} {predicates : List Expr} :
    (path start axis test predicates).DisjointFrom m ↔ start.DisjointFrom m ∧
      (dependenciesOfList predicates).intersects (m &&& .outer) = false := by
  rw [DisjointFrom, dependencies, Dependencies.intersects_or, Dependencies.intersects_and_outer,
    Bool.or_eq_false_iff]

theorem disjoint_filter :
    (filter base predicate).DisjointFrom m ↔
      base.DisjointFrom m ∧ predicate.DisjointFrom (m &&& .outer) := by
  rw [DisjointFrom, dependencies, Dependencies.intersects_or, Dependencies.intersects_and_outer,
    Bool.or_eq_false_iff]

theorem disjoint_setOperation {op : SetOperator} :
    (setOperation op lhs rhs).DisjointFrom m ↔ lhs.DisjointFrom m ∧ rhs.DisjointFrom m := by
  rw [DisjointFrom, dependencies, Dependencies.intersects_or, Bool.or_eq_false_iff]

theorem disjoint_call {function : Builtin} {args : List Expr} {binding : CallBinding} :
    (call function args binding).DisjointFrom m ↔
      (intrinsicDependencies function args.length binding).intersects m = false ∧
        (dependenciesOfList args).intersects m = false := by
  rw [DisjointFrom, dependencies, Dependencies.intersects_or, Bool.or_eq_false_iff]

theorem disjoint_cons {es : List Expr} :
    (dependenciesOfList (e :: es)).intersects m = false ↔
      e.DisjointFrom m ∧ (dependenciesOfList es).intersects m = false := by
  rw [dependenciesOfList, Dependencies.intersects_or, Bool.or_eq_false_iff]

theorem disjoint_consPart {p : TemplatePart} {ps : List TemplatePart} :
    (dependenciesOfParts (p :: ps)).intersects m = false ↔
      (dependenciesOfPart p).intersects m = false ∧
        (dependenciesOfParts ps).intersects m = false := by
  rw [dependenciesOfParts, Dependencies.intersects_or, Bool.or_eq_false_iff]

theorem disjoint_consKey {k : SortKey} {ks : List SortKey} :
    (dependenciesOfKeys (k :: ks)).intersects m = false ↔
      (dependenciesOfKey k).intersects m = false ∧
        (dependenciesOfKeys ks).intersects m = false := by
  rw [dependenciesOfKeys, Dependencies.intersects_or, Bool.or_eq_false_iff]

theorem disjoint_key {key : Expr} {order dataType caseOrder lang : Option Expr} :
    (dependenciesOfKey (.mk key order dataType caseOrder lang)).intersects m = false ↔
      key.DisjointFrom (m &&& .outer) ∧ (dependenciesOfOption order).intersects m = false ∧
        (dependenciesOfOption dataType).intersects m = false ∧
        (dependenciesOfOption caseOrder).intersects m = false ∧
        (dependenciesOfOption lang).intersects m = false := by
  simp only [dependenciesOfKey, Dependencies.intersects_or, Dependencies.intersects_and_outer,
    Bool.or_eq_false_iff, and_assoc]

theorem disjoint_sorted {selection : Expr} {keys : List SortKey} :
    (sorted selection keys).DisjointFrom m ↔
      selection.DisjointFrom m ∧ (dependenciesOfKeys keys).intersects m = false := by
  rw [DisjointFrom, dependencies, Dependencies.intersects_or, Bool.or_eq_false_iff]

theorem disjoint_joinTexts {parts : List TemplatePart}
    (h : (dependenciesOfParts parts).intersects m = false) :
    (dependenciesOfParts (joinTexts parts)).intersects m = false := by
  induction parts with
  | nil => exact h
  | cons p parts ih =>
      obtain ⟨hp, hparts⟩ := disjoint_consPart.mp h
      cases p with
      | expr e => exact disjoint_consPart.mpr ⟨hp, ih hparts⟩
      | text a =>
          rw [joinTexts]
          split
          · rename_i b others hjoin
            have hothers := ih hparts
            rw [hjoin] at hothers
            exact disjoint_consPart.mpr ⟨hp, (disjoint_consPart.mp hothers).2⟩
          · exact disjoint_consPart.mpr ⟨hp, ih hparts⟩

/-- What a rule makes of an expression reads no more than the expression. -/
theorem disjoint_of_rewrites (hr : Rewrites F e e') (h : e.DisjointFrom m) : e'.DisjointFrom m := by
  cases hr with
  | atRest => exact h
  | constant | folded | andFalse | orTrue | negated | compared | fails | nothing | combined
  | callTrue | callFalse | evaluated | text => exact disjoint_literal _
  | andTrue | orFalse =>
      exact disjoint_call.mpr ⟨Dependencies.not_intersects_empty m,
        disjoint_cons.mpr ⟨(disjoint_binary.mp h).2, Dependencies.not_intersects_empty m⟩⟩
  | leftNode => exact (disjoint_binary.mp h).1
  | rightNode => exact (disjoint_binary.mp h).2
  | selfStep | parentStep | attributeStep => exact (disjoint_path.mp h).1
  | holds => exact (disjoint_filter.mp h).1
  | left => exact (disjoint_setOperation.mp h).1
  | right => exact (disjoint_setOperation.mp h).2
  | joined => exact disjoint_joinTexts h

theorem length_of_simplifyList {es es' : List Expr} (he : simplifyList F es = .ok es') :
    es'.length = es.length := by
  induction es generalizing es' with
  | nil =>
      rw [simplifyList] at he
      cases he
      rfl
  | cons e es ih =>
      obtain ⟨e', rest, -, hrest, rfl⟩ := simplifyList_cons he
      rw [List.length_cons, List.length_cons, ih hrest]

mutual

/-- What an expression does not read, the simplified expression does not read either. -/
theorem disjoint_of_simplify {e e' : Expr} {m : Dependencies} (h : e.DisjointFrom m)
    (he : e.simplify F = .ok e') : e'.DisjointFrom m := by
  match e with
  | literal v | contextNode | parentNode | root | attributeNamed name display parent
  | failure error =>
      rw [simplify] at he
      cases he
      exact h
  | reference name display constant => exact disjoint_of_rewrites (simplify_reference he) h
  | binary op lhs rhs =>
      obtain ⟨lhs', rhs', hlhs, hrhs, hr⟩ := simplify_binary he
      obtain ⟨hl, hr'⟩ := disjoint_binary.mp h
      exact disjoint_of_rewrites hr (disjoint_binary.mpr
        ⟨disjoint_of_simplify hl hlhs, disjoint_of_simplify hr' hrhs⟩)
  | negate e =>
      obtain ⟨operand, hoperand, hr⟩ := simplify_negate he
      have hdisjoint := disjoint_of_simplify (e := e) h hoperand
      exact disjoint_of_rewrites hr hdisjoint
  | nodeComparison node op v =>
      obtain ⟨node', hnode, hr⟩ := simplify_nodeComparison he
      have hdisjoint := disjoint_of_simplify (e := node) h hnode
      exact disjoint_of_rewrites hr hdisjoint
  | path start axis test predicates =>
      obtain ⟨start', hstart, hcases⟩ := simplify_path he
      obtain ⟨hs, hps⟩ := disjoint_path.mp h
      rcases hcases with ⟨-, rfl⟩ | ⟨-, rfl⟩ | ⟨predicates', hkept, hr⟩
      · exact disjoint_literal _
      · exact disjoint_literal _
      · exact disjoint_of_rewrites hr (disjoint_path.mpr ⟨disjoint_of_simplify hs hstart,
          disjoint_of_simplifyPredicates hps hkept predicates' rfl⟩)
  | filter base predicate =>
      obtain ⟨base', hbase, hcases⟩ := simplify_filter he
      obtain ⟨hb, hp⟩ := disjoint_filter.mp h
      rcases hcases with ⟨-, rfl⟩ | ⟨predicate', hpredicate, hr⟩
      · exact disjoint_literal _
      · exact disjoint_of_rewrites hr (disjoint_filter.mpr
          ⟨disjoint_of_simplify hb hbase, disjoint_of_simplify hp hpredicate⟩)
  | setOperation op lhs rhs =>
      obtain ⟨lhs', rhs', hlhs, hrhs, hr⟩ := simplify_setOperation he
      obtain ⟨hl, hr'⟩ := disjoint_setOperation.mp h
      exact disjoint_of_rewrites hr (disjoint_setOperation.mpr
        ⟨disjoint_of_simplify hl hlhs, disjoint_of_simplify hr' hrhs⟩)
  | call function args binding =>
      obtain ⟨args', hargs, hr⟩ := simplify_call he
      obtain ⟨hown, has⟩ := disjoint_call.mp h
      rw [← length_of_simplifyList hargs] at hown
      exact disjoint_of_rewrites hr
        (disjoint_call.mpr ⟨hown, disjoint_of_simplifyList has hargs⟩)
  | extension name display function args =>
      obtain ⟨args', hargs, rfl⟩ := simplify_extension he
      rw [DisjointFrom, dependencies, Dependencies.intersects_or, Bool.or_eq_false_iff] at h ⊢
      exact ⟨h.1, disjoint_of_simplifyList h.2 hargs⟩
  | sorted selection keys =>
      obtain ⟨selection', hselection, hcases⟩ := simplify_sorted he
      obtain ⟨hs, hks⟩ := disjoint_sorted.mp h
      have hs' := disjoint_of_simplify hs hselection
      rcases hcases with ⟨-, rfl⟩ | ⟨-, keys', hkeys, rfl⟩
      · exact hs'
      · exact disjoint_sorted.mpr ⟨hs', disjoint_of_simplifyKeys hks hkeys⟩
  | template parts =>
      obtain ⟨parts', hparts, hr⟩ := simplify_template he
      rw [DisjointFrom, dependencies] at h
      exact disjoint_of_rewrites hr (disjoint_of_simplifyParts h hparts)
termination_by structural e

theorem disjoint_of_simplifyList {es es' : List Expr} {m : Dependencies}
    (h : (dependenciesOfList es).intersects m = false) (he : simplifyList F es = .ok es') :
    (dependenciesOfList es').intersects m = false := by
  match es with
  | [] =>
      rw [simplifyList] at he
      cases he
      exact h
  | e :: es =>
      obtain ⟨e', rest, he', hrest, rfl⟩ := simplifyList_cons he
      obtain ⟨hd, hds⟩ := disjoint_cons.mp h
      exact disjoint_cons.mpr ⟨disjoint_of_simplify hd he', disjoint_of_simplifyList hds hrest⟩
termination_by structural es

theorem disjoint_of_simplifyPredicates {es : List Expr} {m : Dependencies}
    {kept : Option (List Expr)} (h : (dependenciesOfList es).intersects m = false)
    (he : simplifyPredicates F es = .ok kept) :
    ∀ es', kept = some es' → (dependenciesOfList es').intersects m = false := by
  match es with
  | [] =>
      rw [simplifyPredicates] at he
      cases he
      rintro es' ⟨rfl⟩
      exact h
  | e :: es =>
      obtain ⟨hd, hds⟩ := disjoint_cons.mp h
      obtain ⟨e', he', hkept⟩ := simplifyPredicates_cons he
      rcases hkept with ⟨rest, hrest, rfl, -⟩ | ⟨v, holds, rfl, -, -, hkept⟩
      · intro es' hes'
        obtain ⟨rest', rfl, rfl⟩ := Option.map_eq_some_iff.mp hes'
        exact disjoint_cons.mpr ⟨disjoint_of_simplify hd he',
          disjoint_of_simplifyPredicates hds hrest _ rfl⟩
      · split at hkept
        · exact disjoint_of_simplifyPredicates hds hkept
        · subst hkept
          rintro es' ⟨⟩
termination_by structural es

theorem disjoint_of_simplifyOption {e e' : Option Expr} {m : Dependencies}
    (h : (dependenciesOfOption e).intersects m = false) (he : simplifyOption F e = .ok e') :
    (dependenciesOfOption e').intersects m = false := by
  match e with
  | none =>
      rw [simplifyOption] at he
      cases he
      exact h
  | some e =>
      obtain ⟨e', he', rfl⟩ := simplifyOption_some he
      rw [dependenciesOfOption] at h ⊢
      exact disjoint_of_simplify h he'
termination_by structural e

theorem disjoint_of_simplifyKeys {ks ks' : List SortKey} {m : Dependencies}
    (h : (dependenciesOfKeys ks).intersects m = false) (he : simplifyKeys F ks = .ok ks') :
    (dependenciesOfKeys ks').intersects m = false := by
  match ks with
  | [] =>
      rw [simplifyKeys] at he
      cases he
      exact h
  | .mk key order dataType caseOrder lang :: ks =>
      obtain ⟨key', order', dataType', caseOrder', lang', ks', hkey, horder, htype, hcase, hlang,
        hks', rfl⟩ := simplifyKeys_cons he
      obtain ⟨hk, hks⟩ := disjoint_consKey.mp h
      obtain ⟨h₁, h₂, h₃, h₄, h₅⟩ := disjoint_key.mp hk
      exact disjoint_consKey.mpr ⟨disjoint_key.mpr ⟨disjoint_of_simplify h₁ hkey,
        disjoint_of_simplifyOption h₂ horder, disjoint_of_simplifyOption h₃ htype,
        disjoint_of_simplifyOption h₄ hcase, disjoint_of_simplifyOption h₅ hlang⟩,
        disjoint_of_simplifyKeys hks hks'⟩
termination_by structural ks

theorem disjoint_of_simplifyParts {ps ps' : List TemplatePart} {m : Dependencies}
    (h : (dependenciesOfParts ps).intersects m = false) (he : simplifyParts F ps = .ok ps') :
    (dependenciesOfParts ps').intersects m = false := by
  match ps with
  | [] =>
      rw [simplifyParts] at he
      cases he
      exact h
  | .text text :: ps =>
      obtain ⟨rest, hrest, rfl⟩ := simplifyParts_text he
      obtain ⟨hp, hps⟩ := disjoint_consPart.mp h
      exact disjoint_consPart.mpr ⟨hp, disjoint_of_simplifyParts hps hrest⟩
  | .expr e :: ps =>
      obtain ⟨e', rest, he', hrest, hpart⟩ := simplifyParts_expr he
      obtain ⟨hp, hps⟩ := disjoint_consPart.mp h
      have hrest' := disjoint_of_simplifyParts hps hrest
      rcases hpart with ⟨v, t, -, -, rfl⟩ | ⟨-, rfl⟩
      · exact disjoint_consPart.mpr ⟨Dependencies.not_intersects_empty m, hrest'⟩
      · exact disjoint_consPart.mpr ⟨disjoint_of_simplify (e := e) hp he', hrest'⟩
termination_by structural ps

end

/-! ## Reduction -/

/-- A call that has captured what the function reads of a mask reads nothing of it any more. -/
theorem disjoint_intrinsic {function : Builtin} {count : Nat} {b b' : CallBinding}
    {d : Dependencies} (hd : d = intrinsicDependencies function count b &&& m)
    (hcurrent : function = .current → d.bit 2 = false)
    (hposition : function = .position → d.bit 4 = false)
    (hlast : function = .last → d.bit 5 = false)
    (hnode : if d.bit 3 then b'.node.isSome = true else b'.node = b.node)
    (hcontroller : if d.bit 6 then ∃ k, b'.controller = .bound k
      else b'.controller = b.controller) :
    (intrinsicDependencies function count b').intersects m = false := by
  have hread {i : Nat} (hi : (intrinsicDependencies function count b).bit i = true)
      (hdi : d.bit i = false) : m.bit i = false := by
    rw [hd, Dependencies.bit_and, hi, Bool.true_and] at hdi
    exact hdi
  obtain ⟨hown₂, hown₄, hown₅⟩ := Meaning.bit_intrinsic_of_ne function count b
  rw [Dependencies.disjoint_iff]
  intro i hi
  by_cases h3 : i = 3
  · subst h3
    split at hnode
    · rw [Meaning.bit_contextNode_intrinsic, Option.isNone_eq_false_iff.mpr hnode] at hi
      simp at hi
    · rename_i hd3
      rw [Meaning.bit_contextNode_intrinsic, hnode, ← Meaning.bit_contextNode_intrinsic] at hi
      exact hread hi (Bool.eq_false_iff.mpr hd3)
  by_cases h6 : i = 6
  · subst h6
    split at hcontroller
    · obtain ⟨k, hk⟩ := hcontroller
      rw [Meaning.bit_controller_intrinsic, hk] at hi
      simp at hi
    · rename_i hd6
      rw [Meaning.bit_controller_intrinsic, hcontroller, ← Meaning.bit_controller_intrinsic] at hi
      exact hread hi (Bool.eq_false_iff.mpr hd6)
  rw [Meaning.bit_intrinsic h3 h6, ← Meaning.bit_intrinsic h3 h6 function count b] at hi
  by_cases h2 : i = 2
  · subst h2
    by_cases hf : function = .current
    · exact hread hi (hcurrent hf)
    · rw [hown₂ hf] at hi
      cases hi
  by_cases h4 : i = 4
  · subst h4
    by_cases hf : function = .position
    · exact hread hi (hposition hf)
    · rw [hown₄ hf] at hi
      cases hi
  by_cases h5 : i = 5
  · subst h5
    by_cases hf : function = .last
    · exact hread hi (hlast hf)
    · rw [hown₅ hf] at hi
      cases hi
  · rw [Meaning.bit_intrinsic_of_notin h2 h3 h4 h5 h6] at hi
    cases hi

theorem disjoint_of_reduceCall {function : Builtin} {args : List Expr} {binding : CallBinding}
    (hargs : (dependenciesOfList args).intersects m = false)
    (he : reduceCall F m c function args binding = .ok e') : e'.DisjointFrom m := by
  cases captures_reduceCall he with
  | position | last | current => exact disjoint_literal _
  | call hposition hlast hcurrent hnode he =>
      refine disjoint_of_simplify (disjoint_call.mpr ⟨?_, hargs⟩) he
      refine disjoint_intrinsic rfl hcurrent hposition hlast ?_ ?_
      · split at hnode
        · rename_i hread
          obtain ⟨n, rfl, -⟩ := hnode
          rw [if_pos hread]
          rfl
        · rename_i hread
          rwa [if_neg hread]
      · dsimp only
        split
        · exact ⟨_, rfl⟩
        · rfl

theorem disjoint_asNodeSource (h : e.DisjointFrom m) (he : asNodeSource c e = .ok e') :
    e'.DisjointFrom m := by
  unfold asNodeSource at he
  split at he
  · obtain ⟨s, -, he⟩ := bind_eq_ok.mp he
    cases he
    exact disjoint_literal _
  · cases he
    exact h

/-- What reads the context node reads nothing of the mask once the node is bound. -/
theorem disjoint_bound {f : Node → Expr} (hf : ∀ n, (f n).DisjointFrom m)
    (he : e.dependencies = .contextNode)
    (hreduce : (if m.contains .contextNode then do return f (← c.contextNode) else .ok e) =
      .ok e') : e'.DisjointFrom m := by
  split at hreduce
  · obtain ⟨n, -, hreduce⟩ := bind_eq_ok.mp hreduce
    cases hreduce
    exact hf n
  · rename_i hm
    cases hreduce
    rw [Dependencies.contains_contextNode, Bool.not_eq_true] at hm
    rw [DisjointFrom, he, Dependencies.disjoint_iff]
    intro i hi
    obtain rfl : i = 3 := by simpa using hi
    exact hm

mutual

theorem disjoint_of_reduceWith {e e' : Expr} {m : Dependencies}
    (he : e.reduceWith E h m c = .ok e') : e'.DisjointFrom m := by
  unfold reduceWith at he
  split at he
  · rename_i hm
    cases he
    rwa [Bool.not_eq_true'] at hm
  · match e with
    | literal v | failure error =>
        cases he
        exact Dependencies.not_intersects_empty m
    | reference name display constant =>
        obtain ⟨v, -, rfl⟩ := map_eq_ok.mp he
        exact disjoint_literal v
    | binary op lhs rhs =>
        obtain ⟨lhs', hlhs, he⟩ := bind_eq_ok.mp he
        obtain ⟨rhs', hrhs, he⟩ := bind_eq_ok.mp he
        exact disjoint_of_simplify (disjoint_binary.mpr
          ⟨disjoint_of_reduceWith hlhs, disjoint_of_reduceWith hrhs⟩) he
    | negate e =>
        obtain ⟨e', hoperand, he⟩ := bind_eq_ok.mp he
        exact disjoint_of_simplify (e := negate e')
          (show e'.DisjointFrom m from disjoint_of_reduceWith hoperand) he
    | nodeComparison node op v =>
        obtain ⟨node', hnode, he⟩ := bind_eq_ok.mp he
        exact disjoint_of_simplify (e := nodeComparison node' op v)
          (show node'.DisjointFrom m from disjoint_of_reduceWith hnode) he
    | contextNode =>
        exact disjoint_bound (f := fun n => ofNode (some n))
          (fun n => disjoint_literal _) rfl he
    | parentNode =>
        exact disjoint_bound (f := fun n => ofNode (h.forest.parent? n))
          (fun n => disjoint_literal _) rfl he
    | root =>
        exact disjoint_bound (f := fun n => ofNode (some (h.forest.documentRoot n)))
          (fun n => disjoint_literal _) rfl he
    | attributeNamed name display (some n) =>
        rename_i hm
        exact absurd (congrArg (!·) (Dependencies.not_intersects_empty m)) hm
    | attributeNamed name display none =>
        exact disjoint_bound (f := fun n => attributeNamed name display (some n))
          (fun n => Dependencies.not_intersects_empty m) rfl he
    | path start axis test predicates =>
        obtain ⟨start', hstart, he⟩ := bind_eq_ok.mp he
        obtain ⟨start'', hsource, he⟩ := bind_eq_ok.mp he
        obtain ⟨predicates', hpredicates, he⟩ := bind_eq_ok.mp he
        exact disjoint_of_simplify (disjoint_path.mpr
          ⟨disjoint_asNodeSource (disjoint_of_reduceWith hstart) hsource,
            disjoint_of_reduceListWith hpredicates⟩) he
    | filter base predicate =>
        obtain ⟨base', hbase, he⟩ := bind_eq_ok.mp he
        obtain ⟨base'', hsource, he⟩ := bind_eq_ok.mp he
        obtain ⟨predicate', hpredicate, he⟩ := bind_eq_ok.mp he
        exact disjoint_of_simplify (disjoint_filter.mpr
          ⟨disjoint_asNodeSource (disjoint_of_reduceWith hbase) hsource,
            disjoint_of_reduceWith hpredicate⟩) he
    | setOperation op lhs rhs =>
        obtain ⟨lhs', hlhs, he⟩ := bind_eq_ok.mp he
        obtain ⟨lhs'', hleft, he⟩ := bind_eq_ok.mp he
        obtain ⟨rhs', hrhs, he⟩ := bind_eq_ok.mp he
        obtain ⟨rhs'', hright, he⟩ := bind_eq_ok.mp he
        exact disjoint_of_simplify (disjoint_setOperation.mpr
          ⟨disjoint_asNodeSource (disjoint_of_reduceWith hlhs) hleft,
            disjoint_asNodeSource (disjoint_of_reduceWith hrhs) hright⟩) he
    | call function args binding =>
        obtain ⟨args', hargs, he⟩ := bind_eq_ok.mp he
        exact disjoint_of_reduceCall (disjoint_of_reduceListWith hargs) he
    | extension name display function args =>
        dsimp only at he
        split at he
        · obtain ⟨vs, -, he⟩ := bind_eq_ok.mp he
          obtain ⟨v, -, he⟩ := bind_eq_ok.mp he
          cases he
          exact disjoint_literal v
        · rename_i hfunction
          obtain ⟨args', hargs, he⟩ := bind_eq_ok.mp he
          cases he
          rw [DisjointFrom, dependencies, Dependencies.intersects_or, Bool.or_eq_false_iff]
          exact ⟨Bool.eq_false_iff.mpr hfunction, disjoint_of_reduceListWith hargs⟩
    | sorted selection keys =>
        obtain ⟨selection', hselection, he⟩ := bind_eq_ok.mp he
        obtain ⟨keys', hkeys, he⟩ := bind_eq_ok.mp he
        exact disjoint_of_simplify (disjoint_sorted.mpr
          ⟨disjoint_of_reduceWith hselection, disjoint_of_reduceKeysWith hkeys⟩) he
    | template parts =>
        obtain ⟨parts', hparts, he⟩ := bind_eq_ok.mp he
        refine disjoint_of_simplify (e := template parts') ?_ he
        rw [DisjointFrom, dependencies]
        exact disjoint_of_reducePartsWith hparts
termination_by structural e

theorem disjoint_of_reduceListWith {es es' : List Expr} {m : Dependencies}
    (he : reduceListWith E h m c es = .ok es') : (dependenciesOfList es').intersects m = false := by
  match es with
  | [] =>
      cases he
      exact Dependencies.not_intersects_empty m
  | e :: es =>
      obtain ⟨e', he', he⟩ := bind_eq_ok.mp he
      obtain ⟨es', hes', he⟩ := bind_eq_ok.mp he
      cases he
      exact disjoint_cons.mpr ⟨disjoint_of_reduceWith he', disjoint_of_reduceListWith hes'⟩
termination_by structural es

theorem disjoint_of_reduceOptionWith {e e' : Option Expr} {m : Dependencies}
    (he : reduceOptionWith E h m c e = .ok e') :
    (dependenciesOfOption e').intersects m = false := by
  match e with
  | none =>
      cases he
      exact Dependencies.not_intersects_empty m
  | some e =>
      obtain ⟨e', he', he⟩ := bind_eq_ok.mp he
      cases he
      exact disjoint_of_reduceWith he'
termination_by structural e

theorem disjoint_of_reduceKeysWith {ks ks' : List SortKey} {m : Dependencies}
    (he : reduceKeysWith E h m c ks = .ok ks') : (dependenciesOfKeys ks').intersects m = false := by
  match ks with
  | [] =>
      cases he
      exact Dependencies.not_intersects_empty m
  | .mk key order dataType caseOrder lang :: ks =>
      obtain ⟨key', order', dataType', caseOrder', lang', ks', hkey, horder, htype, hcase, hlang,
        hks', rfl⟩ := reduceKeysWith_cons he
      exact disjoint_consKey.mpr ⟨disjoint_key.mpr ⟨disjoint_of_reduceWith hkey,
        disjoint_of_reduceOptionWith horder, disjoint_of_reduceOptionWith htype,
        disjoint_of_reduceOptionWith hcase, disjoint_of_reduceOptionWith hlang⟩,
        disjoint_of_reduceKeysWith hks'⟩
termination_by structural ks

theorem disjoint_of_reducePartsWith {ps ps' : List TemplatePart} {m : Dependencies}
    (he : reducePartsWith E h m c ps = .ok ps') :
    (dependenciesOfParts ps').intersects m = false := by
  match ps with
  | [] =>
      cases he
      exact Dependencies.not_intersects_empty m
  | .text text :: ps =>
      obtain ⟨p', hp', he⟩ := bind_eq_ok.mp he
      obtain ⟨ps', hps', he⟩ := bind_eq_ok.mp he
      cases hp'
      cases he
      exact disjoint_consPart.mpr
        ⟨Dependencies.not_intersects_empty m, disjoint_of_reducePartsWith hps'⟩
  | .expr e :: ps =>
      obtain ⟨p', hp', he⟩ := bind_eq_ok.mp he
      obtain ⟨ps', hps', he⟩ := bind_eq_ok.mp he
      cases he
      obtain ⟨e', he', hp'⟩ := bind_eq_ok.mp hp'
      cases hp'
      exact disjoint_consPart.mpr
        ⟨disjoint_of_reduceWith (e := e) he', disjoint_of_reducePartsWith hps'⟩
termination_by structural ps

end

end Expr

end XPath
