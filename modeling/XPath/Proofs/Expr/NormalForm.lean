import XPath.Pattern
import XPath.Proofs.Expr.Regular
import XPath.Proofs.Tree.Contract

/-!
# Simplification reaches a normal form

An expression is `IsNormal` if every part is at rest: no rule of simplification applies to it. What a
rule makes of normal parts is normal (`isNormal_of_rewrites`), so a simplified expression is
(`isNormal_of_simplify`); and a normal expression is left as it is (`IsNormal.simplify_eq`). So one
pass is enough.
-/

namespace XPath

variable {F : Forest} {e e' lhs rhs start base predicate : Expr} {op : BinaryOperator} {axis : Axis}
  {test : NodeTest} {predicates : List Expr} {parts : List TemplatePart}

namespace Expr

abbrev IsNormal (e : Expr) : Prop := e.Every AtRest

def HasNormalParts : Expr → Prop
  | binary _ lhs rhs | setOperation _ lhs rhs | filter lhs rhs => lhs.IsNormal ∧ rhs.IsNormal
  | negate e | nodeComparison e _ _ => e.IsNormal
  | path start _ _ predicates => start.IsNormal ∧ EveryOfList AtRest predicates
  | call _ args _ | extension _ _ _ args => EveryOfList AtRest args
  | sorted selection keys => selection.IsNormal ∧ EveryOfKeys AtRest keys
  | template parts => EveryOfParts AtRest parts
  | _ => True

theorem isNormal_iff : e.IsNormal ↔ e.AtRest ∧ e.HasNormalParts := by
  cases e <;> simp [IsNormal, Every, HasNormalParts]

/-! ## Simplification gives a normal form -/

theorem isNormal_literal (v : Value) : (literal v).IsNormal := isNormal_iff.mpr ⟨trivial, trivial⟩

theorem isNormal_of_rewrites (hr : Rewrites F e e') (h : e.HasNormalParts) : e'.IsNormal := by
  cases hr with
  | atRest hrest => exact isNormal_iff.mpr ⟨hrest, h⟩
  | constant | folded | andFalse | orTrue | negated | compared | fails | nothing | combined
  | callTrue | callFalse | evaluated | text => exact isNormal_literal _
  | andTrue _ hrhs | orFalse _ hrhs =>
      refine isNormal_iff.mpr ⟨by simp [AtRest, isConstantCall, hrhs], ?_⟩
      rw [HasNormalParts, EveryOfList, EveryOfList]
      exact ⟨h.2, trivial⟩
  | leftNode _ _ _ hlhs => exact isNormal_iff.mpr ⟨hlhs, h.1⟩
  | rightNode _ _ _ hrhs => exact isNormal_iff.mpr ⟨hrhs, h.2⟩
  | selfStep | holds | left => exact h.1
  | right => exact h.2
  | parentStep | attributeStep => exact isNormal_iff.mpr ⟨trivial, trivial⟩
  | joined hjoined => exact isNormal_iff.mpr ⟨hjoined, EveryOfParts.joinTexts h⟩

mutual

theorem isNormal_of_simplify {e e' : Expr} (he : e.simplify F = .ok e') : e'.IsNormal := by
  match e with
  | literal v | contextNode | parentNode | root | attributeNamed name display parent
  | failure error =>
      rw [simplify] at he
      cases he
      exact isNormal_iff.mpr ⟨trivial, trivial⟩
  | reference name display constant => exact isNormal_of_rewrites (simplify_reference he) trivial
  | binary op lhs rhs =>
      obtain ⟨lhs', rhs', hlhs, hrhs, hr⟩ := simplify_binary he
      exact isNormal_of_rewrites hr ⟨isNormal_of_simplify hlhs, isNormal_of_simplify hrhs⟩
  | negate e =>
      obtain ⟨operand, hoperand, hr⟩ := simplify_negate he
      exact isNormal_of_rewrites hr (isNormal_of_simplify hoperand)
  | nodeComparison node op v =>
      obtain ⟨node', hnode, hr⟩ := simplify_nodeComparison he
      exact isNormal_of_rewrites hr (isNormal_of_simplify hnode)
  | path start axis test predicates =>
      obtain ⟨start', hstart, hcases⟩ := simplify_path he
      rcases hcases with ⟨-, rfl⟩ | ⟨-, rfl⟩ | ⟨predicates', hkept, hr⟩
      · exact isNormal_literal _
      · exact isNormal_literal _
      · exact isNormal_of_rewrites hr ⟨isNormal_of_simplify hstart,
          isNormal_of_simplifyPredicates hkept predicates' rfl⟩
  | filter base predicate =>
      obtain ⟨base', hbase, hcases⟩ := simplify_filter he
      rcases hcases with ⟨-, rfl⟩ | ⟨predicate', hpredicate, hr⟩
      · exact isNormal_literal _
      · exact isNormal_of_rewrites hr ⟨isNormal_of_simplify hbase, isNormal_of_simplify hpredicate⟩
  | setOperation op lhs rhs =>
      obtain ⟨lhs', rhs', hlhs, hrhs, hr⟩ := simplify_setOperation he
      exact isNormal_of_rewrites hr ⟨isNormal_of_simplify hlhs, isNormal_of_simplify hrhs⟩
  | call function args binding =>
      obtain ⟨args', hargs, hr⟩ := simplify_call he
      exact isNormal_of_rewrites hr (isNormal_of_simplifyList hargs)
  | extension name display function args =>
      obtain ⟨args', hargs, rfl⟩ := simplify_extension he
      exact isNormal_iff.mpr ⟨trivial, isNormal_of_simplifyList hargs⟩
  | sorted selection keys =>
      obtain ⟨selection', hselection, hcases⟩ := simplify_sorted he
      have hnormal := isNormal_of_simplify hselection
      rcases hcases with ⟨-, rfl⟩ | ⟨hempty, keys', hkeys, rfl⟩
      · exact hnormal
      · exact isNormal_iff.mpr ⟨hempty, hnormal, isNormal_of_simplifyKeys hkeys⟩
  | template parts =>
      obtain ⟨parts', hparts, hr⟩ := simplify_template he
      exact isNormal_of_rewrites hr (isNormal_of_simplifyParts hparts)
termination_by structural e

theorem isNormal_of_simplifyList {es es' : List Expr} (he : simplifyList F es = .ok es') :
    EveryOfList AtRest es' := by
  match es with
  | [] =>
      rw [simplifyList] at he
      cases he
      trivial
  | e :: es =>
      obtain ⟨e', es', he', hes', rfl⟩ := simplifyList_cons he
      rw [EveryOfList]
      exact ⟨isNormal_of_simplify he', isNormal_of_simplifyList hes'⟩
termination_by structural es

theorem isNormal_of_simplifyPredicates {es : List Expr} {kept : Option (List Expr)}
    (he : simplifyPredicates F es = .ok kept) : ∀ es' ∈ kept, EveryOfList AtRest es' := by
  match es with
  | [] =>
      rw [simplifyPredicates] at he
      cases he
      rintro es' ⟨rfl⟩
      trivial
  | e :: es =>
      obtain ⟨e', he', hkept⟩ := simplifyPredicates_cons he
      rcases hkept with ⟨rest, hrest, rfl, -⟩ | ⟨v, holds, rfl, -, -, hkept⟩
      · intro es' hes'
        obtain ⟨rest', hmem, rfl⟩ := Option.map_eq_some_iff.mp hes'
        rw [EveryOfList]
        exact ⟨isNormal_of_simplify he', isNormal_of_simplifyPredicates hrest rest' hmem⟩
      · split at hkept
        · exact isNormal_of_simplifyPredicates hkept
        · subst hkept
          rintro es' ⟨⟩
termination_by structural es

theorem isNormal_of_simplifyOption {e e' : Option Expr} (he : simplifyOption F e = .ok e') :
    EveryOfOption AtRest e' := by
  match e with
  | none =>
      rw [simplifyOption] at he
      cases he
      trivial
  | some e =>
      obtain ⟨e', he', rfl⟩ := simplifyOption_some he
      exact isNormal_of_simplify he'
termination_by structural e

theorem isNormal_of_simplifyKeys {ks ks' : List SortKey} (he : simplifyKeys F ks = .ok ks') :
    EveryOfKeys AtRest ks' := by
  match ks with
  | [] =>
      rw [simplifyKeys] at he
      cases he
      trivial
  | .mk key order dataType caseOrder lang :: ks =>
      obtain ⟨key', order', dataType', caseOrder', lang', ks', hkey, horder, htype, hcase, hlang,
        hks', rfl⟩ := simplifyKeys_cons he
      rw [EveryOfKeys]
      exact ⟨isNormal_of_simplify hkey, isNormal_of_simplifyOption horder,
        isNormal_of_simplifyOption htype, isNormal_of_simplifyOption hcase,
        isNormal_of_simplifyOption hlang, isNormal_of_simplifyKeys hks'⟩
termination_by structural ks

theorem isNormal_of_simplifyParts {ps ps' : List TemplatePart}
    (he : simplifyParts F ps = .ok ps') : EveryOfParts AtRest ps' := by
  match ps with
  | [] =>
      rw [simplifyParts] at he
      cases he
      trivial
  | .text text :: ps =>
      obtain ⟨rest, hrest, rfl⟩ := simplifyParts_text he
      rw [EveryOfParts]
      exact isNormal_of_simplifyParts hrest
  | .expr e :: ps =>
      obtain ⟨e', rest, he', hrest, hpart⟩ := simplifyParts_expr he
      have hnormal := isNormal_of_simplifyParts hrest
      rcases hpart with ⟨v, t, -, -, rfl⟩ | ⟨-, rfl⟩
      · rwa [EveryOfParts]
      · rw [EveryOfParts]
        exact ⟨isNormal_of_simplify he', hnormal⟩
termination_by structural ps

end

/-! ## A normal form is left as it is -/

theorem joinTexts_eq (h : parts.IsChain fun p q => (p.isText && q.isText) = false) :
    joinTexts parts = parts := by
  induction parts with
  | nil => rfl
  | cons p parts ih =>
      rw [List.isChain_cons] at h
      have hrest := ih h.2
      cases p with
      | expr e => exact congrArg _ hrest
      | text a =>
          rw [joinTexts, hrest]
          split
          · exact absurd (h.1 _ rfl) (by simp [TemplatePart.isText])
          · rfl

theorem ofBinary_of_atRest (h : (binary op lhs rhs).AtRest) :
    ofBinary F op lhs rhs = .ok (binary op lhs rhs) := by
  obtain ⟨hconstant, hboolean, hcomparison⟩ := h
  unfold ofBinary
  rw [if_neg (Bool.eq_false_iff.mp hconstant)]
  split
  · split
    · exact absurd (hboolean ‹_›) (by simp [isLiteral])
    · rfl
  · split
    · rename_i hop
      have hnode := hcomparison hop
      rw [comparesOneNode, Bool.or_eq_false_iff] at hnode
      unfold ofComparison
      split
      · exact (isSome_eq_false_of_forall.mp hnode.1 _ ‹_› ‹_›).elim
      · split
        · exact (isSome_eq_false_of_forall.mp hnode.2 _ ‹_› ‹_›).elim
        · rfl
    · rfl

theorem ofPath_of_atRest (h : (path start axis test predicates).AtRest) :
    ofPath start axis test predicates = path start axis test predicates := by
  obtain ⟨-, -, -, habbreviable⟩ := h
  unfold ofPath
  split
  · rename_i hself
    obtain ⟨kind, name⟩ := test
    simp only [Bool.and_eq_true, beq_iff_eq, List.isEmpty_iff] at hself
    obtain ⟨⟨⟨rfl, rfl⟩, rfl⟩, hselects⟩ := hself
    have hnode := habbreviable rfl
    rw [isAbbreviable, hselects] at hnode
    cases hnode
  · split
    · cases habbreviable rfl
    · cases habbreviable rfl
    · rfl

theorem ofFilter_of_isUnsettled (h : predicate.isUnsettled = true) :
    ofFilter F base predicate = .ok (filter base predicate) := by
  unfold ofFilter
  split
  · rfl
  · rename_i v hnumber
    cases v with
    | number x => exact absurd rfl (hnumber x)
    | boolean | string | nodeSet | fragment | object => cases h
  · rfl

theorem ofSetOperation_of_atRest {op : SetOperator} (h : (setOperation op lhs rhs).AtRest) :
    ofSetOperation F op lhs rhs = setOperation op lhs rhs := by
  obtain ⟨hleft, hright, hliteral⟩ := h
  unfold ofSetOperation
  rw [hleft, hright]
  split <;> first | contradiction | skip
  split
  · cases hliteral
  · rfl

theorem ofCall_of_atRest {function : Builtin} {args : List Expr} {binding : CallBinding}
    (h : (call function args binding).AtRest) :
    ofCall F function args binding = .ok (call function args binding) := by
  simp only [AtRest, isConstantCall, Bool.or_eq_false_iff, beq_eq_false_iff_ne] at h
  obtain ⟨⟨htrue, hfalse⟩, hconstant⟩ := h
  unfold ofCall
  split
  · exact absurd rfl htrue
  · exact absurd rfl hfalse
  · rw [if_neg (Bool.eq_false_iff.mp hconstant)]

theorem ofNegation_of_atRest (h : (negate e).AtRest) : ofNegation F e = .ok (negate e) := by
  unfold ofNegation
  split
  · cases h
  · rfl

theorem ofNodeComparison_of_atRest {v : Value} (h : (nodeComparison e op v).AtRest) :
    ofNodeComparison F e op v = .ok (nodeComparison e op v) := by
  unfold ofNodeComparison
  rw [if_neg (Bool.eq_false_iff.mp h)]

theorem ofTemplate_of_isTemplate (h : IsTemplate parts) : ofTemplate parts = template parts := by
  unfold ofTemplate
  rw [joinTexts_eq h.joined]
  split
  · exact absurd rfl h.ne_nil
  · exact absurd rfl (h.ne_text _)
  · rfl

mutual

theorem IsNormal.simplify_eq {e : Expr} (h : e.IsNormal) : e.simplify F = .ok e := by
  match e with
  | literal v | contextNode | parentNode | root | attributeNamed name display parent
  | failure error => rw [simplify]
  | reference name display constant =>
      rw [IsNormal, Every] at h
      obtain rfl : constant = none := h
      rw [simplify]
  | binary op lhs rhs =>
      rw [IsNormal, Every] at h
      rw [simplify, IsNormal.simplify_eq h.2.1, IsNormal.simplify_eq h.2.2]
      exact ofBinary_of_atRest h.1
  | negate e =>
      rw [IsNormal, Every] at h
      rw [simplify, IsNormal.simplify_eq h.2]
      exact ofNegation_of_atRest h.1
  | nodeComparison node op v =>
      rw [IsNormal, Every] at h
      rw [simplify, IsNormal.simplify_eq h.2]
      exact ofNodeComparison_of_atRest h.1
  | path start axis test predicates =>
      rw [IsNormal, Every] at h
      obtain ⟨hrest, hstart, hpredicates⟩ := h
      rw [simplify, IsNormal.simplify_eq hstart, ok_bind, hrest.1, hrest.2.1,
        simplifyPredicates_eq hpredicates hrest.2.2.1]
      exact congrArg Except.ok (ofPath_of_atRest hrest)
  | filter base predicate =>
      rw [IsNormal, Every] at h
      obtain ⟨⟨hempty, hunsettled⟩, hbase, hpredicate⟩ := h
      rw [simplify, IsNormal.simplify_eq hbase, ok_bind, hempty, IsNormal.simplify_eq hpredicate]
      exact ofFilter_of_isUnsettled hunsettled
  | setOperation op lhs rhs =>
      rw [IsNormal, Every] at h
      rw [simplify, IsNormal.simplify_eq h.2.1, IsNormal.simplify_eq h.2.2]
      exact congrArg Except.ok (ofSetOperation_of_atRest h.1)
  | call function args binding =>
      rw [IsNormal, Every] at h
      rw [simplify, simplifyList_eq h.2]
      exact ofCall_of_atRest h.1
  | extension name display function args =>
      rw [IsNormal, Every] at h
      rw [simplify, simplifyList_eq h.2]
      rfl
  | sorted selection keys =>
      rw [IsNormal, Every] at h
      obtain ⟨hempty, hselection, hkeys⟩ := h
      rw [simplify, IsNormal.simplify_eq hselection, ok_bind, if_neg (Bool.eq_false_iff.mp hempty),
        simplifyKeys_eq hkeys, ok_bind, ofSorted, if_neg (Bool.eq_false_iff.mp hempty)]
      rfl
  | template parts =>
      rw [IsNormal, Every] at h
      rw [simplify, simplifyParts_eq h.2 h.1.unsettled]
      exact congrArg Except.ok (ofTemplate_of_isTemplate h.1)
termination_by structural e

theorem simplifyList_eq {es : List Expr} (h : EveryOfList AtRest es) :
    simplifyList F es = .ok es := by
  match es with
  | [] => rw [simplifyList]
  | e :: es =>
      rw [EveryOfList] at h
      rw [simplifyList, IsNormal.simplify_eq h.1, ok_bind, simplifyList_eq h.2]
      rfl
termination_by structural es

theorem simplifyPredicates_eq {es : List Expr} (h : EveryOfList AtRest es)
    (hunsettled : ∀ p ∈ es, p.isUnsettled = true) : simplifyPredicates F es = .ok (some es) := by
  match es with
  | [] => rw [simplifyPredicates]
  | e :: es =>
      rw [EveryOfList] at h
      rw [List.forall_mem_cons] at hunsettled
      rw [simplifyPredicates, IsNormal.simplify_eq h.1, ok_bind,
        simplifyPredicates_eq h.2 hunsettled.2]
      split
      · rfl
      · rename_i v hnumber
        cases v with
        | number x => exact absurd rfl (hnumber x)
        | boolean | string | nodeSet | fragment | object => cases hunsettled.1
      · rfl
termination_by structural es

theorem simplifyOption_eq {e : Option Expr} (h : EveryOfOption AtRest e) :
    simplifyOption F e = .ok e := by
  match e with
  | none => rw [simplifyOption]
  | some e =>
      rw [EveryOfOption] at h
      rw [simplifyOption, IsNormal.simplify_eq h]
      rfl
termination_by structural e

theorem simplifyKeys_eq {ks : List SortKey} (h : EveryOfKeys AtRest ks) :
    simplifyKeys F ks = .ok ks := by
  match ks with
  | [] => rw [simplifyKeys]
  | .mk key order dataType caseOrder lang :: ks =>
      rw [EveryOfKeys] at h
      obtain ⟨hkey, horder, htype, hcase, hlang, hks⟩ := h
      rw [simplifyKeys, simplifyKey, IsNormal.simplify_eq hkey, simplifyOption_eq horder,
        simplifyOption_eq htype, simplifyOption_eq hcase, simplifyOption_eq hlang,
        simplifyKeys_eq hks]
      rfl
termination_by structural ks

theorem simplifyParts_eq {ps : List TemplatePart} (h : EveryOfParts AtRest ps)
    (hconstant : ∀ p ∈ ps, p.isConstant = false) : simplifyParts F ps = .ok ps := by
  match ps with
  | [] => rw [simplifyParts]
  | .text text :: ps =>
      rw [EveryOfParts] at h
      rw [List.forall_mem_cons] at hconstant
      rw [simplifyParts, simplifyPart, simplifyParts_eq h hconstant.2]
      rfl
  | .expr e :: ps =>
      rw [EveryOfParts] at h
      rw [List.forall_mem_cons] at hconstant
      rw [simplifyParts, simplifyPart, IsNormal.simplify_eq h.1, simplifyParts_eq h.2 hconstant.2]
      cases e <;> first | rfl | cases hconstant.1
termination_by structural ps

end

end Expr

/-! ## Patterns -/

namespace Pattern

variable {test : NodeTest} {parent ancestor : Option Pattern}

/-- A step stays a step, or becomes a pattern that has no parts. -/
theorem ofParts_cases (test : NodeTest) (parent ancestor : Option Pattern)
    (predicates : List Expr) :
    ofParts test parent ancestor predicates =
        location test parent ancestor predicates (checkFor test predicates) ∨
      (ofParts test parent ancestor predicates).simplify F =
        .ok (ofParts test parent ancestor predicates) := by
  unfold ofParts
  split
  · right
    rw [never, simplify]
  · split
    · right
      split <;> rw [simplify]
    · left
      rfl

/-- A step over parts that simplification leaves as they are is left as it is. -/
theorem simplify_ofParts (hparent : simplifyOption F parent = .ok parent)
    (hancestor : simplifyOption F ancestor = .ok ancestor)
    (hpredicates : Expr.simplifyPredicates F predicates = .ok (some predicates)) :
    (ofParts test parent ancestor predicates).simplify F =
      .ok (ofParts test parent ancestor predicates) := by
  obtain hstep | hleaf := ofParts_cases (F := F) test parent ancestor predicates
  · conv_lhs => rw [hstep, simplify, hparent, hancestor, hpredicates]
    rfl
  · exact hleaf

mutual

theorem simplify_idem {p p' : Pattern} (h : p.simplify F = .ok p') : p'.simplify F = .ok p' := by
  match p with
  | document | nodeKind k | anyChild | named test | id value | key name display value =>
      rw [simplify] at h
      cases h
      rw [simplify]
  | union a b =>
      rw [simplify] at h
      obtain ⟨a', ha, h⟩ := bind_eq_ok.mp h
      obtain ⟨b', hb, h⟩ := bind_eq_ok.mp h
      cases h
      rw [simplify, simplify_idem ha, simplify_idem hb]
      rfl
  | location test parent ancestor predicates check =>
      rw [simplify] at h
      obtain ⟨parent', hparent, h⟩ := bind_eq_ok.mp h
      obtain ⟨ancestor', hancestor, h⟩ := bind_eq_ok.mp h
      obtain ⟨kept, hkept, h⟩ := bind_eq_ok.mp h
      cases kept with
      | none =>
          cases h
          rw [never, simplify]
      | some predicates' =>
          cases h
          exact simplify_ofParts (simplifyOption_idem hparent) (simplifyOption_idem hancestor)
            (Expr.simplifyPredicates_eq (Expr.isNormal_of_simplifyPredicates hkept predicates' rfl)
              (Expr.unsettled_of_simplifyPredicates hkept predicates' rfl))
termination_by structural p

theorem simplifyOption_idem {p p' : Option Pattern} (h : simplifyOption F p = .ok p') :
    simplifyOption F p' = .ok p' := by
  match p with
  | none =>
      rw [simplifyOption] at h
      cases h
      rw [simplifyOption]
  | some p =>
      rw [simplifyOption] at h
      obtain ⟨p', hp, h⟩ := bind_eq_ok.mp h
      cases h
      rw [simplifyOption, simplify_idem hp]
      rfl
termination_by structural p

end

end Pattern

/-! ## The result -/

/-- One pass of simplification reaches a normal form: what it gives is at rest in every part, and a
second pass, over an expression or over a pattern, gives it again. -/
theorem simplify_reaches_normal_form (F : Forest) :
    (∀ e e' : Expr, e.simplify F = .ok e' → e'.simplify F = .ok e' ∧ e'.IsNormal) ∧
      ∀ p p' : Pattern, p.simplify F = .ok p' → p'.simplify F = .ok p' := by
  refine ⟨fun e e' he => ?_, fun p p' => Pattern.simplify_idem⟩
  have hnormal := Expr.isNormal_of_simplify he
  exact ⟨hnormal.simplify_eq, hnormal⟩

/-- `@a[true()]` becomes the attribute `a` once the predicate is dropped, and the pattern
`a[true()]` becomes the test for elements `a`. -/
theorem simplify_reaches_normal_form_attribute :
    (Expr.path .contextNode .attributeAxis ⟨.attributeNode, .named (.unprefixed "a")⟩
        [.call .true [] .free]).simplify .nested =
          .ok (.attributeNamed (.unprefixed "a") "a" none) ∧
      (Expr.attributeNamed (.unprefixed "a") "a" none).simplify .nested =
          .ok (.attributeNamed (.unprefixed "a") "a" none) ∧
        (Expr.attributeNamed (.unprefixed "a") "a" none).IsNormal ∧
      (Pattern.step ⟨.element, .named (.unprefixed "a")⟩ [.call .true [] .free]).simplify .nested =
          .ok (.named ⟨.element, .named (.unprefixed "a")⟩) ∧
        (Pattern.named ⟨.element, .named (.unprefixed "a")⟩).simplify .nested =
          .ok (.named ⟨.element, .named (.unprefixed "a")⟩) := by
  obtain ⟨hexpr, hpattern⟩ := simplify_reaches_normal_form .nested
  have hattribute := hexpr (.path .contextNode .attributeAxis
    ⟨.attributeNode, .named (.unprefixed "a")⟩ [.call .true [] .free]) _ rfl
  have helement := hpattern (.step ⟨.element, .named (.unprefixed "a")⟩ [.call .true [] .free]) _ rfl
  exact ⟨rfl, hattribute.1, hattribute.2, rfl, helement⟩

end XPath
