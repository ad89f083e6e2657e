import XPath.Expr.Template
import XPath.Proofs.Expr.Simplify
import XPath.Proofs.Meaning.Reading

/-!
# Expressions that come from texts

What the reader builds is regular, and simplification keeps it so.
-/

namespace XPath

variable {F : Forest} {e e' lhs rhs start base predicate : Expr} {op : BinaryOperator}

namespace Expr

abbrev IsRegular (F : Forest) (e : Expr) : Prop := e.Every (Regular F)

/-! ## Simplification -/

theorem isRegular_literal (v : Value) : (literal v).IsRegular F := by
  rw [IsRegular, Every]
  trivial

theorem isRegular_binary (hlhs : lhs.IsRegular F) (hrhs : rhs.IsRegular F) :
    (binary op lhs rhs).IsRegular F := by
  rw [IsRegular, Every]
  exact ⟨trivial, hlhs, hrhs⟩

theorem isRegular_negate (h : e.IsRegular F) : (negate e).IsRegular F := by
  rw [IsRegular, Every]
  exact ⟨trivial, h⟩

theorem isRegular_path {axis : Axis} {test : NodeTest} {predicates : List Expr}
    (hfits : test.Fits axis) (hstart : start.IsRegular F)
    (hpredicates : EveryOfList (Regular F) predicates) :
    (path start axis test predicates).IsRegular F := by
  rw [IsRegular, Every]
  exact ⟨hfits, hstart, hpredicates⟩

theorem isRegular_filter (hbase : base.IsRegular F) (hpredicate : predicate.IsRegular F) :
    (filter base predicate).IsRegular F := by
  rw [IsRegular, Every]
  exact ⟨trivial, hbase, hpredicate⟩

theorem isRegular_setOperation {op : SetOperator} (hlhs : lhs.IsRegular F)
    (hrhs : rhs.IsRegular F) : (setOperation op lhs rhs).IsRegular F := by
  rw [IsRegular, Every]
  exact ⟨trivial, hlhs, hrhs⟩

theorem isRegular_call {function : Builtin} {args : List Expr} {binding : CallBinding}
    (hbinding : binding.Sound F) (hargs : EveryOfList (Regular F) args) :
    (call function args binding).IsRegular F := by
  rw [IsRegular, Every]
  exact ⟨hbinding, hargs⟩

theorem isRegular_nodeComparison {v : Value} (hnode : e.isSingleton = true)
    (hv : v.dataType = .string ∨ v.dataType = .number) (h : e.IsRegular F) :
    (nodeComparison e op v).IsRegular F := by
  rw [IsRegular, Every]
  exact ⟨⟨hnode, hv⟩, h⟩

theorem dataType_of_isComparable {v : Value} (hv : e.isComparable = some v) :
    v.dataType = .string ∨ v.dataType = .number := by
  unfold isComparable at hv
  split at hv
  · cases hv
    exact Or.inl rfl
  · cases hv
    exact Or.inr rfl
  · cases hv

/-- Joining texts leaves the expressions of a template as they are. -/
theorem EveryOfParts.joinTexts {p : Expr → Prop} {parts : List TemplatePart}
    (h : EveryOfParts p parts) : EveryOfParts p (Expr.joinTexts parts) := by
  induction parts with
  | nil => trivial
  | cons part parts ih =>
      cases part with
      | expr e =>
          rw [EveryOfParts] at h
          change EveryOfParts p (.expr e :: Expr.joinTexts parts)
          rw [EveryOfParts]
          exact ⟨h.1, ih h.2⟩
      | text a =>
          rw [EveryOfParts] at h
          have hrest := ih h
          rw [Expr.joinTexts]
          split
          · rename_i hjoin
            rw [hjoin, EveryOfParts] at hrest
            rwa [EveryOfParts]
          · rwa [EveryOfParts]

theorem IsRegular.rewrites (h : e.IsRegular F) (hr : Rewrites F e e') : e'.IsRegular F := by
  cases hr with
  | atRest => exact h
  | constant | folded | andFalse | orTrue | negated | compared | fails | nothing | combined
  | callTrue | callFalse | evaluated | text => exact isRegular_literal _
  | andTrue | orFalse =>
      rw [IsRegular, Every] at h
      refine isRegular_call (sound_free F) ?_
      rw [EveryOfList]
      exact ⟨h.2.2, trivial⟩
  | leftNode _ hnode hv =>
      rw [IsRegular, Every] at h
      exact isRegular_nodeComparison hnode (dataType_of_isComparable hv) h.2.1
  | rightNode _ hnode hv =>
      rw [IsRegular, Every] at h
      exact isRegular_nodeComparison hnode (dataType_of_isComparable hv) h.2.2
  | selfStep | holds | left =>
      rw [IsRegular, Every] at h
      exact h.2.1
  | right =>
      rw [IsRegular, Every] at h
      exact h.2.2
  | parentStep =>
      rw [IsRegular, Every]
      trivial
  | attributeStep =>
      rw [IsRegular, Every]
      rintro n ⟨⟩
  | joined =>
      rw [IsRegular, Every] at h ⊢
      exact ⟨trivial, h.2.joinTexts⟩

mutual

theorem IsRegular.simplify {e e' : Expr} (h : e.IsRegular F) (he : e.simplify F = .ok e') :
    e'.IsRegular F := by
  match e with
  | literal v | contextNode | parentNode | root | attributeNamed name display parent
  | failure error =>
      rw [Expr.simplify] at he
      cases he
      exact h
  | reference name display constant => exact h.rewrites (simplify_reference he)
  | binary op lhs rhs =>
      rw [IsRegular, Every] at h
      obtain ⟨lhs', rhs', hlhs, hrhs, hr⟩ := simplify_binary he
      exact (isRegular_binary (IsRegular.simplify h.2.1 hlhs)
        (IsRegular.simplify h.2.2 hrhs)).rewrites hr
  | negate e =>
      rw [IsRegular, Every] at h
      obtain ⟨operand, hoperand, hr⟩ := simplify_negate he
      exact (isRegular_negate (IsRegular.simplify h.2 hoperand)).rewrites hr
  | nodeComparison node op v =>
      obtain ⟨node', hsame, hr⟩ := simplify_nodeComparison he
      refine IsRegular.rewrites ?_ hr
      rw [IsRegular, Every] at h
      rw [simplify_of_isSingleton h.1.1] at hsame
      cases hsame
      exact isRegular_nodeComparison h.1.1 h.1.2 h.2
  | path start axis test predicates =>
      rw [IsRegular, Every] at h
      obtain ⟨start', hstart, hcases⟩ := simplify_path he
      rcases hcases with ⟨-, rfl⟩ | ⟨-, rfl⟩ | ⟨predicates', hkept, hr⟩
      · exact isRegular_literal _
      · exact isRegular_literal _
      · exact (isRegular_path h.1 (IsRegular.simplify h.2.1 hstart)
          (EveryOfList.simplifyPredicates h.2.2 hkept predicates' rfl)).rewrites hr
  | filter base predicate =>
      rw [IsRegular, Every] at h
      obtain ⟨base', hbase, hcases⟩ := simplify_filter he
      rcases hcases with ⟨-, rfl⟩ | ⟨predicate', hpredicate, hr⟩
      · exact isRegular_literal _
      · exact (isRegular_filter (IsRegular.simplify h.2.1 hbase)
          (IsRegular.simplify h.2.2 hpredicate)).rewrites hr
  | setOperation op lhs rhs =>
      rw [IsRegular, Every] at h
      obtain ⟨lhs', rhs', hlhs, hrhs, hr⟩ := simplify_setOperation he
      exact (isRegular_setOperation (IsRegular.simplify h.2.1 hlhs)
        (IsRegular.simplify h.2.2 hrhs)).rewrites hr
  | call function args binding =>
      rw [IsRegular, Every] at h
      obtain ⟨args', hargs, hr⟩ := simplify_call he
      exact (isRegular_call h.1 (EveryOfList.simplifyList h.2 hargs)).rewrites hr
  | extension name display function args =>
      obtain ⟨args', hargs, rfl⟩ := simplify_extension he
      rw [IsRegular, Every] at h ⊢
      exact ⟨trivial, EveryOfList.simplifyList h.2 hargs⟩
  | sorted selection keys =>
      rw [IsRegular, Every] at h
      obtain ⟨selection', hselection, hcases⟩ := simplify_sorted he
      have hselection' := IsRegular.simplify h.2.1 hselection
      rcases hcases with ⟨-, rfl⟩ | ⟨-, keys', hkeys, rfl⟩
      · exact hselection'
      · rw [IsRegular, Every]
        exact ⟨trivial, hselection', EveryOfKeys.simplifyKeys h.2.2 hkeys⟩
  | template parts =>
      rw [IsRegular, Every] at h
      obtain ⟨parts', hparts, hr⟩ := simplify_template he
      refine IsRegular.rewrites ?_ hr
      rw [IsRegular, Every]
      exact ⟨trivial, EveryOfParts.simplifyParts h.2 hparts⟩
termination_by structural e

theorem EveryOfList.simplifyList {es es' : List Expr} (h : EveryOfList (Regular F) es)
    (he : Expr.simplifyList F es = .ok es') : EveryOfList (Regular F) es' := by
  match es with
  | [] =>
      rw [Expr.simplifyList] at he
      cases he
      trivial
  | e :: es =>
      obtain ⟨e', es', he', hes', rfl⟩ := simplifyList_cons he
      rw [EveryOfList] at h ⊢
      exact ⟨IsRegular.simplify h.1 he', EveryOfList.simplifyList h.2 hes'⟩
termination_by structural es

theorem EveryOfList.simplifyPredicates {es : List Expr} {kept : Option (List Expr)}
    (h : EveryOfList (Regular F) es) (he : Expr.simplifyPredicates F es = .ok kept) :
    ∀ es' ∈ kept, EveryOfList (Regular F) es' := by
  match es with
  | [] =>
      rw [Expr.simplifyPredicates] at he
      cases he
      rintro es' ⟨rfl⟩
      trivial
  | e :: es =>
      rw [EveryOfList] at h
      obtain ⟨e', he', hkept⟩ := simplifyPredicates_cons he
      rcases hkept with ⟨rest, hrest, rfl, -⟩ | ⟨v, holds, rfl, -, -, hkept⟩
      · intro es' hes'
        obtain ⟨rest', hmem, rfl⟩ := Option.map_eq_some_iff.mp hes'
        rw [EveryOfList]
        exact ⟨IsRegular.simplify h.1 he', EveryOfList.simplifyPredicates h.2 hrest rest' hmem⟩
      · split at hkept
        · exact EveryOfList.simplifyPredicates h.2 hkept
        · subst hkept
          rintro es' ⟨⟩
termination_by structural es

theorem EveryOfOption.simplifyOption {e e' : Option Expr} (h : EveryOfOption (Regular F) e)
    (he : Expr.simplifyOption F e = .ok e') : EveryOfOption (Regular F) e' := by
  match e with
  | none =>
      rw [Expr.simplifyOption] at he
      cases he
      trivial
  | some e =>
      rw [EveryOfOption] at h
      obtain ⟨e', he', rfl⟩ := simplifyOption_some he
      exact IsRegular.simplify h he'
termination_by structural e

theorem EveryOfKeys.simplifyKeys {ks ks' : List SortKey} (h : EveryOfKeys (Regular F) ks)
    (he : Expr.simplifyKeys F ks = .ok ks') : EveryOfKeys (Regular F) ks' := by
  match ks with
  | [] =>
      rw [Expr.simplifyKeys] at he
      cases he
      trivial
  | .mk key order dataType caseOrder lang :: ks =>
      rw [EveryOfKeys] at h
      obtain ⟨key', order', dataType', caseOrder', lang', ks', hkey, horder, htype, hcase, hlang,
        hks', rfl⟩ := simplifyKeys_cons he
      rw [EveryOfKeys]
      exact ⟨IsRegular.simplify h.1 hkey, EveryOfOption.simplifyOption h.2.1 horder,
        EveryOfOption.simplifyOption h.2.2.1 htype, EveryOfOption.simplifyOption h.2.2.2.1 hcase,
        EveryOfOption.simplifyOption h.2.2.2.2.1 hlang, EveryOfKeys.simplifyKeys h.2.2.2.2.2 hks'⟩
termination_by structural ks

theorem EveryOfParts.simplifyParts {ps ps' : List TemplatePart}
    (h : EveryOfParts (Regular F) ps) (he : Expr.simplifyParts F ps = .ok ps') :
    EveryOfParts (Regular F) ps' := by
  match ps with
  | [] =>
      rw [Expr.simplifyParts] at he
      cases he
      trivial
  | .text text :: ps =>
      obtain ⟨rest, hrest, rfl⟩ := simplifyParts_text he
      rw [EveryOfParts] at h ⊢
      exact EveryOfParts.simplifyParts h hrest
  | .expr e :: ps =>
      obtain ⟨e', rest, he', hrest, hpart⟩ := simplifyParts_expr he
      rw [EveryOfParts] at h
      have hrest' := EveryOfParts.simplifyParts h.2 hrest
      rcases hpart with ⟨v, t, -, -, rfl⟩ | ⟨-, rfl⟩
      · rwa [EveryOfParts]
      · rw [EveryOfParts]
        exact ⟨IsRegular.simplify h.1 he', hrest'⟩
termination_by structural ps

end

end Expr

end XPath
