import Mathlib.Data.List.Chain
import XPath.Expr.Simplify
import XPath.Proofs.Result

/-!
# The rules of simplification

`Rewrites` lists once what the rules make of an expression whose parts are simplified, and an
expression is `AtRest` if none of them applies to it as a whole. For every sort of expression
`simplify_binary`, `simplify_path` and so on say which parts are simplified before a rule looks at the
whole. What simplification keeps is proved from these, rule by rule.
-/

namespace XPath

variable {F : Forest} {e e' lhs rhs start base predicate selection : Expr} {op : BinaryOperator}
  {axis : Axis} {test : NodeTest} {predicates es : List Expr} {parts ps : List TemplatePart}

namespace TemplatePart

def isText : TemplatePart → Bool
  | text _ => true
  | expr _ => false

def isConstant : TemplatePart → Bool
  | text _ => false
  | expr e => e.isLiteral

end TemplatePart

namespace Expr

/-! ## Expressions at rest -/

/-- A predicate that is no constant truth value: a literal counts only as a position. -/
def isUnsettled : Expr → Bool
  | literal (.number _) => true
  | e => !e.isLiteral

def isNodeSetLiteral : Expr → Bool
  | literal (.nodeSet _) => true
  | _ => false

/-- A comparison that has a form of its own: one node with a constant string or number. -/
def comparesOneNode (lhs rhs : Expr) : Bool :=
  (lhs.isSingleton && rhs.isComparable.isSome) || (rhs.isSingleton && lhs.isComparable.isSome)

/-- A step without predicates that has a form of its own: `self::node()` after nodes, `..`, and an
attribute of the context node. -/
def isAbbreviable : Expr → Axis → NodeTest → Bool
  | start, .selfAxis, ⟨.node, _⟩ => start.isNodeSetExpression
  | contextNode, .parent, ⟨.node, _⟩ => true
  | contextNode, .attributeAxis, ⟨.attributeNode, .named _⟩ => true
  | _, _, _ => false

def isConstantCall (function : Builtin) (args : List Expr) (binding : CallBinding) : Bool :=
  function == .true || function == .false ||
    ((intrinsicDependencies function args.length binding).isEmpty && args.all isLiteral)

/-- Parts that make up a template: more than one text, and no two texts side by side. -/
structure IsTemplate (parts : List TemplatePart) : Prop where
  unsettled : ∀ p ∈ parts, p.isConstant = false
  joined : parts.IsChain fun p q => (p.isText && q.isText) = false
  ne_nil : parts ≠ []
  ne_text : ∀ text, parts ≠ [.text text]

/-- No rule of simplification applies to the expression as a whole. -/
def AtRest : Expr → Prop
  | reference _ _ constant => constant = none
  | binary op lhs rhs =>
      (lhs.isLiteral && rhs.isLiteral) = false ∧ (op.isBoolean = true → lhs.isLiteral = false) ∧
        (op.isComparison = true → comparesOneNode lhs rhs = false)
  | negate e => e.isLiteral = false
  | nodeComparison node _ _ => node.isLiteral = false
  | path start axis test predicates =>
      start.isEmptyNodeSet = false ∧ isImpossible axis test.kind = false ∧
        (∀ p ∈ predicates, p.isUnsettled = true) ∧
          (predicates = [] → isAbbreviable start axis test = false)
  | filter base predicate => base.isEmptyNodeSet = false ∧ predicate.isUnsettled = true
  | setOperation _ lhs rhs =>
      lhs.isEmptyNodeSet = false ∧ rhs.isEmptyNodeSet = false ∧
        (lhs.isNodeSetLiteral && rhs.isNodeSetLiteral) = false
  | call function args binding => isConstantCall function args binding = false
  | sorted selection _ => selection.isEmptyNodeSet = false
  | template parts => IsTemplate parts
  | _ => True

/-! ## The rules -/

/-- A rule makes the second expression of the first, whose parts are simplified; what is at rest stays
as it is. -/
inductive Rewrites (F : Forest) : Expr → Expr → Prop
  | atRest {e : Expr} (h : e.AtRest) : Rewrites F e e
  | constant (name : ExpandedName) (display : String) (v : Value) :
      Rewrites F (reference name display (some v)) (literal v)
  /-- Two constants are combined at once. -/
  | folded {op : BinaryOperator} {a b v : Value}
      (hv : (Engine.constants F).binary F op (literal a) (literal b) .standalone = .ok v) :
      Rewrites F (binary op (literal a) (literal b)) (literal v)
  | andFalse {a : Value} {rhs : Expr} (ha : a.toBool F = .ok false) :
      Rewrites F (binary .and (literal a) rhs) (boolean false)
  | orTrue {a : Value} {rhs : Expr} (ha : a.toBool F = .ok true) :
      Rewrites F (binary .or (literal a) rhs) (boolean true)
  | andTrue {a : Value} {rhs : Expr} (ha : a.toBool F = .ok true) (hrhs : rhs.isLiteral = false) :
      Rewrites F (binary .and (literal a) rhs) (call .boolean [rhs] .free)
  | orFalse {a : Value} {rhs : Expr} (ha : a.toBool F = .ok false) (hrhs : rhs.isLiteral = false) :
      Rewrites F (binary .or (literal a) rhs) (call .boolean [rhs] .free)
  | leftNode {op : BinaryOperator} {lhs rhs : Expr} {v : Value} (hop : op.isComparison = true)
      (hnode : lhs.isSingleton = true) (hv : rhs.isComparable = some v)
      (hlhs : lhs.isLiteral = false) :
      Rewrites F (binary op lhs rhs) (nodeComparison lhs op v)
  | rightNode {op : BinaryOperator} {lhs rhs : Expr} {v : Value} (hop : op.isComparison = true)
      (hnode : rhs.isSingleton = true) (hv : lhs.isComparable = some v)
      (hrhs : rhs.isLiteral = false) :
      Rewrites F (binary op lhs rhs) (nodeComparison rhs op.inverse v)
  | negated {v : Value} {x : Float} (hx : v.toNumber F = .ok x) :
      Rewrites F (negate (literal v)) (number (-x))
  | compared {op : BinaryOperator} {u v : Value} {b : Bool}
      (hb : (Engine.constants F).compareNode F (literal u) op v .standalone = .ok b) :
      Rewrites F (nodeComparison (literal u) op v) (boolean b)
  | selfStep {start : Expr} {test : NodeTest} (hkind : test.kind = .node)
      (hstart : start.isNodeSetExpression = true) :
      Rewrites F (path start .selfAxis test []) start
  | parentStep (name : NameTest) : Rewrites F (path contextNode .parent ⟨.node, name⟩ []) parentNode
  | attributeStep (name : ExpandedName) :
      Rewrites F (path contextNode .attributeAxis ⟨.attributeNode, .named name⟩ [])
        (attributeNamed name name.display none)
  | holds {base : Expr} {v : Value} (hnumber : ∀ x, v ≠ .number x) (hv : v.toBool F = .ok true) :
      Rewrites F (filter base (literal v)) base
  | fails {base : Expr} {v : Value} (hnumber : ∀ x, v ≠ .number x) (hv : v.toBool F = .ok false) :
      Rewrites F (filter base (literal v)) emptyNodeSet
  /-- The union with the empty set, or what remains when nothing is taken away. -/
  | left {op : SetOperator} {lhs rhs : Expr} (hop : op ≠ .intersect)
      (hrhs : rhs.isEmptyNodeSet = true) : Rewrites F (setOperation op lhs rhs) lhs
  | right {lhs rhs : Expr} (hlhs : lhs.isEmptyNodeSet = true) :
      Rewrites F (setOperation .union lhs rhs) rhs
  | nothing {op : SetOperator} {lhs rhs : Expr}
      (h : op ≠ .union ∧ lhs.isEmptyNodeSet = true ∨ op = .intersect ∧ rhs.isEmptyNodeSet = true) :
      Rewrites F (setOperation op lhs rhs) emptyNodeSet
  | combined (op : SetOperator) (a b : NodeSet) :
      Rewrites F (setOperation op (literal (.nodeSet a)) (literal (.nodeSet b)))
        (literal (.nodeSet (.combine F op a b)))
  | callTrue (args : List Expr) (binding : CallBinding) :
      Rewrites F (call .true args binding) (boolean true)
  | callFalse (args : List Expr) (binding : CallBinding) :
      Rewrites F (call .false args binding) (boolean false)
  /-- A call that reads nothing of the context. -/
  | evaluated {function : Builtin} {args : List Expr} {binding : CallBinding} {v : Value}
      (hown : (intrinsicDependencies function args.length binding).isEmpty = true)
      (hargs : args.all isLiteral = true)
      (hv : CallFrame.run ⟨.constants F, F, function, args, binding, .standalone⟩ = .ok v) :
      Rewrites F (call function args binding) (literal v)
  | text {parts : List TemplatePart} {text : String}
      (h : joinTexts parts = [] ∧ text = "" ∨ joinTexts parts = [.text text]) :
      Rewrites F (template parts) (string text)
  | joined {parts : List TemplatePart} (h : IsTemplate (joinTexts parts)) :
      Rewrites F (template parts) (template (joinTexts parts))

theorem exists_of_isLiteral (h : e.isLiteral = true) : ∃ v, e = literal v := by
  cases e with
  | literal v => exact ⟨v, rfl⟩
  | _ => cases h

theorem literal_of_isComparable {v : Value} (h : e.isComparable = some v) : e = literal v := by
  unfold isComparable at h
  split at h <;> cases h <;> rfl

theorem isLiteral_eq_false (h : ∀ v, e ≠ literal v) : e.isLiteral = false := by
  cases e with
  | literal v => exact absurd rfl (h v)
  | _ => rfl

theorem isSome_eq_false_of_forall {b : Bool} {o : Option Value} :
    (b && o.isSome) = false ↔ ∀ v, b = true → o = some v → False := by
  cases b <;> cases o <;> simp

/-! ### Operators -/

theorem isComparison_of_isBoolean (hop : op.isBoolean = true) : op.isComparison = false := by
  cases op <;> first | rfl | cases hop

theorem rewrites_ofComparison (hop : op.isComparison = true)
    (hconstant : (lhs.isLiteral && rhs.isLiteral) = false) :
    Rewrites F (binary op lhs rhs) (ofComparison op lhs rhs) := by
  unfold ofComparison
  split
  · rename_i v hnode hv
    obtain rfl := literal_of_isComparable hv
    exact .leftNode hop hnode hv (by simpa [isLiteral] using hconstant)
  · rename_i hleft
    split
    · rename_i v hnode hv
      obtain rfl := literal_of_isComparable hv
      exact .rightNode hop hnode hv (by simpa [isLiteral] using hconstant)
    · rename_i hright
      refine .atRest ⟨hconstant, fun h => ?_, fun _ => ?_⟩
      · rw [isComparison_of_isBoolean h] at hop
        cases hop
      · rw [comparesOneNode, isSome_eq_false_of_forall.mpr hleft,
          isSome_eq_false_of_forall.mpr hright]
        rfl

theorem rewrites_ofBinary (he : ofBinary F op lhs rhs = .ok e') :
    Rewrites F (binary op lhs rhs) e' := by
  unfold ofBinary at he
  split at he
  · rename_i hliteral
    rw [Bool.and_eq_true] at hliteral
    obtain ⟨a, rfl⟩ := exists_of_isLiteral hliteral.1
    obtain ⟨b, rfl⟩ := exists_of_isLiteral hliteral.2
    obtain ⟨v, hv, rfl⟩ := map_eq_ok.mp he
    exact .folded hv
  · rename_i hconstant
    rw [Bool.not_eq_true] at hconstant
    split at he
    · rename_i hop
      split at he
      · rename_i a
        obtain ⟨known, hknown, he⟩ := bind_eq_ok.mp he
        have hrhs : rhs.isLiteral = false := by simpa [isLiteral] using hconstant
        cases op with
        | and =>
            cases known with
            | false =>
                cases he
                exact .andFalse hknown
            | true =>
                cases he
                exact .andTrue hknown hrhs
        | or =>
            cases known with
            | false =>
                cases he
                exact .orFalse hknown hrhs
            | true =>
                cases he
                exact .orTrue hknown
        | _ => cases hop
      · rename_i hliteral
        cases he
        refine .atRest ⟨hconstant, fun _ => isLiteral_eq_false hliteral, fun h => ?_⟩
        rw [isComparison_of_isBoolean hop] at h
        cases h
    · rename_i hop
      split at he
      · cases he
        exact rewrites_ofComparison (by assumption) hconstant
      · rename_i hcomparison
        cases he
        exact .atRest ⟨hconstant, fun h => absurd h hop, fun h => absurd h hcomparison⟩

theorem rewrites_ofNegation (he : ofNegation F e = .ok e') : Rewrites F (negate e) e' := by
  unfold ofNegation at he
  split at he
  · obtain ⟨x, hx, rfl⟩ := map_eq_ok.mp he
    exact .negated hx
  · rename_i hliteral
    cases he
    exact .atRest (isLiteral_eq_false hliteral)

theorem rewrites_ofNodeComparison {v : Value} (he : ofNodeComparison F e op v = .ok e') :
    Rewrites F (nodeComparison e op v) e' := by
  unfold ofNodeComparison at he
  split at he
  · rename_i hliteral
    obtain ⟨u, rfl⟩ := exists_of_isLiteral hliteral
    obtain ⟨b, hb, rfl⟩ := map_eq_ok.mp he
    exact .compared hb
  · rename_i hliteral
    cases he
    exact .atRest (Bool.eq_false_iff.mpr hliteral)

/-! ### What selects nodes -/

theorem rewrites_ofPath (hempty : start.isEmptyNodeSet = false)
    (hpossible : isImpossible axis test.kind = false)
    (hunsettled : ∀ p ∈ predicates, p.isUnsettled = true) :
    Rewrites F (path start axis test predicates) (ofPath start axis test predicates) := by
  unfold ofPath
  split
  · rename_i hself
    simp only [Bool.and_eq_true, beq_iff_eq, List.isEmpty_iff] at hself
    obtain ⟨⟨⟨rfl, hkind⟩, rfl⟩, hstart⟩ := hself
    exact .selfStep hkind hstart
  · rename_i hself
    split
    · exact .parentStep _
    · exact .attributeStep _
    · rename_i hparent hattribute
      refine .atRest ⟨hempty, hpossible, hunsettled, ?_⟩
      rintro rfl
      unfold isAbbreviable
      split
      · simpa using hself
      · exact absurd rfl (hparent _ rfl rfl rfl)
      · exact absurd rfl (hattribute _ rfl rfl rfl)
      · rfl

theorem rewrites_ofFilter (hempty : base.isEmptyNodeSet = false)
    (he : ofFilter F base predicate = .ok e') : Rewrites F (filter base predicate) e' := by
  unfold ofFilter at he
  split at he
  · cases he
    exact .atRest ⟨hempty, rfl⟩
  · rename_i v hnumber
    obtain ⟨known, hknown, he⟩ := bind_eq_ok.mp he
    cases known with
    | true =>
        cases he
        exact .holds hnumber hknown
    | false =>
        cases he
        exact .fails hnumber hknown
  · rename_i hliteral
    cases he
    refine .atRest ⟨hempty, ?_⟩
    cases predicate <;> first | rfl | exact absurd rfl (hliteral _)

theorem rewrites_ofKnownSets (op : SetOperator) (lhs rhs : Expr) :
    lhs.isEmptyNodeSet = false → rhs.isEmptyNodeSet = false →
      Rewrites F (setOperation op lhs rhs) (match lhs, rhs with
        | literal (.nodeSet a), literal (.nodeSet b) => literal (.nodeSet (.combine F op a b))
        | _, _ => setOperation op lhs rhs) := by
  intro hlhs hrhs
  split
  · exact .combined op _ _
  · rename_i hliteral
    refine .atRest ⟨hlhs, hrhs, ?_⟩
    rw [← Bool.not_eq_true, Bool.and_eq_true]
    rintro ⟨hl, hr⟩
    unfold isNodeSetLiteral at hl hr
    split at hl <;> split at hr <;> simp_all

theorem rewrites_ofSetOperation (F : Forest) (op : SetOperator) (lhs rhs : Expr) :
    Rewrites F (setOperation op lhs rhs) (ofSetOperation F op lhs rhs) := by
  unfold ofSetOperation
  cases hlhs : lhs.isEmptyNodeSet with
  | true =>
      cases op with
      | union => exact .right hlhs
      | intersect | except => exact .nothing (.inl ⟨by decide, hlhs⟩)
  | false =>
      cases hrhs : rhs.isEmptyNodeSet with
      | true =>
          cases op with
          | union | except => exact .left (by decide) hrhs
          | intersect => exact .nothing (.inr ⟨rfl, hrhs⟩)
      | false => cases op <;> exact rewrites_ofKnownSets _ lhs rhs hlhs hrhs

/-! ### Calls and templates -/

theorem rewrites_ofCall {function : Builtin} {args : List Expr} {binding : CallBinding}
    (he : ofCall F function args binding = .ok e') : Rewrites F (call function args binding) e' := by
  unfold ofCall at he
  split at he
  · cases he
    exact .callTrue args binding
  · cases he
    exact .callFalse args binding
  · rename_i htrue hfalse
    split at he
    · rename_i hconstant
      rw [Bool.and_eq_true] at hconstant
      obtain ⟨v, hv, rfl⟩ := map_eq_ok.mp he
      exact .evaluated hconstant.1 hconstant.2 hv
    · rename_i hconstant
      cases he
      refine .atRest ?_
      rw [Bool.not_eq_true] at hconstant
      simp only [AtRest, isConstantCall, hconstant, Bool.or_false, Bool.or_eq_false_iff,
        beq_eq_false_iff_ne]
      exact ⟨htrue, hfalse⟩

theorem isConstant_joinTexts (h : ∀ p ∈ parts, p.isConstant = false) :
    ∀ p ∈ joinTexts parts, p.isConstant = false := by
  induction parts with
  | nil => exact h
  | cons p parts ih =>
      rw [List.forall_mem_cons] at h
      have hrest := ih h.2
      cases p with
      | expr e => exact List.forall_mem_cons.mpr ⟨h.1, hrest⟩
      | text a =>
          rw [joinTexts]
          split
          · rename_i hjoin
            rw [hjoin, List.forall_mem_cons] at hrest
            exact List.forall_mem_cons.mpr ⟨rfl, hrest.2⟩
          · exact List.forall_mem_cons.mpr ⟨rfl, hrest⟩

theorem isChain_joinTexts (parts : List TemplatePart) :
    (joinTexts parts).IsChain fun p q => (p.isText && q.isText) = false := by
  induction parts with
  | nil => exact .nil
  | cons p parts ih =>
      cases p with
      | expr e => exact List.isChain_cons.mpr ⟨fun _ _ => rfl, ih⟩
      | text a =>
          rw [joinTexts]
          split
          · rename_i hjoin
            rw [hjoin, List.isChain_cons] at ih
            exact List.isChain_cons.mpr ih
          · rename_i hfirst
            refine List.isChain_cons.mpr ⟨fun q hq => ?_, ih⟩
            obtain ⟨others, hothers⟩ := List.head?_eq_some_iff.mp hq
            cases q with
            | text b => exact (hfirst b others hothers).elim
            | expr e => rfl

theorem rewrites_ofTemplate (h : ∀ p ∈ parts, p.isConstant = false) :
    Rewrites F (template parts) (ofTemplate parts) := by
  unfold ofTemplate
  split
  · rename_i hjoin
    exact .text (.inl ⟨hjoin, rfl⟩)
  · rename_i hjoin
    exact .text (.inr hjoin)
  · rename_i hnil htext
    exact .joined ⟨isConstant_joinTexts h, isChain_joinTexts parts, hnil, htext⟩

/-! ## Lists of parts -/

theorem simplifyList_cons {es' : List Expr} (h : simplifyList F (e :: es) = .ok es') :
    ∃ e' rest, e.simplify F = .ok e' ∧ simplifyList F es = .ok rest ∧ es' = e' :: rest := by
  rw [simplifyList] at h
  obtain ⟨e', he, h⟩ := bind_eq_ok.mp h
  obtain ⟨rest, hrest, h⟩ := bind_eq_ok.mp h
  exact ⟨e', rest, he, hrest, (pure_eq_ok.mp h).symm⟩

/-- The first of several predicates stays, unless it is a literal that is no number: then it is
dropped if it holds, and if it does not, nothing passes. -/
theorem simplifyPredicates_cons {kept : Option (List Expr)}
    (h : simplifyPredicates F (e :: es) = .ok kept) :
    ∃ e', e.simplify F = .ok e' ∧
      ((∃ rest, simplifyPredicates F es = .ok rest ∧ kept = rest.map (e' :: ·) ∧
          e'.isUnsettled = true) ∨
        ∃ v holds, e' = literal v ∧ (∀ x, v ≠ .number x) ∧ v.toBool F = .ok holds ∧
          (if holds then simplifyPredicates F es = .ok kept else kept = none)) := by
  rw [simplifyPredicates] at h
  obtain ⟨e', he, h⟩ := bind_eq_ok.mp h
  refine ⟨e', he, ?_⟩
  split at h
  · obtain ⟨rest, hrest, h⟩ := bind_eq_ok.mp h
    exact .inl ⟨rest, hrest, (pure_eq_ok.mp h).symm, rfl⟩
  · rename_i v hnumber
    obtain ⟨holds, hholds, h⟩ := bind_eq_ok.mp h
    refine .inr ⟨v, holds, rfl, hnumber, hholds, ?_⟩
    split at h
    · rwa [if_pos ‹_›]
    · rw [if_neg ‹_›]
      exact (pure_eq_ok.mp h).symm
  · rename_i hliteral
    obtain ⟨rest, hrest, h⟩ := bind_eq_ok.mp h
    refine .inl ⟨rest, hrest, (pure_eq_ok.mp h).symm, ?_⟩
    cases e' <;> first | rfl | exact absurd rfl (hliteral _)

theorem unsettled_of_simplifyPredicates {kept : Option (List Expr)}
    (h : simplifyPredicates F es = .ok kept) : ∀ es' ∈ kept, ∀ p ∈ es', p.isUnsettled = true := by
  induction es generalizing kept with
  | nil =>
      rw [simplifyPredicates] at h
      cases h
      rintro es' ⟨rfl⟩
      simp
  | cons e es ih =>
      obtain ⟨e', -, ⟨rest, hrest, rfl, hunsettled⟩ | ⟨v, holds, -, -, -, hkept⟩⟩ :=
        simplifyPredicates_cons h
      · intro es' hes'
        obtain ⟨rest', hmem, rfl⟩ := Option.map_eq_some_iff.mp hes'
        exact List.forall_mem_cons.mpr ⟨hunsettled, ih hrest rest' hmem⟩
      · split at hkept
        · exact ih hkept
        · subst hkept
          rintro es' ⟨⟩

theorem simplifyOption_some {kept : Option Expr} (h : simplifyOption F (some e) = .ok kept) :
    ∃ e', e.simplify F = .ok e' ∧ kept = some e' := by
  rw [simplifyOption] at h
  obtain ⟨e', he, h⟩ := bind_eq_ok.mp h
  exact ⟨e', he, (pure_eq_ok.mp h).symm⟩

theorem simplifyKeys_cons {key : Expr} {order dataType caseOrder lang : Option Expr}
    {ks ks' : List SortKey}
    (h : simplifyKeys F (.mk key order dataType caseOrder lang :: ks) = .ok ks') :
    ∃ key' order' dataType' caseOrder' lang' rest, key.simplify F = .ok key' ∧
      simplifyOption F order = .ok order' ∧ simplifyOption F dataType = .ok dataType' ∧
        simplifyOption F caseOrder = .ok caseOrder' ∧ simplifyOption F lang = .ok lang' ∧
          simplifyKeys F ks = .ok rest ∧
            ks' = .mk key' order' dataType' caseOrder' lang' :: rest := by
  rw [simplifyKeys] at h
  obtain ⟨k', hk', h⟩ := bind_eq_ok.mp h
  obtain ⟨rest, hrest, h⟩ := bind_eq_ok.mp h
  cases h
  rw [simplifyKey] at hk'
  simp only [bind_eq_ok, pure_eq_ok] at hk'
  obtain ⟨key', hkey, order', horder, dataType', htype, caseOrder', hcase, lang', hlang, rfl⟩ := hk'
  exact ⟨key', order', dataType', caseOrder', lang', rest, hkey, horder, htype, hcase, hlang, hrest,
    rfl⟩

theorem simplifyParts_text {text : String} {ps' : List TemplatePart}
    (h : simplifyParts F (.text text :: ps) = .ok ps') :
    ∃ rest, simplifyParts F ps = .ok rest ∧ ps' = .text text :: rest := by
  rw [simplifyParts, simplifyPart, ok_bind] at h
  obtain ⟨rest, hrest, h⟩ := bind_eq_ok.mp h
  exact ⟨rest, hrest, (pure_eq_ok.mp h).symm⟩

/-- An expression of a template becomes text if it is a constant. -/
theorem simplifyParts_expr {ps' : List TemplatePart}
    (h : simplifyParts F (.expr e :: ps) = .ok ps') :
    ∃ e' rest, e.simplify F = .ok e' ∧ simplifyParts F ps = .ok rest ∧
      ((∃ v text, e' = literal v ∧ v.toText F = .ok text ∧ ps' = .text text :: rest) ∨
        e'.isLiteral = false ∧ ps' = .expr e' :: rest) := by
  rw [simplifyParts] at h
  obtain ⟨p', hp, h⟩ := bind_eq_ok.mp h
  obtain ⟨rest, hrest, h⟩ := bind_eq_ok.mp h
  cases h
  rw [simplifyPart] at hp
  obtain ⟨e', he, hp⟩ := bind_eq_ok.mp hp
  refine ⟨e', rest, he, hrest, ?_⟩
  split at hp
  · obtain ⟨text, htext, hp⟩ := bind_eq_ok.mp hp
    cases hp
    exact .inl ⟨_, text, rfl, htext, rfl⟩
  · rename_i hliteral
    cases hp
    exact .inr ⟨isLiteral_eq_false hliteral, rfl⟩

theorem isConstant_of_simplifyParts {ps' : List TemplatePart} (h : simplifyParts F ps = .ok ps') :
    ∀ p ∈ ps', p.isConstant = false := by
  induction ps generalizing ps' with
  | nil =>
      rw [simplifyParts] at h
      cases h
      simp
  | cons p ps ih =>
      cases p with
      | text text =>
          obtain ⟨rest, hrest, rfl⟩ := simplifyParts_text h
          exact List.forall_mem_cons.mpr ⟨rfl, ih hrest⟩
      | expr e =>
          obtain ⟨e', rest, -, hrest, ⟨v, text, -, -, rfl⟩ | ⟨hliteral, rfl⟩⟩ :=
            simplifyParts_expr h
          · exact List.forall_mem_cons.mpr ⟨rfl, ih hrest⟩
          · exact List.forall_mem_cons.mpr ⟨hliteral, ih hrest⟩

/-! ## Parts before the whole -/

theorem simplify_reference {name : ExpandedName} {display : String} {constant : Option Value}
    (he : (reference name display constant).simplify F = .ok e') :
    Rewrites F (reference name display constant) e' := by
  cases constant <;> cases he
  · exact .atRest rfl
  · exact .constant ..

theorem simplify_binary (he : (binary op lhs rhs).simplify F = .ok e') :
    ∃ lhs' rhs', lhs.simplify F = .ok lhs' ∧ rhs.simplify F = .ok rhs' ∧
      Rewrites F (binary op lhs' rhs') e' := by
  obtain ⟨lhs', hlhs, he⟩ := bind_eq_ok.mp he
  obtain ⟨rhs', hrhs, he⟩ := bind_eq_ok.mp he
  exact ⟨lhs', rhs', hlhs, hrhs, rewrites_ofBinary he⟩

theorem simplify_negate (he : (negate e).simplify F = .ok e') :
    ∃ operand, e.simplify F = .ok operand ∧ Rewrites F (negate operand) e' := by
  obtain ⟨operand, hoperand, he⟩ := bind_eq_ok.mp he
  exact ⟨operand, hoperand, rewrites_ofNegation he⟩

theorem simplify_nodeComparison {v : Value} (he : (nodeComparison e op v).simplify F = .ok e') :
    ∃ node, e.simplify F = .ok node ∧ Rewrites F (nodeComparison node op v) e' := by
  obtain ⟨node, hnode, he⟩ := bind_eq_ok.mp he
  exact ⟨node, hnode, rewrites_ofNodeComparison he⟩

/-- The predicates are not looked at if the start is empty or the step impossible, and if one of them
never holds, nothing is selected. -/
theorem simplify_path (he : (path start axis test predicates).simplify F = .ok e') :
    ∃ start', start.simplify F = .ok start' ∧
      ((start'.isEmptyNodeSet = true ∨ isImpossible axis test.kind = true) ∧ e' = emptyNodeSet ∨
        simplifyPredicates F predicates = .ok none ∧ e' = emptyNodeSet ∨
          ∃ predicates', simplifyPredicates F predicates = .ok (some predicates') ∧
            Rewrites F (path start' axis test predicates') e') := by
  obtain ⟨start', hstart, he⟩ := bind_eq_ok.mp he
  refine ⟨start', hstart, ?_⟩
  split at he
  · rename_i hnothing
    rw [Bool.or_eq_true] at hnothing
    exact .inl ⟨hnothing, (pure_eq_ok.mp he).symm⟩
  · rename_i hpossible
    rw [Bool.not_eq_true, Bool.or_eq_false_iff] at hpossible
    obtain ⟨kept, hkept, he⟩ := bind_eq_ok.mp he
    cases kept with
    | none => exact .inr (.inl ⟨hkept, (pure_eq_ok.mp he).symm⟩)
    | some predicates' =>
        cases he
        exact .inr (.inr ⟨predicates', hkept, rewrites_ofPath hpossible.1 hpossible.2
          (unsettled_of_simplifyPredicates hkept predicates' rfl)⟩)

theorem simplify_filter (he : (filter base predicate).simplify F = .ok e') :
    ∃ base', base.simplify F = .ok base' ∧
      (base'.isEmptyNodeSet = true ∧ e' = emptyNodeSet ∨
        ∃ predicate', predicate.simplify F = .ok predicate' ∧
          Rewrites F (filter base' predicate') e') := by
  obtain ⟨base', hbase, he⟩ := bind_eq_ok.mp he
  refine ⟨base', hbase, ?_⟩
  split at he
  · exact .inl ⟨by assumption, (pure_eq_ok.mp he).symm⟩
  · rename_i hempty
    obtain ⟨predicate', hpredicate, he⟩ := bind_eq_ok.mp he
    exact .inr ⟨predicate', hpredicate, rewrites_ofFilter (Bool.eq_false_iff.mpr hempty) he⟩

theorem simplify_setOperation {op : SetOperator}
    (he : (setOperation op lhs rhs).simplify F = .ok e') :
    ∃ lhs' rhs', lhs.simplify F = .ok lhs' ∧ rhs.simplify F = .ok rhs' ∧
      Rewrites F (setOperation op lhs' rhs') e' := by
  obtain ⟨lhs', hlhs, he⟩ := bind_eq_ok.mp he
  obtain ⟨rhs', hrhs, he⟩ := bind_eq_ok.mp he
  cases he
  exact ⟨lhs', rhs', hlhs, hrhs, rewrites_ofSetOperation F op lhs' rhs'⟩

theorem simplify_call {function : Builtin} {args : List Expr} {binding : CallBinding}
    (he : (call function args binding).simplify F = .ok e') :
    ∃ args', simplifyList F args = .ok args' ∧ Rewrites F (call function args' binding) e' := by
  obtain ⟨args', hargs, he⟩ := bind_eq_ok.mp he
  exact ⟨args', hargs, rewrites_ofCall he⟩

theorem simplify_extension {name : ExpandedName} {display : String}
    {function : ExtensionFunction} {args : List Expr}
    (he : (extension name display function args).simplify F = .ok e') :
    ∃ args', simplifyList F args = .ok args' ∧ e' = extension name display function args' := by
  obtain ⟨args', hargs, he⟩ := bind_eq_ok.mp he
  exact ⟨args', hargs, (pure_eq_ok.mp he).symm⟩

theorem simplify_sorted {keys : List SortKey} (he : (sorted selection keys).simplify F = .ok e') :
    ∃ selection', selection.simplify F = .ok selection' ∧
      (selection'.isEmptyNodeSet = true ∧ e' = selection' ∨
        selection'.isEmptyNodeSet = false ∧
          ∃ keys', simplifyKeys F keys = .ok keys' ∧ e' = sorted selection' keys') := by
  obtain ⟨selection', hselection, he⟩ := bind_eq_ok.mp he
  refine ⟨selection', hselection, ?_⟩
  split at he
  · exact .inl ⟨by assumption, (pure_eq_ok.mp he).symm⟩
  · rename_i hempty
    obtain ⟨keys', hkeys, he⟩ := bind_eq_ok.mp he
    cases he
    rw [ofSorted, if_neg hempty]
    exact .inr ⟨Bool.eq_false_iff.mpr hempty, keys', hkeys, rfl⟩

theorem simplify_template (he : (template parts).simplify F = .ok e') :
    ∃ parts', simplifyParts F parts = .ok parts' ∧ Rewrites F (template parts') e' := by
  obtain ⟨parts', hparts, he⟩ := bind_eq_ok.mp he
  cases he
  exact ⟨parts', hparts, rewrites_ofTemplate (isConstant_of_simplifyParts hparts)⟩

end Expr

end XPath
