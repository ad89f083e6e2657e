import XPath.Proofs.Expr.Dependencies
import XPath.Proofs.Policy.Call

/-!
# Expressions under a policy

Simplification (`Policy.fits_simplify`) and reduction (`Policy.fits_reduceWith`) put nothing into an
expression that is not admitted, and make no expression larger.
-/

namespace XPath

open XPath.Expr hiding failure

variable {P : Policy} {h : Host} {E : Engine} {depth : Nat} {c : Context} {v : Value} {n k : Nat}
  {e e' lhs rhs start base predicate selection : Expr} {es : List Expr} {ks : List SortKey}
  {ps : List TemplatePart} {op : BinaryOperator} {binding : CallBinding} {function : Builtin}

theorem Expr.size_pos (e : Expr) : 0 < e.size := by
  cases e <;> rw [size] <;> omega

namespace Policy

/-! ## What is admitted of an expression and its parts -/

theorem admits_literal : P.AdmitsExpr (literal v) ↔ P.AdmitsValue v := by
  rw [AdmitsExpr, Every, AdmitsPart]

theorem admits_binary :
    P.AdmitsExpr (binary op lhs rhs) ↔ P.AdmitsExpr lhs ∧ P.AdmitsExpr rhs := by
  rw [AdmitsExpr, Every]
  exact ⟨And.right, fun h => ⟨trivial, h⟩⟩

theorem admits_nodeComparison :
    P.AdmitsExpr (nodeComparison e op v) ↔ P.AdmitsValue v ∧ P.AdmitsExpr e := by
  rw [AdmitsExpr, Every, AdmitsPart]

theorem admits_negate : P.AdmitsExpr (negate e) ↔ P.AdmitsExpr e := by
  rw [AdmitsExpr, Every]
  exact ⟨And.right, fun h => ⟨trivial, h⟩⟩

theorem admits_path {axis : Axis} {test : NodeTest} :
    P.AdmitsExpr (path start axis test es) ↔
      P.AdmitsExpr start ∧ EveryOfList P.AdmitsPart es := by
  rw [AdmitsExpr, Every]
  exact ⟨And.right, fun h => ⟨trivial, h⟩⟩

theorem admits_filter :
    P.AdmitsExpr (filter base predicate) ↔ P.AdmitsExpr base ∧ P.AdmitsExpr predicate := by
  rw [AdmitsExpr, Every]
  exact ⟨And.right, fun h => ⟨trivial, h⟩⟩

theorem admits_setOperation {op : SetOperator} :
    P.AdmitsExpr (setOperation op lhs rhs) ↔ P.AdmitsExpr lhs ∧ P.AdmitsExpr rhs := by
  rw [AdmitsExpr, Every]
  exact ⟨And.right, fun h => ⟨trivial, h⟩⟩

theorem admits_call :
    P.AdmitsExpr (call function es binding) ↔
      P.AdmitsBinding binding ∧ EveryOfList P.AdmitsPart es := by
  rw [AdmitsExpr, Every, AdmitsPart]

theorem admits_extension {name : ExpandedName} {display : String} {f : ExtensionFunction} :
    P.AdmitsExpr (extension name display f es) ↔
      P.function f ∧ EveryOfList P.AdmitsPart es := by
  rw [AdmitsExpr, Every, AdmitsPart]

theorem admits_sorted :
    P.AdmitsExpr (sorted selection ks) ↔
      P.AdmitsExpr selection ∧ EveryOfKeys P.AdmitsPart ks := by
  rw [AdmitsExpr, Every]
  exact ⟨And.right, fun h => ⟨trivial, h⟩⟩

theorem admits_template : P.AdmitsExpr (template ps) ↔ EveryOfParts P.AdmitsPart ps := by
  rw [AdmitsExpr, Every]
  exact ⟨And.right, fun h => ⟨trivial, h⟩⟩

theorem admits_mem (hes : EveryOfList P.AdmitsPart es) (he : e ∈ es) : P.AdmitsExpr e := by
  induction es with
  | nil => cases he
  | cons first es ih =>
      rw [EveryOfList] at hes
      rcases List.mem_cons.mp he with rfl | he
      · exact hes.1
      · exact ih hes.2 he

theorem admits_free : P.AdmitsBinding .free where
  node _ hn := by cases hn
  controller _ hk := by cases hk

theorem admits_ofNode {n : Node} (hn : P.node n) : P.AdmitsContext (.ofNode n) where
  contextNode _ h := Option.some.inj h ▸ hn
  currentNode _ h := Option.some.inj h ▸ hn
  bindings _ _ _ h := by cases h
  controller _ h := by cases h

theorem admits_standalone : P.AdmitsContext .standalone where
  contextNode _ hn := by cases hn
  currentNode _ hn := by cases hn
  bindings _ _ _ hv := by cases hv
  controller _ hk := by cases hk

theorem size_of_mem (he : e ∈ es) : e.size ≤ sizeOfList es := by
  induction es with
  | nil => cases he
  | cons first es ih =>
      rw [sizeOfList]
      rcases List.mem_cons.mp he with rfl | he
      · omega
      · have := ih he
        omega

/-! ## Operators over served operands -/

theorem admits_ofConstant (hP : P.Closed h) (hv : P.AdmitsValue v) :
    Ends P.error P.AdmitsValue (v.ofConstant h.forest) := by
  match v, hv with
  | .nodeSet s, hv => exact (AdmitsSet.sorted hP hv).map fun _ hs => hs
  | .boolean _, hv | .number _, hv | .string _, hv | .fragment _, hv | .object _, hv =>
      exact Ends.pure (P := P.AdmitsValue) hv

theorem admits_enumerate (hP : P.Closed h) (hv : P.AdmitsValue v) (hc : P.AdmitsContext c) :
    Ends P.error P.AdmitsListing (v.enumerate h.forest c) := by
  match v, hv with
  | .nodeSet s, hv => exact AdmitsSet.enumerate hP hv
  | .boolean _, hv | .number _, hv | .string _, hv | .fragment _, hv | .object _, hv =>
      exact (admits_toNodeSet_value hP hv hc).bind fun _ _ hs => AdmitsSet.store hP hs

theorem serves_constants (hP : P.Closed h) (hv : P.AdmitsValue v) (hc : P.AdmitsContext c) :
    P.Serves (.constants h.forest) (literal v) c where
  value := admits_ofConstant hP hv
  truth := (admits_ofConstant hP hv).bind fun _ _ hw => computes_toBool hP hw
  number := (admits_ofConstant hP hv).bind fun _ _ hw => computes_toNumber hP hw
  text := (admits_ofConstant hP hv).bind fun _ _ hw => computes_toText hP hw
  first := (admits_enumerate hP hv hc).bind fun _ _ hen => AdmitsListing.first? hen

theorem binary_ends (hP : P.Closed h) (op : BinaryOperator) (hl : P.Serves E lhs c)
    (hr : P.Serves E rhs c) : Ends P.error P.AdmitsValue (E.binary h.forest op lhs rhs c) := by
  have hnumbers {f : Float → Float → Float} :
      Ends P.error P.AdmitsValue (do return .number (f (← E.number lhs c) (← E.number rhs c))) :=
    hl.number.bind fun _ _ _ => hr.number.bind fun _ _ _ => Ends.pure trivial
  unfold Engine.binary
  split
  · refine hl.truth.bind fun left _ _ => ?_
    split
    · exact Ends.pure trivial
    · exact hr.truth.bind fun _ _ _ => Ends.pure trivial
  · refine hl.truth.bind fun left _ _ => ?_
    split
    · exact hr.truth.bind fun _ _ _ => Ends.pure trivial
    · exact Ends.pure trivial
  · exact hnumbers
  · exact hnumbers
  · exact hnumbers
  · exact hnumbers
  · exact hnumbers
  · exact hl.value.bind fun _ _ hv => hr.value.bind fun _ _ hw =>
      (computes_compare hP _ hv hw).bind fun _ _ _ => Ends.pure trivial

theorem compareNode_computes (hP : P.Closed h) (op : BinaryOperator) (hn : P.Serves E e c)
    (hv : P.AdmitsValue v) : P.Computes (E.compareNode h.forest e op v c) := by
  refine hn.first.bind fun first _ hfirst => ?_
  split
  · exact Ends.pure trivial
  · rename_i n _
    split
    · exact Ends.pure trivial
    · exact Ends.pure trivial
    · exact Ends.pure trivial
    · exact Ends.pure trivial
    · exact computes_compare hP op (v := .nodeSet (.singleton n))
        (admits_singleton hP (hfirst n rfl)) hv

theorem serves_literal (hP : P.Closed h) (he : P.AdmitsExpr e) (hlit : e.isLiteral = true) :
    P.Serves (.constants h.forest) e .standalone := by
  unfold isLiteral at hlit
  split at hlit
  · exact serves_constants hP (admits_literal.mp he) admits_standalone
  · cases hlit

/-! ## Simplification -/

/-- The expression is admitted and has at most so many nodes. -/
structure Fits (P : Policy) (n : Nat) (e : Expr) : Prop where
  admits : P.AdmitsExpr e
  size_le : e.size ≤ n

theorem Fits.mono (he : P.Fits k e) (hk : k ≤ n) : P.Fits n e := ⟨he.admits, he.size_le.trans hk⟩

theorem fits_literal (hv : P.AdmitsValue v) (hn : 0 < n) : P.Fits n (literal v) :=
  ⟨admits_literal.mpr hv, by rw [size]; exact hn⟩

theorem fits_empty (hP : P.Closed h) (hn : 0 < n) : P.Fits n emptyNodeSet :=
  fits_literal (admits_empty hP) hn

section Simplify

variable (hP : P.Closed h)

include hP

theorem fits_ofBinary (hl : P.Fits n lhs) (hr : P.Fits k rhs) :
    Ends P.error (P.Fits (1 + n + k)) (ofBinary h.forest op lhs rhs) := by
  have hkeep {op : BinaryOperator} : P.Fits (1 + n + k) (binary op lhs rhs) :=
    ⟨admits_binary.mpr ⟨hl.admits, hr.admits⟩, by
      rw [size]
      have := hl.size_le
      have := hr.size_le
      omega⟩
  unfold ofBinary
  split
  · rename_i hliteral
    obtain ⟨hll, hlr⟩ := Bool.and_eq_true_iff.mp hliteral
    exact (binary_ends hP op (serves_literal hP hl.admits hll) (serves_literal hP hr.admits hlr)).map
      fun v hv => fits_literal hv (by omega)
  · split
    · split
      · rename_i v
        refine (computes_toBool hP (admits_literal.mp hl.admits)).bind fun known _ _ => ?_
        refine Ends.pure (P := P.Fits _) ?_
        split
        · exact fits_literal trivial (by omega)
        · exact fits_literal trivial (by omega)
        · refine ⟨admits_call.mpr ⟨admits_free, hr.admits, trivial⟩, ?_⟩
          have := hr.size_le
          simp only [size, sizeOfList]
          omega
      · exact hkeep
    · split
      · show P.Fits _ _
        unfold ofComparison
        have hcompare {e : Expr} {m : Nat} (he : P.Fits m e) (hm : m ≤ n + k) {other : Expr}
            {op : BinaryOperator} {v : Value} (hv : other.isComparable = some v) :
            P.Fits (1 + n + k) (nodeComparison e op v) := by
          refine ⟨admits_nodeComparison.mpr ⟨?_, he.admits⟩, ?_⟩
          · unfold isComparable at hv
            split at hv <;> cases hv <;> trivial
          · rw [size]
            have := he.size_le
            omega
        split
        · rename_i hv
          exact hcompare hl (by omega) hv
        · split
          · rename_i hv
            exact hcompare hr (by omega) hv
          · exact hkeep
      · exact hkeep

theorem fits_ofNegation (he : P.Fits n e) :
    Ends P.error (P.Fits (1 + n)) (ofNegation h.forest e) := by
  unfold ofNegation
  split
  · rename_i v
    exact (computes_toNumber hP (admits_literal.mp he.admits)).map
      fun _ _ => fits_literal trivial (by omega)
  · refine ⟨admits_negate.mpr he.admits, ?_⟩
    rw [size]
    exact Nat.add_le_add_left he.size_le 1

theorem fits_ofNodeComparison (he : P.Fits n e) (hv : P.AdmitsValue v) :
    Ends P.error (P.Fits (1 + n)) (ofNodeComparison h.forest e op v) := by
  unfold ofNodeComparison
  split
  · rename_i hlit
    exact (compareNode_computes hP op (serves_literal hP he.admits hlit) hv).map
      fun _ _ => fits_literal trivial (by omega)
  · refine ⟨admits_nodeComparison.mpr ⟨hv, he.admits⟩, ?_⟩
    rw [size]
    exact Nat.add_le_add_left he.size_le 1

omit hP in
theorem fits_ofPath {axis : Axis} {test : NodeTest} (he : P.Fits n (path start axis test es)) :
    P.Fits n (ofPath start axis test es) := by
  obtain ⟨hstart, -⟩ := admits_path.mp he.admits
  have hsize := he.size_le
  rw [size] at hsize
  have hone : 0 < n := by omega
  unfold ofPath
  split
  · exact ⟨hstart, by omega⟩
  · split
    · refine ⟨?_, hone⟩
      rw [AdmitsExpr, Every]
      trivial
    · refine ⟨?_, hone⟩
      rw [AdmitsExpr, Every, AdmitsPart]
      exact fun n hn => by cases hn
    · exact he

theorem fits_ofFilter (hbase : P.Fits n base) (hpredicate : P.Fits k predicate) :
    Ends P.error (P.Fits (1 + n + k)) (ofFilter h.forest base predicate) := by
  have hkeep {predicate : Expr} (hpredicate : P.Fits k predicate) :
      P.Fits (1 + n + k) (filter base predicate) := by
    refine ⟨admits_filter.mpr ⟨hbase.admits, hpredicate.admits⟩, ?_⟩
    rw [size]
    have := hbase.size_le
    have := hpredicate.size_le
    omega
  unfold ofFilter
  split
  · exact hkeep hpredicate
  · refine (computes_toBool hP (admits_literal.mp hpredicate.admits)).bind fun known _ _ => ?_
    split
    · exact hbase.mono (by omega)
    · exact fits_empty hP (by omega)
  · exact hkeep hpredicate

theorem fits_ofSetOperation {op : SetOperator} (hl : P.Fits n lhs) (hr : P.Fits k rhs) :
    P.Fits (1 + n + k) (ofSetOperation h.forest op lhs rhs) := by
  have hempty : P.Fits (1 + n + k) emptyNodeSet := fits_empty hP (by omega)
  have hleft : P.Fits (1 + n + k) lhs := hl.mono (by omega)
  unfold ofSetOperation
  split
  · exact hr.mono (by omega)
  · exact hleft
  · exact hempty
  · exact hempty
  · exact hempty
  · exact hleft
  · split
    · rename_i a b
      exact fits_literal (AdmitsSet.combine hP _ (admits_literal.mp hl.admits)
        (admits_literal.mp hr.admits)) (by omega)
    · refine ⟨admits_setOperation.mpr ⟨hl.admits, hr.admits⟩, ?_⟩
      rw [size]
      have := hl.size_le
      have := hr.size_le
      omega

theorem fits_ofCall (he : P.Fits n (call function es binding)) :
    Ends P.error (P.Fits n) (ofCall h.forest function es binding) := by
  obtain ⟨hbinding, hargs⟩ := admits_call.mp he.admits
  have hsize := he.size_le
  rw [size] at hsize
  have hone : 0 < n := by omega
  unfold ofCall
  split
  · exact fits_literal trivial hone
  · exact fits_literal trivial hone
  · split
    · rename_i hconstant
      obtain ⟨-, hall⟩ := Bool.and_eq_true_iff.mp hconstant
      have hserves {e : Expr} (he : e ∈ es) : P.Serves (.constants h.forest) e .standalone :=
        serves_literal hP (admits_mem hargs he) (List.all_eq_true.mp hall e he)
      refine Ends.map (AdmitsFrame.run hP ⟨fun i => ?_, fun _ => hserves, hbinding,
        admits_standalone⟩ rfl) fun v hv => fits_literal hv hone
      cases hi : es[i]? with
      | some e =>
          simp only [CallFrame.arg, hi, Option.getD_some]
          exact hserves (List.mem_of_getElem? hi)
      | none =>
          simp only [CallFrame.arg, hi, Option.getD_none]
          exact serves_constants hP trivial admits_standalone
    · exact he

omit hP in
theorem fits_joinTexts (hps : EveryOfParts P.AdmitsPart ps) :
    EveryOfParts P.AdmitsPart (joinTexts ps) ∧ sizeOfParts (joinTexts ps) ≤ sizeOfParts ps := by
  induction ps with
  | nil => exact ⟨trivial, le_rfl⟩
  | cons p ps ih =>
      cases p with
      | expr e =>
          rw [EveryOfParts] at hps
          obtain ⟨hrest, hsize⟩ := ih hps.2
          refine ⟨⟨hps.1, hrest⟩, ?_⟩
          rw [joinTexts, sizeOfParts, sizeOfParts]
          · omega
          · simp
      | text a =>
          rw [EveryOfParts] at hps
          obtain ⟨hrest, hsize⟩ := ih hps
          rw [joinTexts]
          split
          · rename_i b others hjoin
            rw [hjoin] at hrest hsize
            rw [EveryOfParts] at hrest
            refine ⟨hrest, ?_⟩
            rw [sizeOfParts, sizeOfPart] at hsize ⊢
            rw [sizeOfParts]
            omega
          · refine ⟨hrest, ?_⟩
            rw [sizeOfParts, sizeOfParts]
            omega

omit hP in
theorem fits_ofTemplate (hps : EveryOfParts P.AdmitsPart ps) :
    P.Fits (1 + sizeOfParts ps) (ofTemplate ps) := by
  obtain ⟨hjoined, hsize⟩ := fits_joinTexts hps
  unfold ofTemplate
  split
  · exact fits_literal trivial (by omega)
  · exact fits_literal trivial (by omega)
  · refine ⟨admits_template.mpr hjoined, ?_⟩
    rw [size]
    omega

end Simplify

theorem fits_key {key key' : Expr} {order order' dataType dataType' caseOrder caseOrder' lang
      lang' : Option Expr} {ks ks' : List SortKey} (hkey : P.Fits key.size key')
    (horder : EveryOfOption P.AdmitsPart order' ∧ sizeOfOption order' ≤ sizeOfOption order)
    (htype : EveryOfOption P.AdmitsPart dataType' ∧ sizeOfOption dataType' ≤ sizeOfOption dataType)
    (hcase : EveryOfOption P.AdmitsPart caseOrder' ∧
      sizeOfOption caseOrder' ≤ sizeOfOption caseOrder)
    (hlang : EveryOfOption P.AdmitsPart lang' ∧ sizeOfOption lang' ≤ sizeOfOption lang)
    (hks : EveryOfKeys P.AdmitsPart ks' ∧ sizeOfKeys ks' ≤ sizeOfKeys ks) :
    EveryOfKeys P.AdmitsPart (.mk key' order' dataType' caseOrder' lang' :: ks') ∧
      sizeOfKeys (.mk key' order' dataType' caseOrder' lang' :: ks') ≤
        sizeOfKeys (.mk key order dataType caseOrder lang :: ks) := by
  refine ⟨⟨hkey.admits, horder.1, htype.1, hcase.1, hlang.1, hks.1⟩, ?_⟩
  rw [sizeOfKeys, sizeOfKey, sizeOfKeys, sizeOfKey]
  have := hkey.size_le
  omega

mutual

theorem fits_simplify (hP : P.Closed h) (e : Expr) (he : P.AdmitsExpr e) :
    Ends P.error (P.Fits e.size) (e.simplify h.forest) := by
  match e with
  | literal v | contextNode | parentNode | root | attributeNamed name display parent
  | .failure error | .reference name display none =>
      rw [simplify]
      exact ⟨he, le_rfl⟩
  | .reference name display (some v) =>
      rw [simplify]
      rw [AdmitsExpr, Every, AdmitsPart] at he
      exact fits_literal he (size_pos _)
  | binary op lhs rhs =>
      obtain ⟨hl, hr⟩ := admits_binary.mp he
      rw [simplify, size]
      exact (fits_simplify hP lhs hl).bind fun _ _ hl => (fits_simplify hP rhs hr).bind fun _ _ hr =>
        fits_ofBinary hP hl hr
  | negate e =>
      rw [simplify, size]
      exact (fits_simplify hP e (admits_negate.mp he)).bind fun _ _ he => fits_ofNegation hP he
  | nodeComparison node op v =>
      obtain ⟨hv, hnode⟩ := admits_nodeComparison.mp he
      rw [simplify, size]
      exact (fits_simplify hP node hnode).bind fun _ _ hn => fits_ofNodeComparison hP hn hv
  | path start axis test predicates =>
      obtain ⟨hstart, hpredicates⟩ := admits_path.mp he
      rw [simplify, size]
      refine (fits_simplify hP start hstart).bind fun start' _ hs => ?_
      split
      · exact fits_empty hP (by omega)
      · refine (fits_simplifyPredicates hP predicates hpredicates).bind fun kept _ hkept => ?_
        split
        · rename_i predicates' _
          obtain ⟨hps, hsize⟩ := hkept predicates' rfl
          refine fits_ofPath ⟨admits_path.mpr ⟨hs.admits, hps⟩, ?_⟩
          rw [size]
          have := hs.size_le
          omega
        · exact fits_empty hP (by omega)
  | filter base predicate =>
      obtain ⟨hbase, hpredicate⟩ := admits_filter.mp he
      rw [simplify, size]
      refine (fits_simplify hP base hbase).bind fun base' _ hb => ?_
      split
      · exact fits_empty hP (by omega)
      · exact (fits_simplify hP predicate hpredicate).bind fun _ _ hp => fits_ofFilter hP hb hp
  | setOperation op lhs rhs =>
      obtain ⟨hl, hr⟩ := admits_setOperation.mp he
      rw [simplify, size]
      exact (fits_simplify hP lhs hl).bind fun _ _ hl => (fits_simplify hP rhs hr).bind fun _ _ hr =>
        fits_ofSetOperation hP hl hr
  | call function args binding =>
      obtain ⟨hbinding, hargs⟩ := admits_call.mp he
      rw [simplify, size]
      refine (fits_simplifyList hP args hargs).bind fun args' _ hargs' => fits_ofCall hP ?_
      refine ⟨admits_call.mpr ⟨hbinding, hargs'.1⟩, ?_⟩
      rw [size]
      exact Nat.add_le_add_left hargs'.2 1
  | extension name display function args =>
      obtain ⟨hfunction, hargs⟩ := admits_extension.mp he
      rw [simplify, size]
      refine (fits_simplifyList hP args hargs).bind fun args' _ hargs' => Ends.pure ?_
      refine ⟨admits_extension.mpr ⟨hfunction, hargs'.1⟩, ?_⟩
      rw [size]
      exact Nat.add_le_add_left hargs'.2 1
  | sorted selection keys =>
      obtain ⟨hselection, hkeys⟩ := admits_sorted.mp he
      rw [simplify, size]
      refine (fits_simplify hP selection hselection).bind fun selection' _ hs => ?_
      split
      · exact hs.mono (by omega)
      · rename_i hempty
        refine (fits_simplifyKeys hP keys hkeys).bind fun keys' _ hks => Ends.pure ?_
        rw [ofSorted, if_neg hempty]
        refine ⟨admits_sorted.mpr ⟨hs.admits, hks.1⟩, ?_⟩
        rw [size]
        have := hs.size_le
        have := hks.2
        omega
  | template parts =>
      rw [simplify, size]
      refine (fits_simplifyParts hP parts (admits_template.mp he)).bind fun parts' _ hps => ?_
      exact Ends.pure ((fits_ofTemplate hps.1).mono (by omega))
termination_by structural e

theorem fits_simplifyList (hP : P.Closed h) (es : List Expr) (hes : EveryOfList P.AdmitsPart es) :
    Ends P.error (fun es' => EveryOfList P.AdmitsPart es' ∧ sizeOfList es' ≤ sizeOfList es)
      (simplifyList h.forest es) := by
  match es with
  | [] =>
      rw [simplifyList]
      exact ⟨trivial, le_rfl⟩
  | e :: es =>
      rw [EveryOfList] at hes
      rw [simplifyList]
      refine (fits_simplify hP e hes.1).bind fun e' _ he => ?_
      refine (fits_simplifyList hP es hes.2).bind fun es' _ hes => Ends.pure ⟨⟨he.admits, hes.1⟩, ?_⟩
      rw [sizeOfList, sizeOfList]
      exact Nat.add_le_add he.size_le hes.2
termination_by structural es

theorem fits_simplifyPredicates (hP : P.Closed h) (es : List Expr) (hes : EveryOfList P.AdmitsPart es) :
    Ends P.error (fun kept => ∀ es', kept = some es' →
      EveryOfList P.AdmitsPart es' ∧ sizeOfList es' ≤ sizeOfList es)
      (simplifyPredicates h.forest es) := by
  match es with
  | [] =>
      rw [simplifyPredicates]
      rintro es' ⟨rfl⟩
      exact ⟨trivial, le_rfl⟩
  | e :: es =>
      rw [EveryOfList] at hes
      rw [simplifyPredicates, sizeOfList]
      have hrest := fits_simplifyPredicates hP es hes.2
      have hkeep {e' : Expr} (he : P.Fits e.size e') :
          Ends P.error (fun kept => ∀ es', kept = some es' →
            EveryOfList P.AdmitsPart es' ∧ sizeOfList es' ≤ e.size + sizeOfList es)
            (do return (← simplifyPredicates h.forest es).map (e' :: ·)) := by
        refine hrest.bind fun kept _ hkept => Ends.pure fun es' hes' => ?_
        obtain ⟨rest, hsome, rfl⟩ := Option.map_eq_some_iff.mp hes'
        obtain ⟨hall, hsize⟩ := hkept rest hsome
        refine ⟨⟨he.admits, hall⟩, ?_⟩
        rw [sizeOfList]
        have := he.size_le
        omega
      refine (fits_simplify hP e hes.1).bind fun e' _ he => ?_
      split
      · exact hkeep he
      · refine (computes_toBool hP (admits_literal.mp he.admits)).bind fun known _ _ => ?_
        split
        · refine Ends.mono hrest fun kept _ hkept es' hes' => ?_
          obtain ⟨hall, hsize⟩ := hkept es' hes'
          exact ⟨hall, by omega⟩
        · exact Ends.pure fun es' hes' => by cases hes'
      · exact hkeep he
termination_by structural es

theorem fits_simplifyOption (hP : P.Closed h) (e : Option Expr) (he : EveryOfOption P.AdmitsPart e) :
    Ends P.error (fun e' => EveryOfOption P.AdmitsPart e' ∧ sizeOfOption e' ≤ sizeOfOption e)
      (simplifyOption h.forest e) := by
  match e with
  | none =>
      rw [simplifyOption]
      exact ⟨trivial, le_rfl⟩
  | some e =>
      rw [EveryOfOption] at he
      rw [simplifyOption]
      exact (fits_simplify hP e he).bind fun _ _ he => Ends.pure ⟨he.admits, he.size_le⟩
termination_by structural e

theorem fits_simplifyKeys (hP : P.Closed h) (ks : List SortKey) (hks : EveryOfKeys P.AdmitsPart ks) :
    Ends P.error (fun ks' => EveryOfKeys P.AdmitsPart ks' ∧ sizeOfKeys ks' ≤ sizeOfKeys ks)
      (simplifyKeys h.forest ks) := by
  match ks with
  | [] =>
      rw [simplifyKeys]
      exact ⟨trivial, le_rfl⟩
  | .mk key order dataType caseOrder lang :: ks =>
      rw [EveryOfKeys] at hks
      obtain ⟨hkey, horder, htype, hcase, hlang, hks⟩ := hks
      rw [simplifyKeys, simplifyKey]
      refine Ends.bind (P := fun k' => ∀ rest,
        EveryOfKeys P.AdmitsPart rest ∧ sizeOfKeys rest ≤ sizeOfKeys ks →
          EveryOfKeys P.AdmitsPart (k' :: rest) ∧
            sizeOfKeys (k' :: rest) ≤ sizeOfKeys (.mk key order dataType caseOrder lang :: ks)) ?_
        fun k' _ hk' => (fits_simplifyKeys hP ks hks).bind fun ks' _ hks' =>
          Ends.pure (hk' ks' hks')
      refine (fits_simplify hP key hkey).bind fun key' _ hkey' => ?_
      refine (fits_simplifyOption hP order horder).bind fun order' _ horder' => ?_
      refine (fits_simplifyOption hP dataType htype).bind fun dataType' _ htype' => ?_
      refine (fits_simplifyOption hP caseOrder hcase).bind fun caseOrder' _ hcase' => ?_
      refine (fits_simplifyOption hP lang hlang).bind fun lang' _ hlang' => Ends.pure ?_
      exact fun rest hrest => fits_key hkey' horder' htype' hcase' hlang' hrest
termination_by structural ks

theorem fits_simplifyParts (hP : P.Closed h) (ps : List TemplatePart) (hps : EveryOfParts P.AdmitsPart ps) :
    Ends P.error (fun ps' => EveryOfParts P.AdmitsPart ps' ∧ sizeOfParts ps' ≤ sizeOfParts ps)
      (simplifyParts h.forest ps) := by
  match ps with
  | [] =>
      rw [simplifyParts]
      exact ⟨trivial, le_rfl⟩
  | .text text :: ps =>
      rw [EveryOfParts] at hps
      rw [simplifyParts, simplifyPart]
      refine (fits_simplifyParts hP ps hps).bind fun ps' _ hps' => Ends.pure ⟨hps'.1, ?_⟩
      rw [sizeOfParts, sizeOfParts]
      exact Nat.add_le_add_left hps'.2 _
  | .expr e :: ps =>
      rw [EveryOfParts] at hps
      rw [simplifyParts, simplifyPart]
      have hrest (p : TemplatePart) (hp : ∀ rest, EveryOfParts P.AdmitsPart rest →
          EveryOfParts P.AdmitsPart (p :: rest)) (hsize : sizeOfPart p ≤ 1 + e.size) :
          Ends P.error (fun ps' => EveryOfParts P.AdmitsPart ps' ∧
            sizeOfParts ps' ≤ sizeOfParts (.expr e :: ps))
            (do return p :: (← simplifyParts h.forest ps)) := by
        refine (fits_simplifyParts hP ps hps.2).bind fun ps' _ hps' => Ends.pure ⟨hp _ hps'.1, ?_⟩
        rw [sizeOfParts, sizeOfParts, sizeOfPart]
        exact Nat.add_le_add hsize hps'.2
      refine Ends.bind (P := fun p => (∀ rest, EveryOfParts P.AdmitsPart rest →
        EveryOfParts P.AdmitsPart (p :: rest)) ∧ sizeOfPart p ≤ 1 + e.size) ?_
        fun p _ hp => hrest p hp.1 hp.2
      refine (fits_simplify hP e hps.1).bind fun e' _ he => ?_
      split
      · refine (computes_toText hP (admits_literal.mp he.admits)).bind fun text _ _ => ?_
        refine Ends.pure ⟨fun _ hrest => hrest, ?_⟩
        rw [sizeOfPart]
        omega
      · refine Ends.pure ⟨fun _ hrest => ⟨he.admits, hrest⟩, ?_⟩
        rw [sizeOfPart]
        exact Nat.add_le_add_left he.size_le 1
termination_by structural ps

end

/-! ## Reduction -/

section Reduce

variable (hP : P.Closed h) (hc : P.AdmitsContext c)

include hP hc

theorem fits_asNodeSource (he : P.Fits k e) : Ends P.error (P.Fits k) (asNodeSource c e) := by
  unfold asNodeSource
  split
  · refine (admits_toNodeSet_value hP (admits_literal.mp he.admits) hc).bind fun s _ hs => ?_
    exact Ends.pure (fits_literal hs ((size_pos _).trans_le he.size_le))
  · exact he

omit hc in
theorem fits_ofNode {node : Option Node} (hnode : ∀ n, node = some n → P.node n) (hk : 0 < k) :
    P.Fits k (ofNode node) := by
  refine fits_literal ?_ hk
  split
  · exact admits_singleton hP (hnode _ rfl)
  · exact admits_empty hP

theorem fits_reduceCall (m : Dependencies) (he : P.Fits k (call function es binding)) :
    Ends P.error (P.Fits k) (reduceCall h.forest m c function es binding) := by
  obtain ⟨hbinding, hargs⟩ := admits_call.mp he.admits
  have hk : 0 < k := (size_pos _).trans_le he.size_le
  have hcall {node : Option Node} {controller : ControllerBinding}
      (hnode : ∀ n, node = some n → P.node n)
      (hcontroller : ∀ k, controller = .bound (some k) → P.AdmitsController k) :
      Ends P.error (P.Fits k)
        ((call function es { binding with node, controller }).simplify h.forest) := by
    refine Ends.mono (fits_simplify hP _ (admits_call.mpr ⟨⟨hnode, hcontroller⟩, hargs⟩))
      fun e' _ he' => he'.mono ?_
    have hsize := he.size_le
    rwa [size] at hsize ⊢
  unfold reduceCall
  dsimp only
  split
  · exact Ends.pure (fits_literal trivial hk)
  · exact (last_computes hP c).bind fun _ _ _ => Ends.pure (fits_literal trivial hk)
  · exact (currentNode_ends hP hc).bind fun n _ hn =>
      Ends.pure (fits_literal (admits_singleton hP hn) hk)
  · rename_i function _ _ _ _ _ _ _
    have hcontroller (k : Controller)
        (hbound : (if (intrinsicDependencies function es.length binding &&& m).contains .controller
          then .bound c.controller? else binding.controller) = .bound (some k)) :
        P.AdmitsController k := by
      split at hbound
      · injection hbound with hbound
        exact hc.controller k hbound
      · exact hbinding.controller k hbound
    split
    · refine ((contextNode_ends hP hc).map (R := fun node => ∀ n, node = some n → P.node n)
        fun n hn _ hsome => by cases hsome; exact hn).bind fun node _ hnode => ?_
      exact hcall hnode hcontroller
    · exact hcall hbinding.node hcontroller

theorem fits_bound {m : Dependencies} {f : Node → Expr} (he : P.Fits k e)
    (hf : ∀ n, P.node n → P.Fits k (f n)) :
    Ends P.error (P.Fits k)
      (if m.contains .contextNode then do return f (← c.contextNode) else .ok e) := by
  split
  · exact (contextNode_ends hP hc).bind fun n _ hn => Ends.pure (hf n hn)
  · exact he

end Reduce

mutual

theorem fits_reduceWith (hP : P.Closed h) (hc : P.AdmitsContext c)
    (hE : ∀ e, P.AdmitsExpr e → e.size < n → Ends P.error P.AdmitsValue (E.value e c))
    (m : Dependencies) (e : Expr) (he : P.AdmitsExpr e) (hn : e.size ≤ n) :
    Ends P.error (P.Fits e.size) (e.reduceWith E h m c) := by
  unfold reduceWith
  split
  · exact ⟨he, le_rfl⟩
  · match e with
    | literal v | .failure error => exact ⟨he, le_rfl⟩
    | .reference name display (some v) =>
        rename_i hm
        exact absurd (congrArg (!·) (Dependencies.not_intersects_empty m)) hm
    | .reference name display none =>
        rw [AdmitsExpr, Every, AdmitsPart] at he
        exact (valueOf_ends hP hc he).map fun v hv => fits_literal hv (size_pos _)
    | binary op lhs rhs =>
        obtain ⟨hl, hr⟩ := admits_binary.mp he
        rw [size] at hn ⊢
        refine (fits_reduceWith hP hc hE m lhs hl (by omega)).bind fun lhs' _ hl => ?_
        refine (fits_reduceWith hP hc hE m rhs hr (by omega)).bind fun rhs' _ hr => ?_
        refine Ends.mono (fits_simplify hP _ (admits_binary.mpr ⟨hl.admits, hr.admits⟩))
          fun e' _ he' => he'.mono ?_
        rw [size]
        have := hl.size_le
        have := hr.size_le
        omega
    | negate e =>
        rw [size] at hn ⊢
        refine (fits_reduceWith hP hc hE m e (admits_negate.mp he) (by omega)).bind fun e' _ he => ?_
        refine Ends.mono (fits_simplify hP _ (admits_negate.mpr he.admits))
          fun e' _ he' => he'.mono ?_
        rw [size]
        exact Nat.add_le_add_left he.size_le 1
    | nodeComparison node op v =>
        obtain ⟨hv, hnode⟩ := admits_nodeComparison.mp he
        rw [size] at hn ⊢
        refine (fits_reduceWith hP hc hE m node hnode (by omega)).bind fun node' _ hnode => ?_
        refine Ends.mono (fits_simplify hP _ (admits_nodeComparison.mpr ⟨hv, hnode.admits⟩))
          fun e' _ he' => he'.mono ?_
        rw [size]
        exact Nat.add_le_add_left hnode.size_le 1
    | contextNode =>
        exact fits_bound hP hc (f := fun n => ofNode (some n)) ⟨he, le_rfl⟩ fun n hn =>
          fits_ofNode hP (by rintro _ ⟨⟩; exact hn) (size_pos _)
    | parentNode =>
        exact fits_bound hP hc (f := fun n => ofNode (h.forest.parent? n)) ⟨he, le_rfl⟩
          fun n hn => fits_ofNode hP (fun p hp => hP.parent hn hp) (size_pos _)
    | root =>
        exact fits_bound hP hc (f := fun n => ofNode (some (h.forest.documentRoot n)))
          ⟨he, le_rfl⟩ fun n hn =>
            fits_ofNode hP (by rintro _ ⟨⟩; exact hP.documentRoot hn) (size_pos _)
    | attributeNamed name display parent =>
        refine fits_bound hP hc (f := fun n => attributeNamed name display (some n))
          ⟨he, le_rfl⟩ fun n hn => ⟨?_, le_rfl⟩
        rw [AdmitsExpr, Every, AdmitsPart]
        rintro _ ⟨⟩
        exact hn
    | path start axis test predicates =>
        obtain ⟨hstart, hpredicates⟩ := admits_path.mp he
        rw [size] at hn ⊢
        refine (fits_reduceWith hP hc hE m start hstart (by omega)).bind fun start' _ hs => ?_
        refine (fits_asNodeSource hP hc hs).bind fun start'' _ hs => ?_
        refine (fits_reduceListWith hP hc hE _ predicates hpredicates (by omega)).bind
          fun predicates' _ hps => ?_
        refine Ends.mono (fits_simplify hP _ (admits_path.mpr ⟨hs.admits, hps.1⟩))
          fun e' _ he' => he'.mono ?_
        rw [size]
        have := hs.size_le
        have := hps.2
        omega
    | filter base predicate =>
        obtain ⟨hbase, hpredicate⟩ := admits_filter.mp he
        rw [size] at hn ⊢
        refine (fits_reduceWith hP hc hE m base hbase (by omega)).bind fun base' _ hb => ?_
        refine (fits_asNodeSource hP hc hb).bind fun base'' _ hb => ?_
        refine (fits_reduceWith hP hc hE _ predicate hpredicate (by omega)).bind
          fun predicate' _ hp => ?_
        refine Ends.mono (fits_simplify hP _ (admits_filter.mpr ⟨hb.admits, hp.admits⟩))
          fun e' _ he' => he'.mono ?_
        rw [size]
        have := hb.size_le
        have := hp.size_le
        omega
    | setOperation op lhs rhs =>
        obtain ⟨hl, hr⟩ := admits_setOperation.mp he
        rw [size] at hn ⊢
        refine (fits_reduceWith hP hc hE m lhs hl (by omega)).bind fun lhs' _ hl => ?_
        refine (fits_asNodeSource hP hc hl).bind fun lhs'' _ hl => ?_
        refine (fits_reduceWith hP hc hE m rhs hr (by omega)).bind fun rhs' _ hr => ?_
        refine (fits_asNodeSource hP hc hr).bind fun rhs'' _ hr => ?_
        refine Ends.mono (fits_simplify hP _ (admits_setOperation.mpr ⟨hl.admits, hr.admits⟩))
          fun e' _ he' => he'.mono ?_
        rw [size]
        have := hl.size_le
        have := hr.size_le
        omega
    | call function args binding =>
        obtain ⟨hbinding, hargs⟩ := admits_call.mp he
        rw [size] at hn ⊢
        refine (fits_reduceListWith hP hc hE m args hargs (by omega)).bind fun args' _ hargs => ?_
        refine fits_reduceCall hP hc m ⟨admits_call.mpr ⟨hbinding, hargs.1⟩, ?_⟩
        rw [size]
        exact Nat.add_le_add_left hargs.2 1
    | extension name display function args =>
        obtain ⟨hfunction, hargs⟩ := admits_extension.mp he
        rw [size] at hn ⊢
        dsimp only
        split
        · refine (Ends.mapM (R := P.AdmitsValue) fun e he => ?_).bind fun values _ hvalues => ?_
          · refine hE e (admits_mem hargs he) ?_
            have := size_of_mem he
            omega
          · exact (hP.apply function values c hfunction hvalues hc).bind fun v _ hv =>
              Ends.pure (fits_literal hv (by omega))
        · refine (fits_reduceListWith hP hc hE m args hargs (by omega)).bind fun args' _ hargs => ?_
          refine Ends.pure ⟨admits_extension.mpr ⟨hfunction, hargs.1⟩, ?_⟩
          rw [size]
          exact Nat.add_le_add_left hargs.2 1
    | sorted selection keys =>
        obtain ⟨hselection, hkeys⟩ := admits_sorted.mp he
        rw [size] at hn ⊢
        refine (fits_reduceWith hP hc hE m selection hselection (by omega)).bind fun selection' _ hs => ?_
        refine (fits_reduceKeysWith hP hc hE m keys hkeys (by omega)).bind fun keys' _ hks => ?_
        refine Ends.mono (fits_simplify hP _ (admits_sorted.mpr ⟨hs.admits, hks.1⟩))
          fun e' _ he' => he'.mono ?_
        rw [size]
        have := hs.size_le
        have := hks.2
        omega
    | template parts =>
        rw [size] at hn ⊢
        refine (fits_reducePartsWith hP hc hE m parts (admits_template.mp he) (by omega)).bind
          fun parts' _ hps => ?_
        refine Ends.mono (fits_simplify hP _ (admits_template.mpr hps.1))
          fun e' _ he' => he'.mono ?_
        rw [size]
        exact Nat.add_le_add_left hps.2 1
termination_by structural e

theorem fits_reduceListWith (hP : P.Closed h) (hc : P.AdmitsContext c)
    (hE : ∀ e, P.AdmitsExpr e → e.size < n → Ends P.error P.AdmitsValue (E.value e c))
    (m : Dependencies) (es : List Expr)
    (hes : EveryOfList P.AdmitsPart es) (hn : sizeOfList es ≤ n) :
    Ends P.error (fun es' => EveryOfList P.AdmitsPart es' ∧ sizeOfList es' ≤ sizeOfList es)
      (reduceListWith E h m c es) := by
  match es with
  | [] => exact ⟨trivial, le_rfl⟩
  | e :: es =>
      rw [EveryOfList] at hes
      rw [sizeOfList] at hn
      refine (fits_reduceWith hP hc hE m e hes.1 (by omega)).bind fun e' _ he => ?_
      refine (fits_reduceListWith hP hc hE m es hes.2 (by omega)).bind fun es' _ hes => Ends.pure ?_
      refine ⟨⟨he.admits, hes.1⟩, ?_⟩
      rw [sizeOfList, sizeOfList]
      exact Nat.add_le_add he.size_le hes.2
termination_by structural es

theorem fits_reduceOptionWith (hP : P.Closed h) (hc : P.AdmitsContext c)
    (hE : ∀ e, P.AdmitsExpr e → e.size < n → Ends P.error P.AdmitsValue (E.value e c))
    (m : Dependencies) (e : Option Expr)
    (he : EveryOfOption P.AdmitsPart e) (hn : sizeOfOption e ≤ n) :
    Ends P.error (fun e' => EveryOfOption P.AdmitsPart e' ∧ sizeOfOption e' ≤ sizeOfOption e)
      (reduceOptionWith E h m c e) := by
  match e with
  | none => exact ⟨trivial, le_rfl⟩
  | some e =>
      rw [EveryOfOption] at he
      exact (fits_reduceWith hP hc hE m e he hn).bind fun _ _ he => Ends.pure ⟨he.admits, he.size_le⟩
termination_by structural e

theorem fits_reduceKeysWith (hP : P.Closed h) (hc : P.AdmitsContext c)
    (hE : ∀ e, P.AdmitsExpr e → e.size < n → Ends P.error P.AdmitsValue (E.value e c))
    (m : Dependencies) (ks : List SortKey)
    (hks : EveryOfKeys P.AdmitsPart ks) (hn : sizeOfKeys ks ≤ n) :
    Ends P.error (fun ks' => EveryOfKeys P.AdmitsPart ks' ∧ sizeOfKeys ks' ≤ sizeOfKeys ks)
      (reduceKeysWith E h m c ks) := by
  match ks with
  | [] => exact ⟨trivial, le_rfl⟩
  | .mk key order dataType caseOrder lang :: ks =>
      rw [EveryOfKeys] at hks
      obtain ⟨hkey, horder, htype, hcase, hlang, hks⟩ := hks
      rw [sizeOfKeys, sizeOfKey] at hn
      refine Ends.bind (P := fun k' => ∀ rest,
        EveryOfKeys P.AdmitsPart rest ∧ sizeOfKeys rest ≤ sizeOfKeys ks →
          EveryOfKeys P.AdmitsPart (k' :: rest) ∧
            sizeOfKeys (k' :: rest) ≤ sizeOfKeys (.mk key order dataType caseOrder lang :: ks)) ?_
        fun k' _ hk' => (fits_reduceKeysWith hP hc hE m ks hks (by omega)).bind
          fun ks' _ hks' => Ends.pure (hk' ks' hks')
      refine (fits_reduceWith hP hc hE _ key hkey (by omega)).bind fun key' _ hkey' => ?_
      refine (fits_reduceOptionWith hP hc hE m order horder (by omega)).bind fun order' _ horder' => ?_
      refine (fits_reduceOptionWith hP hc hE m dataType htype (by omega)).bind
        fun dataType' _ htype' => ?_
      refine (fits_reduceOptionWith hP hc hE m caseOrder hcase (by omega)).bind
        fun caseOrder' _ hcase' => ?_
      refine (fits_reduceOptionWith hP hc hE m lang hlang (by omega)).bind
        fun lang' _ hlang' => Ends.pure ?_
      exact fun rest hrest => fits_key hkey' horder' htype' hcase' hlang' hrest
termination_by structural ks

theorem fits_reducePartsWith (hP : P.Closed h) (hc : P.AdmitsContext c)
    (hE : ∀ e, P.AdmitsExpr e → e.size < n → Ends P.error P.AdmitsValue (E.value e c))
    (m : Dependencies) (ps : List TemplatePart)
    (hps : EveryOfParts P.AdmitsPart ps) (hn : sizeOfParts ps ≤ n) :
    Ends P.error (fun ps' => EveryOfParts P.AdmitsPart ps' ∧ sizeOfParts ps' ≤ sizeOfParts ps)
      (reducePartsWith E h m c ps) := by
  match ps with
  | [] => exact ⟨trivial, le_rfl⟩
  | .text text :: ps =>
      rw [EveryOfParts] at hps
      rw [sizeOfParts] at hn
      refine Ends.bind (P := fun p => p = .text text) (Ends.pure (P := (· = _)) rfl) fun p _ hp => ?_
      subst hp
      refine (fits_reducePartsWith hP hc hE m ps hps (by omega)).bind fun ps' _ hps' =>
        Ends.pure ⟨hps'.1, ?_⟩
      rw [sizeOfParts, sizeOfParts]
      exact Nat.add_le_add_left hps'.2 _
  | .expr e :: ps =>
      rw [EveryOfParts] at hps
      rw [sizeOfParts, sizeOfPart] at hn
      refine Ends.bind (P := fun p => ∃ e', p = .expr e' ∧ P.Fits e.size e') ?_ fun p _ hp => ?_
      · exact (fits_reduceWith hP hc hE m e hps.1 (by omega)).bind fun e' _ he => Ends.pure ⟨e', rfl, he⟩
      · obtain ⟨e', rfl, he⟩ := hp
        refine (fits_reducePartsWith hP hc hE m ps hps.2 (by omega)).bind fun ps' _ hps' =>
          Ends.pure ⟨⟨he.admits, hps'.1⟩, ?_⟩
        rw [sizeOfParts, sizeOfParts, sizeOfPart, sizeOfPart]
        have := he.size_le
        have := hps'.2
        omega
termination_by structural ps

end

end Policy

end XPath
