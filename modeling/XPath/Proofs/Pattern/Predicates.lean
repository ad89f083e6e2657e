import XPath.Pattern.Matching
import XPath.Proofs.Evaluation.Answers
import XPath.Proofs.Meaning.Membership
import XPath.Proofs.Pattern.Grammar

/-!
# The predicates of a pattern step

A pattern checks the predicates of a step in one of three ways. Each of them passes a node exactly
if the step of the expression, taken from the parent of the node, selects it
(`Pattern.passes_iff`).
-/

namespace XPath

variable {F : Forest} {h : Host} {Γ : Typing} {Φ : Calls h.forest} {c σ τ : Context} {n m : Node}
  {ns : List Node} {axis : Axis} {test : NodeTest} {es : List Expr} {B : Meaning}
  {Bs : List Meaning} {b : Bool}

def Forest.Rooted (F : Forest) : Prop := ∀ n, F.parent? n = none ↔ F.type n = .root

/-! ## Predicates one after the other -/

namespace Meaning

theorem keep_subset (B : Meaning) (σ : Context) (hn : n ∈ B.keep σ ns) : n ∈ ns := by
  obtain ⟨k, hmem, -⟩ := mem_keep.mp hn
  exact List.fst_mem_of_mem_zipIdx hmem

theorem selected_subset (hn : n ∈ Bs.foldl (fun ns B => B.keep σ ns) ns) : n ∈ ns := by
  induction Bs generalizing ns with
  | nil => exact hn
  | cons B Bs ih => exact keep_subset B σ (ih hn)

/-- A predicate sees nothing of the context but its outer facets. -/
theorem stepNodes_forItem (Bs : List Meaning) (n : Node) (k : Nat) (l : LastPosition) :
    stepNodes F axis test Bs (σ.forItem n k l) = stepNodes F axis test Bs σ := rfl

end Meaning

namespace Pattern

/-- Predicates that do not look at positions are tried on the node alone. -/
theorem passesAll_iff [h.Realizes Φ Γ] (W : h.forest.WellFormed)
    (hes : Expr.MeansList h.forest Φ Γ true es Bs)
    (hpositional : isPositional es = false) (hc : c.Sound h.forest Γ) (hn : h.forest.Has n)
    (hb : passesAll h (c.forItem n 1 (.known 1)) es = .ok b) (hmem : n ∈ ns) :
    b = true ↔ n ∈ Bs.foldl (fun ns B => B.keep c ns) ns := by
  induction es generalizing Bs ns with
  | nil =>
      rw [Expr.MeansList] at hes
      subst hes
      cases hb
      simpa using hmem
  | cons e es ih =>
      rw [Expr.MeansList] at hes
      obtain ⟨B, Bs', hB, hBs, rfl⟩ := hes
      obtain ⟨hposition, hrest⟩ : e.isPositional = false ∧ isPositional es = false := by
        simpa [isPositional] using hpositional
      rw [passesAll] at hb
      obtain ⟨holds, hholds, hb⟩ := bind_eq_ok.mp hb
      obtain ⟨rfl, htype⟩ := (h.sound_engine W _).truth hB (.refl _) (hc.forItem hn 1 _) hholds
      obtain ⟨hnumber, hany⟩ := Expr.dataType_of_not_positional hposition
      have hne := htype hany ▸ hnumber
      have hkeep : n ∈ B.keep c ns ↔ (B (c.forItem n 1 (.known 1))).holds = true := by
        rw [Meaning.mem_keep]
        simp only [hB.forItem_eq W hposition n, Outcome.selects_of_dataType hne]
        constructor
        · rintro ⟨k, -, hk⟩
          exact hk
        · intro hk
          obtain ⟨i, hi⟩ := List.mem_iff_getElem?.mp hmem
          exact ⟨1 + i, List.mem_zipIdx_iff_le_and_getElem?_sub.mpr (by simp [hi]), hk⟩
      rw [List.foldl_cons]
      split at hb
      · rename_i htrue
        exact ih hBs hrest hb (hkeep.mpr htrue)
      · rename_i hfalse
        cases hb
        simp only [Bool.false_eq_true, false_iff]
        exact fun hn => hfalse (hkeep.mp (Meaning.selected_subset hn))

/-! ## The first sibling -/

theorem beq_ofNat_iff {x : Float} (hx : (x == 1) = true) {k : Nat} (hk : 0 < k)
    (hbound : k < 2 ^ 53) : (x == Float.ofNat k) = true ↔ k = 1 := by
  constructor
  · intro heq
    by_contra hne
    have hcompare : x.toModel.unpack.compare (Float.ofNat 1).toModel.unpack = some .eq :=
      eq_of_beq hx
    have hle : Float.ofNat 1 ≥ x := by
      have hany : (x.toModel.unpack.compare (Float.ofNat 1).toModel.unpack).any (·.isLE) = true := by
        rw [hcompare]
        rfl
      exact decide_eq_true hany
    have hlt : 1 < k := by omega
    rw [Number.beq_ofNat_eq_false (by decide) hlt hbound hle] at heq
    cases heq
  · rintro rfl
    exact hx

/-- The first node of those that pass a test has none of them before it. -/
theorem head?_filter {p : Node → Bool} (hn : n ∈ ns) (hp : p n = true) :
    (ns.filter p).head? = some n ↔ (ns.takeWhile (· != n)).any p = false := by
  induction ns with
  | nil => cases hn
  | cons m ns ih =>
      by_cases hm : m = n
      · subst hm
        simp [hp]
      · have hmem : n ∈ ns := by
          rcases List.mem_cons.mp hn with rfl | hn
          · exact absurd rfl hm
          · exact hn
        have htake : (m :: ns).takeWhile (· != n) = m :: ns.takeWhile (· != n) := by
          rw [List.takeWhile_cons, if_pos (by simpa using hm)]
        rw [List.filter_cons, htake, List.any_cons]
        cases hpm : p m with
        | true => simp [hm]
        | false => simpa using ih hmem

/-! ## The nodes of a step -/

section

variable {test' : NodeTest}

/-- Attributes pass the test on their axis as they pass the test of the pattern, and nothing else
passes that. -/
theorem accepts_onAttributes (hfits : test.Fits .attributeAxis) :
    (onAttributes test).accepts F n = true ↔
      F.type n = .attributeNode ∧ test.accepts F n = true := by
  have hname := hfits.2.2
  obtain ⟨kind, name⟩ := test
  unfold onAttributes
  cases kind with
  | node =>
      obtain rfl : name = .any := hname rfl
      simp [NodeTest.accepts, NodeTest.ofKind, NodeKind.accepts, NameTest.accepts]
  | attributeNode =>
      simp only [NodeTest.accepts, NodeKind.accepts, Bool.and_eq_true, beq_iff_eq]
      exact ⟨fun h => ⟨h.1, h⟩, fun h => h.2⟩
  | element | text | comment | processingInstruction | document | namespaceNode | never =>
      simp only [NodeTest.accepts, NodeTest.ofKind, NodeKind.accepts, Bool.false_and,
        Bool.and_eq_true, beq_iff_eq, Bool.false_eq_true, false_iff, not_and]
      intro htype
      simp [htype]

theorem kind_onAttributes (test : NodeTest) : (onAttributes test).kind ≠ .node := by
  obtain ⟨kind, name⟩ := test
  cases kind <;> simp [onAttributes, NodeTest.ofKind]

/-- A node with a parent is on the child axis of the parent if it is of a type that children have. -/
theorem isTreeNode_iff (R : F.Rooted) (hm : F.parent? n = some m) :
    F.isTreeNode n = isChildType (F.type n) := by
  have hroot : F.type n ≠ .root := by
    rw [Ne, ← R n, hm]
    simp
  unfold Forest.isTreeNode
  cases htype : F.type n with
  | root => exact absurd htype hroot
  | element | attributeNode | text | comment | processingInstruction | namespaceNode => rfl

theorem isChildType_of_accepts (hfits : test.Fits .child) (hkind : test.kind ≠ .document)
    (haccepts : test.accepts F n = true) (hnode : test.kind ≠ .node) :
    isChildType (F.type n) = true := by
  have hattribute := hfits.1
  have hnamespace := hfits.2.1
  obtain ⟨kind, name⟩ := test
  cases kind with
  | node => exact absurd rfl hnode
  | document => exact absurd rfl hkind
  | attributeNode => cases hattribute rfl
  | namespaceNode => cases hnamespace rfl
  | element | text | comment | processingInstruction =>
      simp only [NodeTest.accepts, NodeKind.accepts, Bool.and_eq_true, beq_iff_eq] at haccepts
      rw [haccepts.1]
      rfl
  | never => simp [NodeTest.accepts, NodeKind.accepts] at haccepts

/-- The nodes that a step meets from `m` are the children of `m`, or its attributes, that pass the
test of the pattern. -/
theorem mem_step (W : F.WellFormed) (R : F.Rooted) (ht : Tests axis test test') :
    n ∈ (F.onAxis axis m).filter (test.accepts F) ↔ F.parent? n = some m ∧
      test'.accepts F n = true ∧ (test'.kind = .node → isChildType (F.type n) = true) := by
  rw [List.mem_filter]
  have hfits := ht.fits
  rcases ht.axis with ⟨rfl, rfl⟩ | ⟨rfl, rfl⟩
  · rw [Forest.onAxis, W.mem_children]
    constructor
    · rintro ⟨⟨hm, htree⟩, haccepts⟩
      exact ⟨hm, haccepts, fun _ => isTreeNode_iff R hm ▸ htree⟩
    · rintro ⟨hm, haccepts, hnode⟩
      refine ⟨⟨hm, ?_⟩, haccepts⟩
      rw [isTreeNode_iff R hm]
      by_cases hkind : test'.kind = .node
      · exact hnode hkind
      · exact isChildType_of_accepts hfits ht.kind haccepts hkind
  · rw [Forest.onAxis, W.mem_attributes, accepts_onAttributes hfits]
    constructor
    · rintro ⟨⟨hm, htype⟩, haccepts⟩
      exact ⟨hm, ⟨htype, haccepts⟩, fun h => absurd h (kind_onAttributes test)⟩
    · rintro ⟨hm, ⟨htype, haccepts⟩, -⟩
      exact ⟨⟨hm, htype⟩, haccepts⟩

end

/-! ## The three checks -/

section

variable {test' : NodeTest} (W : h.forest.WellFormed) (R : h.forest.Rooted)
  (ht : Tests axis test test') (hm : h.forest.parent? n = some m)
  (haccepts : test'.accepts h.forest n = true)
  (hchild : test'.kind = .node → isChildType (h.forest.type n) = true)

include W R ht hm haccepts hchild

/-- The test `[1]` on elements. -/
theorem not_hasEarlierMatch_iff {x : Float} (hkind : test'.kind = .element) (hx : (x == 1) = true) :
    hasEarlierMatch h.forest test' n = false ↔
      n ∈ Meaning.stepNodes h.forest axis test [fun _ => .number x] c m := by
  have hmem := (mem_step W R ht).mpr ⟨hm, haccepts, hchild⟩
  obtain ⟨rfl, rfl⟩ : axis = .child ∧ test' = test := by
    rcases ht.axis with h | ⟨-, rfl⟩
    · exact h
    · obtain ⟨kind, name⟩ := test
      cases kind <;> simp [onAttributes, NodeTest.ofKind] at hkind
  have hlength : ((h.forest.onAxis .child m).filter (test'.accepts h.forest)).length < 2 ^ 53 := by
    refine W.length_lt ?_ fun k hk => ?_
    · exact ((W.ascending_children m).nodup).filter _
    · exact Forest.has_of_parent (W.linked.parent_of_mem_children (List.mem_filter.mp hk).1)
  rw [hasEarlierMatch, hm]
  dsimp only
  have hn : n ∈ h.forest.children m := (List.mem_filter.mp hmem).1
  rw [← head?_filter hn haccepts]
  change _ ↔ n ∈ Meaning.keep (fun _ => .number x) c
    ((h.forest.onAxis .child m).filter (test'.accepts h.forest))
  rw [Meaning.mem_keep]
  constructor
  · intro hfirst
    refine ⟨1, ?_, hx⟩
    rw [List.mem_zipIdx_iff_le_and_getElem?_sub]
    rw [List.head?_eq_getElem?] at hfirst
    exact ⟨Nat.le_refl _, hfirst⟩
  · rintro ⟨k, hk, hselects⟩
    obtain ⟨hle, hk⟩ := List.mem_zipIdx_iff_le_and_getElem?_sub.mp hk
    have hlt := (List.getElem?_eq_some_iff.mp hk).1
    obtain rfl := (beq_ofNat_iff hx (by omega) (by omega)).mp hselects
    rw [List.head?_eq_getElem?]
    exact hk

omit W R hm hchild in
theorem axis_of_test :
    (if test'.kind == .attributeNode then Axis.attributeAxis else .child) = axis := by
  have hfits := ht.fits
  rcases ht.axis with ⟨rfl, rfl⟩ | ⟨rfl, rfl⟩
  · rw [if_neg]
    intro hkind
    cases hfits.1 (eq_of_beq hkind)
  · rw [if_pos]
    obtain ⟨kind, name⟩ := test
    cases kind <;> simp_all [onAttributes, NodeTest.ofKind, NodeTest.accepts, NodeKind.accepts]

omit R hm haccepts hchild in
theorem filter_test : (h.forest.onAxis axis m).filter (test'.accepts h.forest) =
    (h.forest.onAxis axis m).filter (test.accepts h.forest) := by
  have hfits := ht.fits
  rcases ht.axis with ⟨rfl, rfl⟩ | ⟨rfl, rfl⟩
  · rfl
  · refine List.filter_congr fun a ha => ?_
    rw [Bool.eq_iff_iff, accepts_onAttributes hfits]
    exact ⟨And.right, fun h => ⟨((W.mem_attributes m a).mp ha).2, h⟩⟩

omit W R hm haccepts hchild in
theorem fits_test : test'.Fits axis := by
  have hfits := ht.fits
  rcases ht.axis with ⟨rfl, rfl⟩ | ⟨rfl, rfl⟩
  · exact hfits
  · obtain ⟨kind, name⟩ := test
    cases kind <;> simp_all [NodeTest.Fits, onAttributes, NodeTest.ofKind]

omit haccepts hchild R in
theorem among_iff [h.Realizes Φ Γ] (hes : Expr.MeansList h.forest Φ Γ true es Bs)
    (hc : c.Sound h.forest Γ)
    (hb : passes h c test' es (.among (.path .parentNode axis test' es)) n = .ok b) :
    b = true ↔ n ∈ Meaning.stepNodes h.forest axis test Bs c m := by
  have hn := Forest.has_of_parent hm
  obtain ⟨v, hv, hb⟩ := bind_eq_ok.mp hb
  have hmeans : (Expr.path .parentNode axis test' es).Means h.forest Φ Γ false
      (.path h.forest (.oneNode none h.forest.parent?) axis test' Bs) := by
    rw [Expr.Means]
    exact ⟨fits_test ht, _, Bs, by rw [Expr.Means], hes, rfl⟩
  have hvalue := ((h.sound_engine W _).value hmeans (.refl _) (hc.forItem hn 1 _) hv).1
  have hnodes : Meaning.path h.forest (.oneNode none h.forest.parent?) axis test' Bs
      (c.forItem n 1 (.known 1)) =
        .nodes (h.forest.inOrder (Meaning.stepNodes h.forest axis test Bs c m)) := by
    have hparent : (Meaning.oneNode none h.forest.parent? (c.forItem n 1 (.known 1))) =
        .nodes [m] := by
      change Outcome.nodes (h.forest.parent? n).toList = _
      rw [hm]
      rfl
    rw [Meaning.path, hparent]
    dsimp only
    rw [List.flatMap_singleton, Meaning.stepNodes_forItem, Meaning.stepNodes, filter_test W ht]
    rfl
  have hmem : n ∈ h.forest.inOrder (Meaning.stepNodes h.forest axis test Bs c m) ↔
      n ∈ Meaning.stepNodes h.forest axis test Bs c m :=
    W.mem_inOrder fun k hk => W.linked.has_of_mem_onAxis (W.linked.has_parent hm)
      (List.mem_filter.mp (Meaning.selected_subset hk)).1
  rw [hnodes] at hvalue
  cases v with
  | nodeSet s =>
      obtain ⟨ns, hns, hiff⟩ := NodeSet.Means.contains W hn hvalue hb
      cases hns
      rw [hiff, hmem]
  | fragment f => exact hvalue.elim
  | boolean | number | string | object => cases hvalue

/-- A step passes a node exactly if the step of the expression selects it from the parent. -/
theorem passes_iff [h.Realizes Φ Γ] (hes : Expr.MeansList h.forest Φ Γ true es Bs)
    (hc : c.Sound h.forest Γ)
    (hb : passes h c test' es (checkFor test' es) n = .ok b) :
    b = true ↔ n ∈ Meaning.stepNodes h.forest axis test Bs c m := by
  have hmem := (mem_step W R ht).mpr ⟨hm, haccepts, hchild⟩
  have hpositional (hb : passes h c test' es (checkFor.positional test' es) n = .ok b) :
      b = true ↔ n ∈ Meaning.stepNodes h.forest axis test Bs c m := by
    unfold checkFor.positional at hb
    split at hb
    · rw [axis_of_test ht haccepts] at hb
      exact among_iff W ht hm hes hc hb
    · rename_i hnone
      exact passesAll_iff W hes (by simpa using hnone) hc (Forest.has_of_parent hm) hb hmem
  unfold checkFor at hb
  split at hb
  · rename_i x hkind
    split at hb
    · rename_i hx
      cases hb
      rw [Expr.MeansList] at hes
      obtain ⟨B, Bs', hB, hBs, rfl⟩ := hes
      rw [Expr.MeansList] at hBs
      obtain rfl := hBs
      obtain ⟨w, hw, rfl⟩ := hB.of_literal
      obtain rfl := hw.means
      rw [Bool.not_eq_true']
      exact not_hasEarlierMatch_iff W R ht hm haccepts hchild hkind hx
    · exact hpositional hb
  · exact hpositional hb

end

end Pattern

end XPath
