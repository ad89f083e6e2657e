import Mathlib.Data.List.Forall2
import XPath.Proofs.Number.Order

/-!
# Which texts a comparer puts in order

A sort needs a comparer that is a total preorder. By code point and as numbers all texts are in order.
The other comparers leave it to the case to tell texts apart that are alike in every other respect, and
look at the case of one side only. So they are total preorders on the texts over an alphabet exactly if
no two characters of it are alike and both of the case that comes first, or both not
(`Comparer.isPreorder_iff_tellsApart`). The digraphs `Ǆ` and `ǅ` belong to no such alphabet when small
letters come first.
-/

namespace XPath

variable {c : Comparer} {S : Char → Prop} {a b : List Char} {x y : Char} {lowerFirst : Bool}

namespace Collation

def isPreferred (lowerFirst : Bool) (x : Char) : Bool :=
  if lowerFirst then Text.isLowercase x else Text.isUppercase x

def codes (a : List Char) : List Int := a.map fun x => (x.toNat : Int)

def ranks (lowerFirst : Bool) (a : List Char) : List Int :=
  a.map fun x => if isPreferred lowerFirst x then 0 else 1

theorem compareLists_eq_compare (a b : List Char) :
    compareLists a b = compare (codes a) (codes b) := by
  induction a generalizing b with
  | nil => cases b <;> rfl
  | cons x a ih =>
      cases b with
      | nil => rfl
      | cons y b =>
          simp only [compareLists, ih, compareChars, codes, List.map_cons, List.compare_cons_cons,
            Number.compare_natCast]

theorem compareLists_eq_eq : compareLists a b = .eq ↔ a = b := by
  rw [compareLists_eq_compare, Std.LawfulEqOrd.compare_eq_iff_eq]
  refine (List.map_injective_iff.mpr fun x y hxy => ?_).eq_iff
  exact Char.toNat_inj.mp (Int.ofNat.inj hxy)

/-- Where characters differ only if their case does, the first difference decides as the ranks do. -/
theorem caseTiebreak_eq_compare
    (h : List.Forall₂ (fun x y => isPreferred lowerFirst x = isPreferred lowerFirst y → x = y) a b) :
    caseTiebreak lowerFirst a b = compare (ranks lowerFirst a) (ranks lowerFirst b) := by
  induction h with
  | nil => rfl
  | @cons x y a b hxy _ ih =>
      rw [caseTiebreak, ranks, ranks, List.map_cons, List.map_cons, List.compare_cons_cons, ih]
      by_cases heq : x = y
      · subst heq
        simp [ranks, Std.ReflCmp.compare_self]
      · have hcase : isPreferred lowerFirst x ≠ isPreferred lowerFirst y := fun h => heq (hxy h)
        rw [if_neg (by simpa using heq)]
        change (if isPreferred lowerFirst x then Ordering.lt else .gt) = _
        cases hx : isPreferred lowerFirst x <;> cases hy : isPreferred lowerFirst y
        · exact absurd (hx.trans hy.symm) hcase
        · rfl
        · rfl
        · exact absurd (hx.trans hy.symm) hcase

end Collation

namespace Comparer

open Collation

def compareKeys (c : Comparer) (s t : String) : Ordering := c.compare (c.prepare s) (c.prepare t)

/-- The comparer is a total preorder on the texts over an alphabet. -/
structure IsPreorder (c : Comparer) (S : Char → Prop) : Prop where
  swap : ∀ s t : String, (∀ x ∈ s.toList, S x) → (∀ x ∈ t.toList, S x) →
    c.compareKeys s t = (c.compareKeys t s).swap
  trans : ∀ s t u : String, (∀ x ∈ s.toList, S x) → (∀ x ∈ t.toList, S x) →
    (∀ x ∈ u.toList, S x) → c.compareKeys s t ≠ .gt → c.compareKeys t u ≠ .gt →
      c.compareKeys s u ≠ .gt

def lowerFirst? : Comparer → Option Bool
  | caseOrder lowerFirst | english lowerFirst => some lowerFirst
  | descending c => c.lowerFirst?
  | codepoint | numeric => none

/-- The forms of its characters in which a text is compared before the case decides. -/
def forms : Comparer → List (Char → Char)
  | codepoint => [id]
  | caseOrder _ => [Text.toLower]
  | english _ => [Text.toLower ∘ unaccented, Text.toLower]
  | numeric => []
  | descending c => c.forms

/-- Of two characters of the alphabet that are alike in all forms, the case that comes first is the
case of exactly one. -/
def TellsApart (c : Comparer) (S : Char → Prop) : Prop :=
  ∀ lowerFirst ∈ c.lowerFirst?, ∀ x y, S x → S y → (∀ form ∈ c.forms, form x = form y) →
    isPreferred lowerFirst x = isPreferred lowerFirst y → x = y

/-! ## Texts by their places -/

theorem isPreorder_of_places (place : String → List (List Int))
    (h : ∀ s t : String, (∀ x ∈ s.toList, S x) → (∀ x ∈ t.toList, S x) →
      c.compareKeys s t = Ord.compare (place s) (place t)) : c.IsPreorder S where
  swap s t hs ht := by
    rw [h s t hs ht, h t s ht hs]
    exact Std.OrientedOrd.eq_swap
  trans s t u hs ht hu hst htu := by
    rw [h s t hs ht] at hst
    rw [h t u ht hu] at htu
    rw [h s u hs hu]
    exact Ordering.isLE_iff_ne_gt.mp (Std.TransOrd.isLE_trans (Ordering.isLE_iff_ne_gt.mpr hst)
      (Ordering.isLE_iff_ne_gt.mpr htu))

theorem compare_descending (c : Comparer) (s t : String) :
    c.descending.compareKeys s t = (c.compareKeys s t).swap := by
  simp only [compareKeys, prepare]
  cases c.prepare s <;> cases c.prepare t <;> rfl

theorem IsPreorder.descending (h : c.IsPreorder S) : c.descending.IsPreorder S where
  swap s t hs ht := by
    rw [compare_descending, compare_descending, h.swap s t hs ht]
  trans s t u hs ht hu hst htu := by
    rw [compare_descending, ← h.swap _ _ ‹_› ‹_›] at hst htu ⊢
    exact h.trans u t s hu ht hs htu hst

/-- Texts that are alike in some forms are so character by character. -/
theorem forall₂_of_forms {forms : List (Char → Char)} (hlength : a.length = b.length)
    (h : ∀ form ∈ forms, a.map form = b.map form) :
    List.Forall₂ (fun x y => ∀ form ∈ forms, form x = form y) a b := by
  induction a generalizing b with
  | nil =>
      cases b with
      | nil => exact .nil
      | cons y b => cases hlength
  | cons x a ih =>
      cases b with
      | nil => cases hlength
      | cons y b =>
          simp only [List.map_cons, List.cons.injEq] at h
          exact .cons (fun form hform => (h form hform).1)
            (ih (Nat.succ.inj hlength) fun form hform => (h form hform).2)

theorem caseTiebreak_of_tellsApart (h : c.TellsApart S) (hc : c.lowerFirst? = some lowerFirst)
    (ha : ∀ x ∈ a, S x) (hb : ∀ y ∈ b, S y)
    (hlength : a.length = b.length) (hforms : ∀ form ∈ c.forms, a.map form = b.map form) :
    caseTiebreak lowerFirst a b = Ord.compare (ranks lowerFirst a) (ranks lowerFirst b) := by
  refine caseTiebreak_eq_compare ?_
  have hall := forall₂_of_forms hlength hforms
  clear hlength hforms
  induction hall with
  | nil => exact .nil
  | @cons x y a b hxy _ ih =>
      refine .cons (h lowerFirst hc x y (ha x (by simp)) (hb y (by simp)) hxy) ?_
      exact ih (fun x hx => ha x (List.mem_cons_of_mem _ hx))
        fun y hy => hb y (List.mem_cons_of_mem _ hy)

theorem compare_pair (a b a' b' : List Int) :
    Ord.compare [a, b] [a', b'] = (Ord.compare a a').then (Ord.compare b b') := by
  simp [List.compare_cons_cons]

theorem compare_triple (a b d a' b' d' : List Int) :
    Ord.compare [a, b, d] [a', b', d'] =
      (Ord.compare a a').then ((Ord.compare b b').then (Ord.compare d d')) := by
  simp [List.compare_cons_cons]

theorem then_congr {o o₁ o₂ : Ordering} (h : o = .eq → o₁ = o₂) : o.then o₁ = o.then o₂ := by
  cases o with
  | eq => exact h rfl
  | lt | gt => rfl

theorem compareTexts_caseOrder (h : (caseOrder lowerFirst).TellsApart S) (ha : ∀ x ∈ a, S x)
    (hb : ∀ y ∈ b, S y) : (caseOrder lowerFirst).compareTexts a b =
      Ord.compare [codes (a.map Text.toLower), ranks lowerFirst a]
        [codes (b.map Text.toLower), ranks lowerFirst b] := by
  rw [compareTexts, compare_pair, caseless, ← compareLists_eq_compare]
  refine then_congr fun hlower => ?_
  rw [compareLists_eq_eq] at hlower
  refine caseTiebreak_of_tellsApart h rfl ha hb ?_ (by simpa [forms])
  simpa using congrArg List.length hlower

theorem compareTexts_english (h : (english lowerFirst).TellsApart S) (ha : ∀ x ∈ a, S x)
    (hb : ∀ y ∈ b, S y) : (english lowerFirst).compareTexts a b =
      Ord.compare [codes (a.map (Text.toLower ∘ unaccented)), codes (a.map Text.toLower),
          ranks lowerFirst a]
        [codes (b.map (Text.toLower ∘ unaccented)), codes (b.map Text.toLower),
          ranks lowerFirst b] := by
  rw [compareTexts, compare_triple, caseless, caseless, List.map_map, List.map_map,
    ← compareLists_eq_compare, ← compareLists_eq_compare]
  refine then_congr fun hbase => then_congr fun hlower => ?_
  rw [compareLists_eq_eq] at hbase hlower
  refine caseTiebreak_of_tellsApart h rfl ha hb ?_ (by simp [forms, hbase, hlower])
  simpa using congrArg List.length hlower

theorem isPreorder_of_tellsApart (h : c.TellsApart S) : c.IsPreorder S := by
  induction c with
  | codepoint =>
      refine isPreorder_of_places (fun s => [codes s.toList]) fun s t _ _ => ?_
      change compareLists s.toList t.toList = _
      simp [compareLists_eq_compare, List.compare_cons_cons]
  | caseOrder lowerFirst =>
      exact isPreorder_of_places _ fun s t hs ht => compareTexts_caseOrder h hs ht
  | english lowerFirst =>
      exact isPreorder_of_places _ fun s t hs ht => compareTexts_english h hs ht
  | numeric =>
      refine isPreorder_of_places (fun s => [Number.place (Number.ofText s)]) fun s t _ _ => ?_
      change Collation.compareNumbers _ _ = _
      simp [Number.compareNumbers_eq_compare, List.compare_cons_cons]
  | descending c ih => exact (ih h).descending

/-! ## Alike characters that are not told apart -/

/-- The case of the one character decides, whatever the case of the other. -/
theorem compareTexts_singleton (hc : c.lowerFirst? = some lowerFirst)
    (hforms : ∀ form ∈ c.forms, form x = form y) (hne : x ≠ y)
    (hcase : isPreferred lowerFirst x = isPreferred lowerFirst y) :
    c.compareTexts [x] [y] = c.compareTexts [y] [x] ∧ c.compareTexts [x] [y] ≠ .eq := by
  have htie {x y : Char} (hne : x ≠ y) : caseTiebreak lowerFirst [x] [y] =
      if isPreferred lowerFirst x then .lt else .gt := by
    rw [caseTiebreak, if_neg (by simpa using hne)]
    rfl
  have hdecides : caseTiebreak lowerFirst [x] [y] = caseTiebreak lowerFirst [y] [x] ∧
      caseTiebreak lowerFirst [x] [y] ≠ .eq := by
    rw [htie hne, htie hne.symm, hcase]
    refine ⟨rfl, ?_⟩
    split <;> simp
  have hsame (x : Char) : compareLists [x] [x] = .eq := compareLists_eq_eq.mpr rfl
  induction c with
  | codepoint | numeric => cases hc
  | caseOrder l =>
      cases hc
      have hlower : Text.toLower x = Text.toLower y := hforms _ (by simp [forms])
      simpa [compareTexts, caseless, hlower, hsame] using hdecides
  | english l =>
      cases hc
      have hbase : Text.toLower (unaccented x) = Text.toLower (unaccented y) :=
        hforms (Text.toLower ∘ unaccented) (by simp [forms])
      have hlower : Text.toLower x = Text.toLower y := hforms _ (by simp [forms])
      simpa [compareTexts, caseless, hbase, hlower, hsame] using hdecides
  | descending c ih =>
      obtain ⟨heq, hne⟩ := ih hc hforms
      rw [compareTexts, compareTexts, heq]
      refine ⟨rfl, fun h => hne ?_⟩
      rw [heq]
      cases ho : c.compareTexts [y] [x] <;> simp_all

theorem compareKeys_of_lowerFirst? (hc : c.lowerFirst? = some lowerFirst) (s t : String) :
    c.compareKeys s t = c.compareTexts s.toList t.toList := by
  have hprepare (s : String) : c.prepare s = .text s := by
    induction c with
    | codepoint | numeric => cases hc
    | caseOrder | english => rfl
    | descending c ih => exact ih hc
  rw [compareKeys, hprepare, hprepare]
  rfl

/-- A comparer is a total preorder on the texts over an alphabet exactly if it tells the characters of
the alphabet apart. -/
theorem isPreorder_iff_tellsApart (c : Comparer) (S : Char → Prop) :
    c.IsPreorder S ↔ c.TellsApart S := by
  refine ⟨fun h lowerFirst hc x y hx hy hforms hcase => ?_, isPreorder_of_tellsApart⟩
  by_contra hne
  have hswap := h.swap (String.ofList [x]) (String.ofList [y]) (by simpa using hx) (by simpa using hy)
  rw [compareKeys_of_lowerFirst? hc, compareKeys_of_lowerFirst? hc, String.toList_ofList,
    String.toList_ofList] at hswap
  obtain ⟨heq, hdecided⟩ := compareTexts_singleton hc hforms hne hcase
  rw [← heq] at hswap
  generalize c.compareTexts [x] [y] = o at hswap hdecided
  cases o with
  | eq => exact hdecided rfl
  | lt | gt => exact absurd hswap (by decide)

/-- On two spellings of a digraph, the capital and the one with a capital first letter, each comes
behind the other when small letters come first. -/
theorem not_isPreorder : ¬∀ c : Comparer, c.IsPreorder fun _ => True := by
  intro h
  have hswap := (h (.caseOrder true)).swap "Ǆ" "ǅ" (fun _ _ => trivial) fun _ _ => trivial
  revert hswap
  decide +kernel

end Comparer

end XPath
