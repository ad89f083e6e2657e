import XPath.Proofs.Collation.Preorder

/-!
# Accents and case

English collation ignores accents and case first, then the case alone, and lets the case decide in the
end. So the case should decide between two texts that are equal but for case. It does
(`Comparer.english_eq_caseTiebreak`) unless the first pass parts a capital from its small letter, as it
does with five: what stands for `Ð` and `Þ` are brackets, which have no lower case, and `Ÿ`, `ẞ` and the
sign for Ångström are outside of the letters that lose their accent, while their small letters are not.
-/

namespace XPath

variable {a b : List Char} {x y : Char}

namespace Collation

def loneCapitals : List Char := ['Ð', 'Þ', 'Ÿ', 'ẞ', '\u212B']

def bareForm (l : Char) : Char :=
  if 0xC0 ≤ l.toNat ∧ l.toNat ≤ 0xFF then Text.toLower (unaccented l) else l

/-- Wherever two texts have a character, both characters are such capitals or neither is. -/
def Matched (a b : List Char) : Prop :=
  ∀ p ∈ a.zip b, (p.1 ∈ loneCapitals ↔ p.2 ∈ loneCapitals)

instance (a b : List Char) : Decidable (Matched a b) :=
  List.decidableBAll (fun p : Char × Char => p.1 ∈ loneCapitals ↔ p.2 ∈ loneCapitals) (a.zip b)

/-! ## Characters -/

theorem unaccented_of_gt (h : 0xFF < x.toNat) : unaccented x = x := by
  unfold unaccented
  rw [if_neg]
  simp only [Bool.and_eq_true, decide_eq_true_eq]
  omega

/-- Of the characters beyond Latin-1 only those of the list have a lower case form from U+00C0 to
U+00FF. -/
theorem lone_of_shift : ∀ p ∈ Text.lowerShifts, ∀ i < 64,
    0xFF < ((0xC0 + i : Nat) : Int) - p.2 →
      p.1.holds (((0xC0 + i : Nat) : Int) - p.2).toNat = true →
        (((0xC0 + i : Nat) : Int) - p.2).toNat ∈ loneCapitals.map Char.toNat := by
  decide +kernel

theorem mem_loneCapitals_of_toLower (hx : 0xFF < x.toNat) (hfirst : 0xC0 ≤ (Text.toLower x).toNat)
    (hlast : (Text.toLower x).toNat ≤ 0xFF) : x ∈ loneCapitals := by
  rw [Text.toLower, if_neg (by omega)] at hfirst hlast
  cases hfind : Text.lowerShifts.find? (·.1.holds x.toNat) with
  | none =>
      simp only [hfind] at hlast
      omega
  | some p =>
      obtain ⟨run, shift⟩ := p
      have hholds : run.holds x.toNat = true := by
        have := List.find?_some hfind
        exact this
      simp only [hfind] at hfirst hlast
      -- a number that no character has is read as zero, which is no letter
      have htarget : (Char.ofNat (x.toNat + shift).toNat).toNat = (x.toNat + shift).toNat := by
        by_cases hvalid : (x.toNat + shift).toNat.isValidChar
        · rw [Char.ofNat, dif_pos hvalid]
          rfl
        · rw [Char.ofNat, dif_neg hvalid] at hfirst
          exact absurd hfirst (by decide)
      rw [htarget] at hfirst hlast
      have hsource : ((0xC0 + ((x.toNat + shift).toNat - 0xC0) : Nat) : Int) - shift = x.toNat := by
        omega
      have hlone := lone_of_shift ⟨run, shift⟩ (List.mem_of_find?_eq_some hfind)
        ((x.toNat + shift).toNat - 0xC0) (by omega)
      rw [hsource, Int.toNat_natCast] at hlone
      obtain ⟨y, hy, hcode⟩ := List.mem_map.mp (hlone (by omega) hholds)
      rwa [← Char.toNat_inj.mp hcode]

/-- But for the capitals of the list the form without accent and case comes from the lower case
form. -/
theorem toLower_unaccented (h : x ∉ loneCapitals) :
    Text.toLower (unaccented x) = bareForm (Text.toLower x) := by
  have hlatin : ∀ i : Fin 256, Char.ofNat i ∉ loneCapitals →
      Text.toLower (unaccented (Char.ofNat i)) = bareForm (Text.toLower (Char.ofNat i)) := by
    decide +kernel
  by_cases hx : x.toNat < 256
  · have hsmall := hlatin ⟨x.toNat, hx⟩
    rw [Char.ofNat_toNat] at hsmall
    exact hsmall h
  · have hgt : 0xFF < x.toNat := by omega
    rw [unaccented_of_gt hgt, bareForm, if_neg]
    rintro ⟨hfirst, hlast⟩
    exact h (mem_loneCapitals_of_toLower hgt hfirst hlast)

theorem toLower_unaccented_ne (h : x ∈ loneCapitals) :
    Text.toLower (unaccented x) ≠ bareForm (Text.toLower x) := by
  have hall : (loneCapitals.all fun y =>
      Text.toLower (unaccented y) != bareForm (Text.toLower y)) = true := by
    decide +kernel
  simpa using List.all_eq_true.mp hall x h

theorem eq_of_mem_loneCapitals (hx : x ∈ loneCapitals) (hy : y ∈ loneCapitals)
    (h : Text.toLower x = Text.toLower y) : x = y := by
  have hall : (loneCapitals.all fun a => loneCapitals.all fun b =>
      Text.toLower a != Text.toLower b || a == b) = true := by
    decide +kernel
  simpa [h] using List.all_eq_true.mp (List.all_eq_true.mp hall x hx) y hy

/-- Characters that differ in case only keep a common form without their accents if both are capitals
of the list or neither is. -/
theorem toLower_unaccented_eq_iff (h : Text.toLower x = Text.toLower y) :
    Text.toLower (unaccented x) = Text.toLower (unaccented y) ↔
      (x ∈ loneCapitals ↔ y ∈ loneCapitals) := by
  by_cases hx : x ∈ loneCapitals
  · by_cases hy : y ∈ loneCapitals
    · simp [eq_of_mem_loneCapitals hx hy h]
    · rw [toLower_unaccented hy, ← h]
      simp [hx, hy, toLower_unaccented_ne hx]
  · by_cases hy : y ∈ loneCapitals
    · rw [toLower_unaccented hx, h]
      simp [hx, hy, (toLower_unaccented_ne hy).symm]
    · rw [toLower_unaccented hx, toLower_unaccented hy, h]
      simp [hx, hy]

/-! ## Texts -/

theorem caseless_eq_eq : caseless a b = .eq ↔ a.map Text.toLower = b.map Text.toLower :=
  compareLists_eq_eq

theorem map_toLower_unaccented_eq_iff (h : a.map Text.toLower = b.map Text.toLower) :
    (a.map unaccented).map Text.toLower = (b.map unaccented).map Text.toLower ↔ Matched a b := by
  induction a generalizing b with
  | nil => simp_all [Matched, eq_comm]
  | cons x a ih =>
      cases b with
      | nil => simp at h
      | cons y b =>
          simp only [List.map_cons, List.cons.injEq] at h ⊢
          rw [toLower_unaccented_eq_iff h.1, ih h.2]
          simp [Matched]

end Collation

namespace Comparer

open Collation

/-- Between texts that are equal but for case the first pass of English collation finds no difference
exactly if they have the capitals that lose their small letter in the same places. Then the case
decides; otherwise the first pass does, whichever case comes first. -/
theorem english_eq_caseTiebreak (lowerFirst : Bool) (s t : String)
    (h : caseless s.toList t.toList = .eq) :
    (caseless (s.toList.map unaccented) (t.toList.map unaccented) = .eq ↔
        Matched s.toList t.toList) ∧
      (Matched s.toList t.toList → (english lowerFirst).compareKeys s t =
        caseTiebreak lowerFirst s.toList t.toList) ∧
      (¬Matched s.toList t.toList → (english lowerFirst).compareKeys s t =
        caseless (s.toList.map unaccented) (t.toList.map unaccented)) := by
  have hfirst : caseless (s.toList.map unaccented) (t.toList.map unaccented) = .eq ↔
      Matched s.toList t.toList := by
    rw [caseless_eq_eq]
    exact map_toLower_unaccented_eq_iff (caseless_eq_eq.mp h)
  have hkeys : (english lowerFirst).compareKeys s t =
      (caseless (s.toList.map unaccented) (t.toList.map unaccented)).then
        (caseTiebreak lowerFirst s.toList t.toList) := by
    rw [compareKeys_of_lowerFirst? rfl, compareTexts, h]
    rfl
  refine ⟨hfirst, fun hmatched => ?_, fun hlone => ?_⟩
  · rw [hkeys, hfirst.mpr hmatched]
    rfl
  · rw [hkeys]
    cases ho : caseless (s.toList.map unaccented) (t.toList.map unaccented) with
    | eq => exact absurd (hfirst.mp ho) hlone
    | lt | gt => rfl

/-- Two spellings of a word with a capital of the list in one place, and letters with accents in both
cases around it. -/
theorem english_eq_caseTiebreak_spellings :
    caseless "ÀÞé".toList "àÞÉ".toList = .eq ∧ Matched "ÀÞé".toList "àÞÉ".toList ∧
      (english true).compareKeys "ÀÞé" "àÞÉ" = caseTiebreak true "ÀÞé".toList "àÞÉ".toList := by
  have hcaseless : caseless "ÀÞé".toList "àÞÉ".toList = .eq := by decide +kernel
  have hmatched : Matched "ÀÞé".toList "àÞÉ".toList := by decide +kernel
  exact ⟨hcaseless, hmatched, (english_eq_caseTiebreak true "ÀÞé" "àÞÉ" hcaseless).2.1 hmatched⟩

/-- When small letters come first, `ð` nevertheless comes behind `Ð`: a bracket and a brace stand for
them, which are told apart before the case is looked at. -/
theorem not_english_eq_caseTiebreak :
    ¬∀ (lowerFirst : Bool) (s t : String), caseless s.toList t.toList = .eq →
      (english lowerFirst).compareKeys s t = caseTiebreak lowerFirst s.toList t.toList := by
  intro h
  have hdiffer := h true "Ð" "ð" (by decide +kernel)
  revert hdiffer
  decide +kernel

end Comparer

end XPath
