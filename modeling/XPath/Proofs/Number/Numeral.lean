import Mathlib
import XPath.Number.Text

/-!
# Decimal numerals

The value of a numeral is that of its digits, in units of the last place (`Number.numeralValue`).
Zeros in front of the digits and behind a fraction do not change it. A magnitude that is written
with so many places after the point has just these places, and its digits count the units of the
rounded magnitude (`Number.exists_fixed`).
-/

namespace XPath.Number

variable {ds es whole fraction : List Char}

/-! ## Digits -/

theorem natOfDigits_eq (ds : List Char) : natOfDigits ds = Nat.ofDigitChars 10 ds 0 :=
  Nat.ofDigitChars_eq_foldl.symm

theorem natOfDigits_append (ds es : List Char) :
    natOfDigits (ds ++ es) = 10 ^ es.length * natOfDigits ds + natOfDigits es := by
  simp only [natOfDigits_eq, Nat.ofDigitChars_append]
  exact Nat.ofDigitChars_eq_ofDigitChars_zero

@[simp] theorem natOfDigits_replicate (k : Nat) : natOfDigits (List.replicate k '0') = 0 := by
  rw [natOfDigits_eq, Nat.ofDigitChars_replicate_zero, Nat.mul_zero]

theorem natOfDigits_zeros_append (k : Nat) (ds : List Char) :
    natOfDigits (List.replicate k '0' ++ ds) = natOfDigits ds := by
  rw [natOfDigits_append, natOfDigits_replicate, Nat.mul_zero, Nat.zero_add]

theorem natOfDigits_append_zeros (k : Nat) (ds : List Char) :
    natOfDigits (ds ++ List.replicate k '0') = 10 ^ k * natOfDigits ds := by
  rw [natOfDigits_append, natOfDigits_replicate, List.length_replicate, Nat.add_zero]

theorem digitsOf_eq (n : Nat) : digitsOf n = Nat.toDigits 10 n := by
  rw [digitsOf, Nat.toString_eq_ofList_toDigits, String.toList_ofList]

theorem natOfDigits_digitsOf (n : Nat) : natOfDigits (digitsOf n) = n := by
  rw [natOfDigits_eq, digitsOf_eq, Nat.ofDigitChars_ten_toDigits]

theorem isDigit_of_mem_digitsOf {n : Nat} : ∀ c ∈ digitsOf n, c.isDigit = true := by
  intro c hc
  rw [digitsOf_eq] at hc
  exact Nat.isDigit_of_mem_toDigits (by decide) (by decide) hc

/-! ## Numerals -/

def wholeOf (cs : List Char) : List Char := cs.takeWhile (· != '.')

def fractionOf (cs : List Char) : List Char := (cs.dropWhile (· != '.')).drop 1

def numeralValue (cs : List Char) : ℚ :=
  natOfDigits (wholeOf cs ++ fractionOf cs) / 10 ^ (fractionOf cs).length

/-- Digits with a point before the fraction, if there is one. -/
def pointed (whole fraction : List Char) : List Char :=
  if fraction.isEmpty then whole else whole ++ '.' :: fraction

theorem ne_point_of_isDigit (h : ∀ c ∈ ds, c.isDigit = true) : ∀ c ∈ ds, (c != '.') = true := by
  intro c hc
  rw [bne_iff_ne]
  rintro rfl
  cases h _ hc

section

variable (hwhole : ∀ c ∈ whole, c.isDigit = true) (fraction : List Char)

include hwhole

theorem wholeOf_pointed : wholeOf (pointed whole fraction) = whole := by
  have hne := ne_point_of_isDigit hwhole
  unfold wholeOf pointed
  split
  · exact List.takeWhile_eq_self_iff.mpr hne
  · rw [List.takeWhile_append_of_pos hne, List.takeWhile_cons]
    exact List.append_nil whole

theorem fractionOf_pointed : fractionOf (pointed whole fraction) = fraction := by
  have hne := ne_point_of_isDigit hwhole
  unfold fractionOf pointed
  split
  · rename_i hnil
    rw [List.dropWhile_eq_nil_iff.mpr hne, List.isEmpty_iff.mp hnil]
    rfl
  · rw [List.dropWhile_append_of_pos hne]
    rfl

theorem numeralValue_pointed : numeralValue (pointed whole fraction) =
    natOfDigits (whole ++ fraction) / 10 ^ fraction.length := by
  rw [numeralValue, wholeOf_pointed hwhole, fractionOf_pointed hwhole]

end

/-- Neither zeros in front nor zeros at the end of the fraction count. -/
theorem natOfDigits_div_of_zeros (j k n : Nat) (whole fraction : List Char) :
    (natOfDigits (List.replicate j '0' ++ whole ++ (fraction ++ List.replicate n '0')) : ℚ) /
        10 ^ (fraction ++ List.replicate n '0').length =
      natOfDigits (List.replicate k '0' ++ whole ++ fraction) / 10 ^ fraction.length := by
  rw [← List.append_assoc, natOfDigits_append_zeros, List.append_assoc, List.append_assoc,
    natOfDigits_zeros_append, natOfDigits_zeros_append, List.length_append, List.length_replicate,
    pow_add, mul_comm, Nat.cast_mul, Nat.cast_pow, Nat.cast_ofNat]
  exact mul_div_mul_right _ _ (by positivity)

/-! ## Rounded magnitudes -/

def scaled (d : Dyadic) (places : Nat) : Nat :=
  roundDiv ((d.mantissa <<< d.exponent.toNat) * Nat.pow 10 places) (1 <<< (-d.exponent).toNat)

theorem exists_fixed (d : Dyadic) (places : Nat) : ∃ whole fraction,
    fixed d places = pointed whole fraction ∧ (∀ c ∈ whole ++ fraction, c.isDigit = true) ∧
      fraction.length = places ∧ natOfDigits (whole ++ fraction) = scaled d places := by
  obtain ⟨padded, hpadded⟩ : ∃ padded, padded =
      List.replicate (places + 1 - (digitsOf (scaled d places)).length) '0' ++
        digitsOf (scaled d places) := ⟨_, rfl⟩
  have hlength : places < padded.length := by
    rw [hpadded, List.length_append, List.length_replicate]
    omega
  have hfixed : fixed d places = if places == 0 then padded.take (padded.length - places)
      else padded.take (padded.length - places) ++
        '.' :: padded.drop (padded.length - places) := by
    rw [hpadded]
    rfl
  refine ⟨padded.take (padded.length - places), padded.drop (padded.length - places),
    ?_, ?_, ?_, ?_⟩
  · rw [hfixed, pointed]
    cases places with
    | zero => simp
    | succ places =>
        have hne : (padded.drop (padded.length - (places + 1))).isEmpty = false := by
          rw [List.isEmpty_eq_false_iff, ne_eq, List.drop_eq_nil_iff]
          omega
        rw [hne]
        rfl
  · rw [List.take_append_drop, hpadded]
    rintro c hc
    obtain hc | hc := List.mem_append.mp hc
    · rw [List.eq_of_mem_replicate hc]
      rfl
    · exact isDigit_of_mem_digitsOf c hc
  · rw [List.length_drop]
    omega
  · rw [List.take_append_drop, hpadded, natOfDigits_zeros_append, natOfDigits_digitsOf]

end XPath.Number
