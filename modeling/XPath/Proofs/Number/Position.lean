import Mathlib
import XPath.Number.Text

/-!
# Positions as numbers

Positions are compared with numbers as doubles. Below `2 ^ 53` a double holds a natural number
exactly, so a list position that a number equals is the only one, and a scan that has reached a
number has no such position ahead of it (`beq_ofNat_eq_false`).
-/

namespace XPath.Number

open Float.Model
open Float.Model.UnpackedFloat

/-- The mantissa of a natural number with 53 bits. -/
def mantissaOf (n : Nat) : Nat := n <<< (52 - n.log2)

def exponentOf (n : Nat) : Int := (n.log2 : Int) - 52

theorem log2_lt {n : Nat} (hn : n < 2 ^ 53) : n.log2 < 53 := by
  by_cases h0 : n = 0
  · subst h0
    decide
  · exact (Nat.log2_lt h0).mpr hn

theorem mantissaOf_pos {n : Nat} (h0 : 0 < n) : 0 < mantissaOf n := by
  unfold mantissaOf
  rw [Nat.shiftLeft_eq]
  exact Nat.mul_pos h0 (Nat.two_pow_pos _)

theorem mantissaOf_bounds {n : Nat} (h0 : 0 < n) (hn : n < 2 ^ 53) :
    2 ^ 52 ≤ mantissaOf n ∧ mantissaOf n < 2 ^ 53 := by
  have hlog := log2_lt hn
  have hlow := Nat.log2_self_le (show n ≠ 0 by omega)
  have hhigh := Nat.lt_log2_self (n := n)
  have hsplit : 2 ^ n.log2 * 2 ^ (52 - n.log2) = 2 ^ 52 := by
    rw [← Nat.pow_add]
    congr 1
    omega
  unfold mantissaOf
  rw [Nat.shiftLeft_eq]
  constructor
  · calc 2 ^ 52 = 2 ^ n.log2 * 2 ^ (52 - n.log2) := hsplit.symm
      _ ≤ n * 2 ^ (52 - n.log2) := Nat.mul_le_mul_right _ hlow
  · calc n * 2 ^ (52 - n.log2) < 2 ^ (n.log2 + 1) * 2 ^ (52 - n.log2) :=
          Nat.mul_lt_mul_of_pos_right hhigh (Nat.two_pow_pos _)
      _ = 2 * (2 ^ n.log2 * 2 ^ (52 - n.log2)) := by
          rw [Nat.pow_succ, Nat.mul_comm _ 2, Nat.mul_assoc]
      _ = 2 ^ 53 := by omega

theorem log2_mantissa {m : Nat} (hlow : 2 ^ 52 ≤ m) (hhigh : m < 2 ^ 53) : m.log2 = 52 := by
  have hne : m ≠ 0 := by omega
  have h1 : m.log2 < 53 := (Nat.log2_lt hne).mpr hhigh
  have h2 : ¬m.log2 < 52 := by
    rw [Nat.log2_lt hne]
    omega
  omega

theorem log2_mul_two_pow {m k : Nat} (hm : 0 < m) : (m * 2 ^ k).log2 = m.log2 + k := by
  induction k with
  | zero => simp
  | succ k ih =>
      have hne : m * 2 ^ k ≠ 0 := Nat.mul_ne_zero (by omega) (by simp)
      rw [Nat.pow_succ, ← Nat.mul_assoc, Nat.mul_comm _ 2, Nat.log2_two_mul hne, ih]
      rfl

theorem repeat_shiftRightOne (k m : Nat) :
    k.repeat ExtendedMantissa.shiftRightOne ⟨m * 2 ^ k, false, false⟩ = ⟨m, false, false⟩ := by
  induction k generalizing m with
  | zero => simp [Nat.repeat]
  | succ k ih =>
      have hpow : m * 2 ^ (k + 1) = m * 2 * 2 ^ k := by
        rw [Nat.pow_succ]
        ac_rfl
      rw [hpow, Nat.repeat, ih]
      simp [ExtendedMantissa.shiftRightOne]

theorem shiftToTargetExponent_zeros {m k : Nat} {e : Int} (hlow : 2 ^ 52 ≤ m)
    (hhigh : m < 2 ^ 53) (he : -1074 ≤ e) :
    shiftToTargetExponent Format.binary64 (m * 2 ^ k) (e - k) .exact = (⟨m, false, false⟩, e) := by
  have hlog : (m * 2 ^ k).log2 = 52 + k := by
    rw [log2_mul_two_pow (by omega), log2_mantissa hlow hhigh]
  have htarget :
      Format.binary64.targetExponent (totalExponent (m * 2 ^ k) (e - k)) - (e - k) = k := by
    simp [Format.targetExponent, totalExponent, Format.minExponent, Format.mantissaBits, hlog]
    omega
  simp only [shiftToTargetExponent, shiftToExponent, htarget, Int.toNat_natCast,
    ExtendedMantissa.ofMantissaAndAccuracy, HShiftRight.hShiftRight, repeat_shiftRightOne]
  rw [Int.sub_add_cancel]

theorem roundWithAccuracy_zeros {m k : Nat} {e : Int} (hlow : 2 ^ 52 ≤ m) (hhigh : m < 2 ^ 53)
    (he : -1074 ≤ e) :
    roundWithAccuracy Format.binary64 .positive (m * 2 ^ k) (e - k) .exact =
      .finite .positive m e (by omega) := by
  have hfirst := shiftToTargetExponent_zeros (k := k) hlow hhigh he
  have hsecond := shiftToTargetExponent_zeros (k := 0) hlow hhigh he
  have hround : (⟨m, false, false⟩ : ExtendedMantissa).roundedMantissa = m := rfl
  simp only [Nat.pow_zero, Nat.mul_one, Int.ofNat_zero, Int.sub_zero] at hsecond
  simp only [roundWithAccuracy, hfirst, hround, hsecond]
  rw [dif_neg (by omega)]

theorem unpackSign_packComponents {spec : Format} {sign exponent mantissa} :
    unpackSign (packComponents spec sign exponent mantissa) = sign.toBitVec := by
  ext i hi
  have hi : i = 0 := by omega
  subst hi
  simp [unpackSign, packComponents, BitVec.getLsbD_eq_getElem, BitVec.getLsbD_append,
    BitVec.getElem_append]

theorem unpack_pack {m : Nat} {e : Int} (hlow : 2 ^ 52 ≤ m) (hhigh : m < 2 ^ 53)
    (he : -1074 ≤ e) (he' : e ≤ 0) :
    (Float.Model.pack (.finite .positive m e (by omega))).unpack =
      .finite .positive m e (by omega) := by
  have hlog := log2_mantissa hlow hhigh
  obtain ⟨b, hb⟩ : ∃ b : Nat, (b : Int) = e + 1075 := ⟨(e + 1075).toNat, by omega⟩
  have hbits : UnpackedFloat.pack Format.binary64 (.finite .positive m e (by omega)) =
      packComponents Format.binary64 .positive (BitVec.ofNat _ b) (BitVec.ofNat _ m) := by
    have hbias : (e + Format.binary64.exponentBias + (52 : Nat)).toNat = b := by
      simp [Format.exponentBias]
      omega
    simp only [UnpackedFloat.pack, hbias, hlog]
    rw [if_neg (by simp; omega), if_pos (by simp [Format.mantissaBits])]
  have hne : BitVec.ofNat 11 b ≠ -1#11 := by
    intro h
    have := congrArg BitVec.toNat h
    simp at this
    omega
  have hne' : BitVec.ofNat 11 b ≠ 0#11 := by
    intro h
    have := congrArg BitVec.toNat h
    simp at this
    omega
  unfold Float.Model.pack Float.Model.unpack UnpackedFloat.unpack
  simp only [hbits, unpackMantissa_packComponents,
    unpackExponent_packComponents, unpackSign_packComponents]
  rw [if_neg hne, if_neg hne']
  have hm : (1#1 ++ BitVec.ofNat 52 m).toNat = m := by
    have hlt : m % 2 ^ 52 < 2 ^ 52 := Nat.mod_lt _ (by decide)
    simp only [BitVec.toNat_append, BitVec.toNat_ofNat]
    rw [← Nat.shiftLeft_add_eq_or_of_lt hlt]
    simp
    omega
  have hexp : ((BitVec.ofNat 11 b).toNat : Int) - (Format.binary64.exponentBias + (52 : Nat)) = e := by
    simp [Format.exponentBias]
    omega
  simp only [hm, hexp]
  rfl

theorem round_ofNat {n : Nat} (h0 : 0 < n) (hn : n < 2 ^ 53) :
    UnpackedFloat.ofNat Format.binary64 n =
      .finite .positive (mantissaOf n) (exponentOf n) (mantissaOf_pos h0) := by
  obtain ⟨hlow, hhigh⟩ := mantissaOf_bounds h0 hn
  have hlog := log2_lt hn
  have htarget : Format.binary64.targetExponent (totalExponent n 0) = exponentOf n := by
    simp [Format.targetExponent, totalExponent, Format.minExponent, Format.mantissaBits,
      exponentOf]
    omega
  have hdecrease : decreaseExponent n 0 (exponentOf n) = (mantissaOf n, exponentOf n) := by
    have hshift : (0 - exponentOf n).toNat = 52 - n.log2 := by
      unfold exponentOf
      omega
    simp only [decreaseExponent, hshift, mantissaOf]
    unfold exponentOf
    congr 1
    omega
  have hround := roundWithAccuracy_zeros (k := 0) (e := exponentOf n) hlow hhigh
    (by unfold exponentOf; omega)
  have hpos : compare (n : Int) 0 = .gt := by
    rw [Int.compare_eq_gt]
    omega
  simp only [Nat.pow_zero, Nat.mul_one, Int.ofNat_zero, Int.sub_zero] at hround
  simp only [UnpackedFloat.ofNat, UnpackedFloat.ofInt, UnpackedFloat.normalize, hpos,
    UnpackedFloat.round, Int.toNat_natCast, htarget, hdecrease, hround]

theorem unpack_one : (Float.ofBits 0x3FF0000000000000).toModel.unpack =
    .finite .positive (2 ^ 52) (-52) (by decide) := by
  rfl

theorem unpack_ofNat {n : Nat} (h0 : 0 < n) (hn : n < 2 ^ 53) :
    (Float.ofNat n).toModel.unpack =
      .finite .positive (mantissaOf n) (exponentOf n) (mantissaOf_pos h0) := by
  obtain ⟨hlow, hhigh⟩ := mantissaOf_bounds h0 hn
  have hlog := log2_lt hn
  have hexp : -1074 ≤ exponentOf n ∧ exponentOf n ≤ 0 := by
    unfold exponentOf
    omega
  have hwhole : n.toUInt64.toFloat.toModel.unpack =
      .finite .positive (mantissaOf n) (exponentOf n) (mantissaOf_pos h0) := by
    have hn64 : n.toUInt64.toNat = n := by
      simp
      omega
    rw [← unpack_pack hlow hhigh hexp.1 hexp.2, ← round_ofNat h0 hn]
    simp only [UInt64.toFloat, Float.Model.ofUInt64, UnpackedFloat.ofUInt64, hn64]
  have hproduct := roundWithAccuracy_zeros (k := 52) hlow hhigh hexp.1
  have hofNat : Float.ofNat n = n.toUInt64.toFloat * Float.ofBits 0x3FF0000000000000 := by
    unfold Float.ofNat
    show Float.ofScientific n false 0 = _
    rw [Float.ofScientific, dif_pos ⟨hn, by decide⟩]
    rfl
  rw [hofNat]
  show (Float.Model.pack (UnpackedFloat.mul Format.binary64 _ _)).unpack = _
  rw [hwhole, unpack_one]
  exact (congrArg (fun u => (Float.Model.pack u).unpack) hproduct).trans
    (unpack_pack hlow hhigh hexp.1 hexp.2)

/-! ## Comparing positions -/

theorem compare_eq_swap (a b : UnpackedFloat) :
    (a.compare b == some .eq) = (b.compare a == some .eq) := by
  cases a with
  | notANumber => cases b <;> rfl
  | infinity s =>
      cases b with
      | infinity t => cases s <;> cases t <;> rfl
      | notANumber | zero | finite => cases s <;> rfl
  | zero s =>
      cases b with
      | infinity t => cases t <;> rfl
      | notANumber | zero => rfl
      | finite t => cases t <;> rfl
  | finite s m e =>
      cases b with
      | infinity t => cases s <;> cases t <;> rfl
      | notANumber => cases s <;> rfl
      | zero => cases s <;> rfl
      | finite t m' e' =>
          have hm := Nat.compare_swap m m'
          have he := Int.compare_swap e e'
          cases s <;> cases t <;> simp only [UnpackedFloat.compare] <;> try rfl
          all_goals
            rw [← hm, ← he]
            cases compare m m' <;> cases compare e e' <;> rfl

theorem beq_comm (x y : Float) : (x == y) = (y == x) := compare_eq_swap _ _

theorem mantissa_lt_or_exponent_lt {j k : Nat} (hj : 0 < j) (hjk : j < k) :
    exponentOf j < exponentOf k ∨
      exponentOf j = exponentOf k ∧ mantissaOf j < mantissaOf k := by
  have hj' := Nat.log2_self_le (show j ≠ 0 by omega)
  have hk' := Nat.lt_log2_self (n := k)
  rcases Nat.lt_trichotomy j.log2 k.log2 with hlt | heq | hgt
  · left
    unfold exponentOf
    omega
  · right
    unfold exponentOf mantissaOf
    rw [heq, Nat.shiftLeft_eq, Nat.shiftLeft_eq]
    exact ⟨rfl, Nat.mul_lt_mul_of_pos_right hjk (Nat.two_pow_pos _)⟩
  · have hpow : 2 ^ (k.log2 + 1) ≤ 2 ^ j.log2 := Nat.pow_le_pow_right (by decide) hgt
    omega

/-- A number that a position has reached is none of the positions behind it. -/
theorem beq_ofNat_eq_false {x : Float} {j k : Nat} (hj : 0 < j) (hjk : j < k) (hk : k < 2 ^ 53)
    (h : Float.ofNat j ≥ x) : (x == Float.ofNat k) = false := by
  have hle : (x.toModel.unpack.compare (Float.ofNat j).toModel.unpack).any (·.isLE) = true :=
    of_decide_eq_true h
  show (x.toModel.unpack.compare (Float.ofNat k).toModel.unpack == some .eq) = false
  rw [unpack_ofNat hj (by omega)] at hle
  rw [unpack_ofNat (by omega) hk]
  generalize x.toModel.unpack = u at hle ⊢
  cases u with
  | notANumber => rfl
  | infinity s => cases s <;> rfl
  | zero s => rfl
  | finite s m e hm =>
      cases s with
      | negative => rfl
      | positive =>
          simp only [UnpackedFloat.compare] at hle ⊢
          rw [beq_eq_false_iff_ne]
          intro heq
          have heq := Option.some.inj heq
          obtain ⟨he, hm⟩ := Ordering.then_eq_eq.mp heq
          rw [Int.compare_eq_eq] at he
          rw [Nat.compare_eq_eq] at hm
          subst he hm
          have hlater : compare (exponentOf k) (exponentOf j) = .gt ∨
              compare (exponentOf k) (exponentOf j) = .eq ∧
                compare (mantissaOf k) (mantissaOf j) = .gt := by
            rw [Int.compare_eq_gt, Int.compare_eq_eq, Nat.compare_eq_gt]
            exact (mantissa_lt_or_exponent_lt hj hjk).imp_right fun h => ⟨h.1.symm, h.2⟩
          rcases hlater with h | ⟨h, h'⟩
          · simp [h] at hle
          · simp [h, h'] at hle

end XPath.Number
