import Mathlib
import XPath.Proofs.Number.Order

/-!
# Negated numbers

A negation turns the sign of a number and leaves the rest as it is (`Number.unpack_neg`), so the
negation of a positive number is negative and has the same magnitude.
-/

namespace XPath.Number

open Float.Model
open Float.Model.UnpackedFloat

def withSign (s : Sign) : UnpackedFloat → UnpackedFloat
  | .notANumber => .notANumber
  | .infinity _ => .infinity s
  | .zero _ => .zero s
  | .finite _ m e h => .finite s m e h

theorem unpack_withSign (s t : Sign) (exponent : BitVec Format.binary64.exponentBits)
    (mantissa : BitVec Format.binary64.mantissaBitsWithoutImplicit) :
    UnpackedFloat.unpack Format.binary64 (packComponents Format.binary64 s exponent mantissa) =
      withSign s (UnpackedFloat.unpack Format.binary64
        (packComponents Format.binary64 t exponent mantissa)) := by
  unfold UnpackedFloat.unpack
  simp only [unpackMantissa_packComponents, unpackExponent_packComponents,
    UnpackedFloat.unpackSign_packComponents, Sign.ofBitVec_toBitVec]
  split
  · split <;> rfl
  · split
    · split <;> rfl
    · rfl

theorem exists_components (u : UnpackedFloat) (hu : u.isNaN = false) : ∃ exponent mantissa, ∀ s,
    UnpackedFloat.pack Format.binary64 (withSign s u) =
      packComponents Format.binary64 s exponent mantissa := by
  cases u with
  | notANumber => cases hu
  | infinity t | zero t => exact ⟨_, _, fun _ => rfl⟩
  | finite t m e h =>
      simp only [withSign, UnpackedFloat.pack]
      split
      · exact ⟨_, _, fun _ => rfl⟩
      · split <;> exact ⟨_, _, fun _ => rfl⟩

theorem unpack_neg (x : Float) : (-x).toModel.unpack = x.toModel.unpack.neg := by
  have hunpack : UnpackedFloat.unpack Format.binary64
      (UnpackedFloat.pack Format.binary64 x.toModel.unpack) = x.toModel.unpack :=
    congrArg _ (UnpackedFloat.pack_unpack_of_valid x.toModel.valid)
  show UnpackedFloat.unpack Format.binary64
    (UnpackedFloat.pack Format.binary64 x.toModel.unpack.neg) = _
  generalize x.toModel.unpack = u at hunpack ⊢
  by_cases hu : u.isNaN = false
  · obtain ⟨exponent, mantissa, hpack⟩ := exists_components u hu
    obtain ⟨s, t, hs, ht⟩ : ∃ s t, u.neg = withSign s u ∧ withSign t u = u := by
      cases u with
      | notANumber => cases hu
      | infinity t | zero t | finite t m e h => exact ⟨-t, t, rfl, rfl⟩
    rw [hs, hpack, unpack_withSign s t, ← hpack, ht, hunpack]
  · cases u with
    | notANumber => exact hunpack
    | infinity t | zero t | finite t m e h => exact absurd rfl hu

theorem unpack_of_pos {x : Float} (hx : 0 < x) :
    (∃ m e h, x.toModel.unpack = .finite .positive m e h) ∨
      x.toModel.unpack = .infinity .positive := by
  have hlt := lt_iff_compare.mp hx
  have hzero : (0 : Float).toModel.unpack = .zero .positive := by rfl
  rw [hzero] at hlt
  generalize x.toModel.unpack = u at hlt ⊢
  cases u with
  | notANumber | zero t => cases hlt
  | infinity t => cases t with
    | negative => cases hlt
    | positive => exact .inr rfl
  | finite t m e h => cases t with
    | negative => cases hlt
    | positive => exact .inl ⟨m, e, h, rfl⟩

/-- The negation of a positive number is negative, and of the same magnitude. -/
theorem neg_of_pos {x : Float} (hx : 0 < x) : (-x).isNaN = false ∧ decide (-x < 0) = true ∧
    decide (x < 0) = false ∧ (-x).abs = x.abs := by
  have hneg := unpack_neg x
  have hzero : (0 : Float).toModel.unpack = .zero .positive := by rfl
  have hnan : (-x).isNaN = (-x).toModel.unpack.isNaN := rfl
  have hlt (y : Float) : decide (y < 0) =
      (y.toModel.unpack.compare (0 : Float).toModel.unpack == some .lt) := by
    rw [Bool.eq_iff_iff, decide_eq_true_iff, beq_iff_eq]
    exact lt_iff_compare
  have habs (y : Float) : y.abs = ⟨Float.Model.pack y.toModel.unpack.abs⟩ := rfl
  rw [hnan, hlt, hlt, habs, habs, hzero, hneg]
  obtain ⟨m, e, h, hfinite⟩ | hinfinite := unpack_of_pos hx
  · rw [hfinite]
    exact ⟨rfl, rfl, rfl, rfl⟩
  · rw [hinfinite]
    exact ⟨rfl, rfl, rfl, rfl⟩

end XPath.Number
