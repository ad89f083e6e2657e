import XPath.Collation

/-!
# Numbers in order

Every number has a place, a list of integers, and the numeric comparison compares places
(`Number.compareNumbers_eq_compare`): the infinities outside, negative numbers before the zeros and
those before positive numbers, and what is not a number behind all of them.
-/

namespace XPath.Number

open Float.Model

/-- The place of an unpacked number: its class, then what tells it from others of the class. -/
def placeOf : UnpackedFloat → List Int
  | .infinity .negative => [-2]
  | .finite .negative m e _ => [-1, -e, -m]
  | .zero _ => [0]
  | .finite .positive m e _ => [1, e, m]
  | .infinity .positive => [2]
  | .notANumber => [3]

def place (x : Float) : List Int := placeOf x.toModel.unpack

/-- Of two different classes the lower one comes first, whatever follows. -/
theorem compare_of_class_lt {a b : Int} (h : a < b) (xs ys : List Int) :
    compare (a :: xs) (b :: ys) = .lt := by
  rw [List.compare_cons_cons, Int.compare_eq_lt.mpr h]
  rfl

theorem compare_of_class_gt {a b : Int} (h : b < a) (xs ys : List Int) :
    compare (a :: xs) (b :: ys) = .gt := by
  rw [List.compare_cons_cons, Int.compare_eq_gt.mpr h]
  rfl

theorem compare_neg (a b : Int) : compare (-a) (-b) = (compare a b).swap := by
  rcases Int.lt_trichotomy a b with h | h | h
  · rw [Int.compare_eq_lt.mpr h, Int.compare_eq_gt.mpr (by omega)]
    rfl
  · subst h
    rw [Int.compare_eq_eq.mpr rfl, Int.compare_eq_eq.mpr rfl]
    rfl
  · rw [Int.compare_eq_gt.mpr h, Int.compare_eq_lt.mpr (by omega)]
    rfl

theorem compare_natCast (a b : Nat) : compare (a : Int) b = compare a b := by
  rcases Nat.lt_trichotomy a b with h | h | h
  · rw [Nat.compare_eq_lt.mpr h, Int.compare_eq_lt.mpr (by omega)]
  · rw [Nat.compare_eq_eq.mpr h, Int.compare_eq_eq.mpr (by omega)]
  · rw [Nat.compare_eq_gt.mpr h, Int.compare_eq_gt.mpr (by omega)]

/-- Two numbers of one sign are compared by exponent and then by mantissa. -/
theorem compare_finite (c e e' : Int) (m m' : Nat) :
    compare [c, e, m] [c, e', m'] = (compare e e').then (compare m m') := by
  simp [List.compare_cons_cons, compare_natCast, Std.ReflCmp.compare_self]

theorem compare_finite_neg (c e e' : Int) (m m' : Nat) :
    compare [c, -e, -m] [c, -e', -m'] = ((compare e e').then (compare m m')).swap := by
  simp [List.compare_cons_cons, compare_neg, compare_natCast, Std.ReflCmp.compare_self,
    Ordering.swap_then]

theorem compare_placeOf {a b : UnpackedFloat} (ha : a.isNaN = false) (hb : b.isNaN = false) :
    a.compare b = some (compare (placeOf a) (placeOf b)) := by
  cases a with
  | notANumber => cases ha
  | infinity s =>
      cases b with
      | notANumber => cases hb
      | infinity t => cases s <;> cases t <;> rfl
      | zero t => cases s <;> rfl
      | finite t m e => cases s <;> cases t <;> rfl
  | zero s =>
      cases b with
      | notANumber => cases hb
      | infinity t => cases t <;> rfl
      | zero t => rfl
      | finite t m e => cases t <;> rfl
  | finite s m e =>
      cases b with
      | notANumber => cases hb
      | infinity t => cases s <;> cases t <;> rfl
      | zero t => cases s <;> rfl
      | finite t m' e' =>
          cases s <;> cases t
          · exact congrArg some (compare_finite_neg _ _ _ _ _).symm
          · exact congrArg some (compare_of_class_lt (by decide) _ _).symm
          · exact congrArg some (compare_of_class_gt (by decide) _ _).symm
          · exact congrArg some (compare_finite _ _ _ _ _).symm

theorem lt_iff_compare {x y : Float} :
    x < y ↔ x.toModel.unpack.compare y.toModel.unpack = some .lt := by
  show decide ((x.toModel.unpack.compare y.toModel.unpack == some .lt) = true) = true ↔ _
  rw [decide_eq_true_iff, beq_iff_eq]

theorem compare_notANumber {a : UnpackedFloat} (ha : a.isNaN = false) :
    compare (placeOf a) [3] = .lt := by
  cases a with
  | notANumber => cases ha
  | infinity s | finite s m e => cases s <;> exact compare_of_class_lt (by decide) _ _
  | zero s => rfl

theorem compareNumbers_eq_compare (x y : Float) :
    Collation.compareNumbers x y = compare (place x) (place y) := by
  have hplace {z : Float} (hz : z.isNaN = true) : place z = [3] := by
    have hz : z.toModel.unpack.isNaN = true := hz
    unfold place
    generalize z.toModel.unpack = u at hz ⊢
    cases u <;> first | rfl | cases hz
  unfold Collation.compareNumbers
  split
  · rename_i hx hy
    rw [hplace hx, hplace hy]
    rfl
  · rename_i hx hy
    rw [hplace hx, Std.OrientedOrd.eq_swap, place, compare_notANumber hy]
    rfl
  · rename_i hx hy
    rw [hplace hy, place, compare_notANumber hx]
  · rename_i hx hy
    have hxy := compare_placeOf hx hy
    have hyx := compare_placeOf hy hx
    simp only [lt_iff_compare, hxy, hyx, Option.some.injEq, place]
    rw [Std.OrientedOrd.eq_swap (a := placeOf y.toModel.unpack)]
    cases compare (placeOf x.toModel.unpack) (placeOf y.toModel.unpack) <;> rfl

/-! ## Comparisons as comparisons of places -/

theorem compare_eq_none {a b : UnpackedFloat} (h : a.isNaN = true ∨ b.isNaN = true) :
    a.compare b = none := by
  rcases h with h | h
  · cases a <;> first | rfl | cases h
  · cases b <;> first | cases h
    cases a <;> rfl

theorem compare_unpack {x y : Float} {o : Ordering} :
    x.toModel.unpack.compare y.toModel.unpack = some o ↔
      x.isNaN = false ∧ y.isNaN = false ∧ compare (place x) (place y) = o := by
  cases hx : x.isNaN with
  | true => simp [compare_eq_none (.inl hx)]
  | false =>
      cases hy : y.isNaN with
      | true => simp [compare_eq_none (.inr hy)]
      | false => simp [compare_placeOf hx hy, place]

variable {x y z : Float}

theorem lt_iff_place : x < y ↔
    x.isNaN = false ∧ y.isNaN = false ∧ compare (place x) (place y) = .lt :=
  lt_iff_compare.trans compare_unpack

theorem le_iff_place : x ≤ y ↔
    x.isNaN = false ∧ y.isNaN = false ∧ (compare (place x) (place y)).isLE = true := by
  have hle : x ≤ y ↔
      ∃ o, x.toModel.unpack.compare y.toModel.unpack = some o ∧ o.isLE = true := by
    show decide (((x.toModel.unpack.compare y.toModel.unpack).any (·.isLE)) = true) = true ↔ _
    rw [decide_eq_true_iff, Option.any_eq_true]
  rw [hle]
  simp only [compare_unpack]
  constructor
  · rintro ⟨o, ⟨hx, hy, rfl⟩, ho⟩
    exact ⟨hx, hy, ho⟩
  · rintro ⟨hx, hy, ho⟩
    exact ⟨_, ⟨hx, hy, rfl⟩, ho⟩

theorem le_of_not_lt (hx : x.isNaN = false) (hy : y.isNaN = false) (h : ¬x < y) : y ≤ x := by
  refine le_iff_place.mpr ⟨hy, hx, ?_⟩
  rw [Std.OrientedOrd.eq_swap]
  have hne : compare (place x) (place y) ≠ .lt := fun hlt => h (lt_iff_place.mpr ⟨hx, hy, hlt⟩)
  cases ho : compare (place x) (place y) with
  | lt => exact absurd ho hne
  | eq | gt => rfl

theorem le_of_lt (h : x < y) : x ≤ y := by
  obtain ⟨hx, hy, hlt⟩ := lt_iff_place.mp h
  exact le_iff_place.mpr ⟨hx, hy, by rw [hlt]; rfl⟩

theorem le_trans (hxy : x ≤ y) (hyz : y ≤ z) : x ≤ z := by
  obtain ⟨hx, -, hle⟩ := le_iff_place.mp hxy
  obtain ⟨-, hz, hle'⟩ := le_iff_place.mp hyz
  exact le_iff_place.mpr ⟨hx, hz, Std.TransOrd.isLE_trans hle hle'⟩

theorem lt_of_le_of_lt (hxy : x ≤ y) (hyz : y < z) : x < z := by
  obtain ⟨hx, -, hle⟩ := le_iff_place.mp hxy
  obtain ⟨-, hz, hlt⟩ := lt_iff_place.mp hyz
  exact lt_iff_place.mpr ⟨hx, hz, Std.TransCmp.lt_of_isLE_of_lt hle hlt⟩

theorem lt_of_lt_of_le (hxy : x < y) (hyz : y ≤ z) : x < z := by
  obtain ⟨hx, -, hlt⟩ := lt_iff_place.mp hxy
  obtain ⟨-, hz, hle⟩ := le_iff_place.mp hyz
  exact lt_iff_place.mpr ⟨hx, hz, Std.TransCmp.lt_of_lt_of_isLE hlt hle⟩

theorem place_infinity : place (1.0 / 0.0) = [2] := by decide

theorem place_negInfinity : place (-1.0 / 0.0) = [-2] := by decide

theorem le_infinity (hx : x.isNaN = false) : x ≤ 1.0 / 0.0 := by
  refine le_iff_place.mpr ⟨hx, by decide, ?_⟩
  rw [place_infinity, place]
  change x.toModel.unpack.isNaN = false at hx
  generalize x.toModel.unpack = a at hx
  cases a with
  | notANumber => cases hx
  | infinity s => cases s <;> rfl
  | zero s => rfl
  | finite s m e => cases s <;> rfl

theorem negInfinity_le (hx : x.isNaN = false) : -1.0 / 0.0 ≤ x := by
  refine le_iff_place.mpr ⟨by decide, hx, ?_⟩
  rw [place_negInfinity, place]
  change x.toModel.unpack.isNaN = false at hx
  generalize x.toModel.unpack = a at hx
  cases a with
  | notANumber => cases hx
  | infinity s => cases s <;> rfl
  | zero s => rfl
  | finite s m e => cases s <;> rfl

theorem not_infinity_lt : ¬1.0 / 0.0 < x := by
  intro h
  have hirrefl : ¬(1.0 / 0.0 : Float) < 1.0 / 0.0 := by decide
  exact hirrefl (lt_of_lt_of_le h (le_infinity (lt_iff_place.mp h).2.1))

theorem not_lt_negInfinity : ¬x < -1.0 / 0.0 := by
  intro h
  have hirrefl : ¬(-1.0 / 0.0 : Float) < -1.0 / 0.0 := by decide
  exact hirrefl (lt_of_le_of_lt (negInfinity_le (lt_iff_place.mp h).1) h)

end XPath.Number
