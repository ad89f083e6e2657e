import XPath.Proofs.Meaning.Value
import XPath.Proofs.Number.Order
import XPath.Tree.Builder

/-!
# Comparisons of two node-sets

Two sets are in a relation if a node of the one is in it with a node of the other. Equality and
inequality look for such a pair. The relations of order look at the extremes of the numbers only, and
these start from the infinities: an extreme of nodes that are not numbers is an infinity of no node.
Where the other set has that infinity, `<=` and `>=` hold without a pair, and nowhere else
(`Value.compare_eq_any_iff`).
-/

namespace XPath

variable {F : Forest} {op : BinaryOperator} {s t : NodeSet} {as bs ns : List Node} {a b : Node}
  {xs ys : List Float} {x y : Float} {p : Float → Prop}

theorem exists_pair_comm {α β : Type} {as : List α} {bs : List β} {p : α → β → Prop} :
    (∃ a ∈ as, ∃ b ∈ bs, p a b) ↔ ∃ b ∈ bs, ∃ a ∈ as, p a b := by
  constructor <;>
  · rintro ⟨x, hx, y, hy, h⟩
    exact ⟨y, hy, x, hx, h⟩

namespace Number

def lowest (xs : List Float) : Float :=
  xs.foldl (fun low x => if x < low then x else low) (1.0 / 0.0)

def highest (xs : List Float) : Float :=
  xs.foldl (fun high x => if x > high then x else high) (-1.0 / 0.0)

/-- What holds of a number and all below it holds of the least one if it holds of one of them. -/
theorem lowest_iff (hnumber : ∀ x, p x → x.isNaN = false) (hdown : ∀ x y, x ≤ y → p y → p x) :
    p (lowest xs) ↔ p (1.0 / 0.0) ∨ ∃ x ∈ xs, p x := by
  have hfold (low : Float) (hlow : low.isNaN = false) :
      p (xs.foldl (fun low x => if x < low then x else low) low) ↔ p low ∨ ∃ x ∈ xs, p x := by
    induction xs generalizing low with
    | nil => simp
    | cons x xs ih =>
        rw [List.foldl_cons, List.exists_mem_cons_iff, ← or_assoc]
        split
        · rename_i hx
          rw [ih x (lt_iff_place.mp hx).1, or_iff_right_of_imp (hdown x low (le_of_lt hx))]
        · rename_i hx
          have hpass (hpx : p x) : p low := hdown low x (le_of_not_lt (hnumber x hpx) hlow hx) hpx
          rw [ih low hlow, or_iff_left_of_imp hpass]
  exact hfold _ (by decide)

/-- What holds of a number and all above it holds of the greatest one if it holds of one of them. -/
theorem highest_iff (hnumber : ∀ x, p x → x.isNaN = false) (hup : ∀ x y, x ≤ y → p x → p y) :
    p (highest xs) ↔ p (-1.0 / 0.0) ∨ ∃ x ∈ xs, p x := by
  have hfold (high : Float) (hhigh : high.isNaN = false) :
      p (xs.foldl (fun high x => if x > high then x else high) high) ↔ p high ∨ ∃ x ∈ xs, p x := by
    induction xs generalizing high with
    | nil => simp
    | cons x xs ih =>
        rw [List.foldl_cons, List.exists_mem_cons_iff, ← or_assoc]
        split
        · rename_i hx
          rw [ih x (lt_iff_place.mp hx).2.1, or_iff_right_of_imp (hup high x (le_of_lt hx))]
        · rename_i hx
          have hpass (hpx : p x) : p high := hup x high (le_of_not_lt hhigh (hnumber x hpx) hx) hpx
          rw [ih high hhigh, or_iff_left_of_imp hpass]
  exact hfold _ (by decide)

/-- The extremes tell by `<` whether some number is below another. -/
theorem lowest_lt_highest : lowest xs < highest ys ↔ ∃ x ∈ xs, ∃ y ∈ ys, x < y := by
  have hleft (y : Float) : lowest xs < y ↔ ∃ x ∈ xs, x < y := by
    rw [lowest_iff (fun x h => (lt_iff_place.mp h).1) fun x z => lt_of_le_of_lt]
    exact or_iff_right not_infinity_lt
  have hright (x : Float) : x < highest ys ↔ ∃ y ∈ ys, x < y := by
    rw [highest_iff (fun y h => (lt_iff_place.mp h).2.1) fun y z hyz hxy => lt_of_lt_of_le hxy hyz]
    exact or_iff_right not_lt_negInfinity
  simp only [hleft, hright]

/-- By `≤` the infinities that the extremes start from count as numbers of either list. -/
theorem lowest_le_highest : lowest xs ≤ highest ys ↔
    (∃ x ∈ xs, ∃ y ∈ ys, x ≤ y) ∨ (∃ x ∈ xs, x ≤ -1.0 / 0.0) ∨ ∃ y ∈ ys, 1.0 / 0.0 ≤ y := by
  have hleft (y : Float) : lowest xs ≤ y ↔ 1.0 / 0.0 ≤ y ∨ ∃ x ∈ xs, x ≤ y :=
    lowest_iff (fun x h => (le_iff_place.mp h).1) fun x z => le_trans
  have hright (x : Float) : x ≤ highest ys ↔ x ≤ -1.0 / 0.0 ∨ ∃ y ∈ ys, x ≤ y :=
    highest_iff (fun y h => (le_iff_place.mp h).2.1) fun y z hyz hxy => le_trans hxy hyz
  have hends : ¬(1.0 / 0.0 : Float) ≤ -1.0 / 0.0 := by decide
  simp only [hleft, hright, hends, false_or]
  constructor
  · rintro (h | ⟨x, hx, h | h⟩)
    · exact .inr (.inr h)
    · exact .inr (.inl ⟨x, hx, h⟩)
    · exact .inl ⟨x, hx, h⟩
  · rintro (⟨x, hx, h⟩ | ⟨x, hx, h⟩ | h)
    · exact .inr ⟨x, hx, .inr h⟩
    · exact .inr ⟨x, hx, .inl h⟩
    · exact .inl h

/-- The lows have no number, and beside them is the infinity that their least starts from, or the
highs have none and beside them is the one that their greatest starts from. -/
def OpenEnded (lows highs : List Float) : Prop :=
  (lows ≠ [] ∧ (∀ x ∈ lows, x.isNaN = true) ∧ ∃ y ∈ highs, 1.0 / 0.0 ≤ y) ∨
    (highs ≠ [] ∧ (∀ y ∈ highs, y.isNaN = true) ∧ ∃ x ∈ lows, x ≤ -1.0 / 0.0)

theorem lowest_le_highest_iff (hxs : xs ≠ []) (hys : ys ≠ []) :
    lowest xs ≤ highest ys ↔ (∃ x ∈ xs, ∃ y ∈ ys, x ≤ y) ∨ OpenEnded xs ys := by
  rw [lowest_le_highest]
  constructor
  · rintro (hpair | ⟨x, hx, hle⟩ | ⟨y, hy, hle⟩)
    · exact .inl hpair
    · by_cases hnone : ∀ y ∈ ys, y.isNaN = true
      · exact .inr (.inr ⟨hys, hnone, x, hx, hle⟩)
      · push Not at hnone
        obtain ⟨y, hy, hnumber⟩ := hnone
        exact .inl ⟨x, hx, y, hy, le_trans hle (negInfinity_le (by simpa using hnumber))⟩
    · by_cases hnone : ∀ x ∈ xs, x.isNaN = true
      · exact .inr (.inl ⟨hxs, hnone, y, hy, hle⟩)
      · push Not at hnone
        obtain ⟨x, hx, hnumber⟩ := hnone
        exact .inl ⟨x, hx, y, hy, le_trans (le_infinity (by simpa using hnumber)) hle⟩
  · rintro (hpair | ⟨-, -, h⟩ | ⟨-, -, h⟩)
    · exact .inl hpair
    · exact .inr (.inr h)
    · exact .inr (.inl h)

theorem OpenEnded.not_le (h : OpenEnded xs ys) : ¬∃ x ∈ xs, ∃ y ∈ ys, x ≤ y := by
  rintro ⟨x, hx, y, hy, hle⟩
  obtain ⟨hxnumber, hynumber, -⟩ := le_iff_place.mp hle
  rcases h with ⟨-, hnone, -⟩ | ⟨-, hnone, -⟩
  · exact absurd ((hnone x hx).symm.trans hxnumber) (by decide)
  · exact absurd ((hnone y hy).symm.trans hynumber) (by decide)

end Number

def Forest.numberValue (F : Forest) (n : Node) : Float := Number.ofText (F.stringValue n)

namespace BinaryOperator

/-- Whether two nodes are in the relation: by their texts for `=` and `!=`, and by their numbers for
the relations of order. -/
def relates (F : Forest) (op : BinaryOperator) (a b : Node) : Bool :=
  match op with
  | equals => F.stringValue a == F.stringValue b
  | notEquals => F.stringValue a != F.stringValue b
  | op => op.compareNumbers (F.numberValue a) (F.numberValue b)

/-- The extremes of the two sets are in the relation without a pair of nodes that is. -/
def OpenEnded (F : Forest) (op : BinaryOperator) (as bs : List Node) : Prop :=
  match op with
  | lessThanOrEqual => Number.OpenEnded (as.map F.numberValue) (bs.map F.numberValue)
  | greaterThanOrEqual => Number.OpenEnded (bs.map F.numberValue) (as.map F.numberValue)
  | _ => False

theorem OpenEnded.not_relates (h : op.OpenEnded F as bs) :
    ¬∃ a ∈ as, ∃ b ∈ bs, op.relates F a b = true := by
  rintro ⟨a, ha, b, hb, hrelates⟩
  cases op with
  | lessThanOrEqual =>
      exact h.not_le ⟨_, List.mem_map_of_mem ha, _, List.mem_map_of_mem hb,
        of_decide_eq_true hrelates⟩
  | greaterThanOrEqual =>
      exact h.not_le ⟨_, List.mem_map_of_mem hb, _, List.mem_map_of_mem ha,
        of_decide_eq_true hrelates⟩
  | _ => exact h

end BinaryOperator

namespace Value

open BinaryOperator

theorem foldl_extremes (low high : Float) :
    as.foldl
      (fun (low, high) n =>
        let x := Number.ofText (F.stringValue n)
        (if x < low then x else low, if x > high then x else high))
      (low, high) =
    ((as.map F.numberValue).foldl (fun low x => if x < low then x else low) low,
      (as.map F.numberValue).foldl (fun high x => if x > high then x else high) high) := by
  induction as generalizing low high with
  | nil => rfl
  | cons a as ih => exact ih _ _

theorem numericRange_eq (has : s.toList F = .ok as) : numericRange F s = .ok
    (if as = [] then none
      else some (Number.lowest (as.map F.numberValue), Number.highest (as.map F.numberValue))) := by
  unfold numericRange
  rw [has, ok_bind]
  cases as with
  | nil => rfl
  | cons a as => exact congrArg (fun range => Except.ok (some range)) (foldl_extremes _ _)

theorem exists_items (has : s.toList F = .ok as) :
    ∃ en, s.enumerate F = .ok en ∧ en.items = as.map .ok := by
  obtain ⟨en, hen, hnodes⟩ := bind_eq_ok.mp has
  exact ⟨en, hen, collect_eq_ok.mp hnodes⟩

theorem nodeSetEquals_eq (has : s.toList F = .ok as) (hbs : t.toList F = .ok bs) (equal : Bool) :
    nodeSetEquals F s (.nodeSet t) equal =
      .ok (as.any fun a => bs.any fun b => (F.stringValue a == F.stringValue b) == equal) := by
  obtain ⟨left, hleft, hleftItems⟩ := exists_items has
  obtain ⟨right, hright, hrightItems⟩ := exists_items hbs
  cases equal with
  | true =>
      simp only [nodeSetEquals, has, hright, hrightItems, ok_bind, anyItem_map_ok, if_true]
      refine congrArg _ (Bool.eq_iff_iff.mpr ?_)
      simp only [List.any_eq_true, List.contains_iff_mem, List.mem_map, beq_true, beq_iff_eq]
      exact exists_pair_comm
  | false =>
      have hne (a b : Node) : (F.stringValue b != F.stringValue a) =
          ((F.stringValue a == F.stringValue b) == false) := by
        rw [beq_false, bne_comm, bne]
      simp only [nodeSetEquals, hbs, hleft, hleftItems, ok_bind, anyItem_map_ok, Bool.false_eq_true,
        if_false, List.any_map, Function.comp_def, hne]

theorem compareNodeSet_eq (has : s.toList F = .ok as) (hbs : t.toList F = .ok bs) :
    compareNodeSet F s op (.nodeSet t) = .ok (decide (as ≠ []) && decide (bs ≠ []) &&
      match op with
      | .lessThan | .lessThanOrEqual =>
        op.compareNumbers (Number.lowest (as.map F.numberValue))
          (Number.highest (bs.map F.numberValue))
      | .greaterThan | .greaterThanOrEqual =>
        op.compareNumbers (Number.highest (as.map F.numberValue))
          (Number.lowest (bs.map F.numberValue))
      | _ => false) := by
  unfold compareNodeSet
  dsimp only
  rw [numericRange_eq has, numericRange_eq hbs]
  cases as <;> cases bs <;> rfl

/-- A relation of order holds for a pair of nodes, or for the infinities that the extremes start
from. -/
theorem compareNodeSet_iff (has : s.toList F = .ok as) (hbs : t.toList F = .ok bs)
    (hop : op.isComparison = true) (heq : op ≠ .equals) (hne : op ≠ .notEquals) :
    ∃ holds, compareNodeSet F s op (.nodeSet t) = .ok holds ∧
      (holds = true ↔ (∃ a ∈ as, ∃ b ∈ bs, op.relates F a b = true) ∨ op.OpenEnded F as bs) := by
  refine ⟨_, compareNodeSet_eq has hbs, ?_⟩
  by_cases hempty : as = [] ∨ bs = []
  · rcases hempty with rfl | rfl <;> cases op <;> simp [BinaryOperator.OpenEnded, Number.OpenEnded]
  · push Not at hempty
    obtain ⟨hasne, hbsne⟩ := hempty
    have hxs : as.map F.numberValue ≠ [] := by simpa using hasne
    have hys : bs.map F.numberValue ≠ [] := by simpa using hbsne
    simp only [ne_eq, hasne, hbsne, not_false_eq_true, decide_true, Bool.true_and]
    cases op with
    | lessThan =>
        simp [compareNumbers, relates, BinaryOperator.OpenEnded, Number.lowest_lt_highest]
    | lessThanOrEqual =>
        simp [compareNumbers, relates, BinaryOperator.OpenEnded, Number.lowest_le_highest_iff hxs hys]
    | greaterThan =>
        rw [exists_pair_comm]
        simp [compareNumbers, relates, BinaryOperator.OpenEnded, Number.lowest_lt_highest]
    | greaterThanOrEqual =>
        rw [exists_pair_comm]
        simp [compareNumbers, relates, BinaryOperator.OpenEnded, Number.lowest_le_highest_iff hys hxs]
    | equals => exact absurd rfl heq
    | notEquals => exact absurd rfl hne
    | or | and | plus | minus | multiply | divide | modulo => cases hop

/-- Every comparison holds for a pair of nodes, or for the infinities that the extremes start from. -/
theorem compare_nodeSets_iff (hop : op.isComparison = true) (has : s.toList F = .ok as)
    (hbs : t.toList F = .ok bs) :
    ∃ holds, Value.compare F op (.nodeSet s) (.nodeSet t) = .ok holds ∧
      (holds = true ↔ (as.any fun a => bs.any fun b => op.relates F a b) = true ∨
        op.OpenEnded F as bs) := by
  by_cases heq : op = .equals
  · subst heq
    exact ⟨_, nodeSetEquals_eq has hbs true, by simp [relates, BinaryOperator.OpenEnded]⟩
  by_cases hne : op = .notEquals
  · subst hne
    exact ⟨_, nodeSetEquals_eq has hbs false, by simp [relates, BinaryOperator.OpenEnded, bne]⟩
  obtain ⟨holds, hcompare, hholds⟩ := compareNodeSet_iff has hbs hop heq hne
  refine ⟨holds, (Value.compare_of_order heq hne (.nodeSet s) (.nodeSet t)).trans hcompare, ?_⟩
  rw [hholds]
  simp only [List.any_eq_true]

/-- A comparison of two sets holds if and only if a pair of their nodes is in the relation, except
where it is one of `<=` and `>=` and the extremes are in the relation without a pair. -/
theorem compare_eq_any_iff (hop : op.isComparison = true) (has : s.toList F = .ok as)
    (hbs : t.toList F = .ok bs) :
    Value.compare F op (.nodeSet s) (.nodeSet t) =
        .ok (as.any fun a => bs.any fun b => op.relates F a b) ↔ ¬op.OpenEnded F as bs := by
  obtain ⟨holds, hcompare, hholds⟩ := compare_nodeSets_iff hop has hbs
  rw [hcompare]
  constructor
  · intro h hopen
    have hpair := hholds.mpr (.inr hopen)
    rw [Except.ok.inj h] at hpair
    simp only [List.any_eq_true] at hpair
    exact hopen.not_relates hpair
  · intro hopen
    exact congrArg _ (Bool.eq_iff_iff.mpr (hholds.trans (or_iff_left hopen)))

/-- `<r><x>abc</x><y>Infinity</y></r>`. -/
def wordAndInfinity : Forest :=
  ⟨#[.ofEvents 1 [.element ⟨none, none, "r"⟩, .element ⟨none, none, "x"⟩, .text "abc", .close,
    .element ⟨none, none, "y"⟩, .text "Infinity", .close, .close]]⟩

theorem compare_eq_any_wordAndInfinity :
    Value.compare wordAndInfinity .lessThanOrEqual (.nodeSet (.ofNodes [⟨0, 2⟩, ⟨0, 4⟩] true))
      (.nodeSet (.singleton ⟨0, 4⟩)) = .ok true := by
  have hs : (NodeSet.ofNodes [⟨0, 2⟩, ⟨0, 4⟩] true).toList wordAndInfinity =
      .ok [⟨0, 2⟩, ⟨0, 4⟩] := rfl
  have ht : (NodeSet.singleton ⟨0, 4⟩).toList wordAndInfinity = .ok [⟨0, 4⟩] := rfl
  refine ((compare_eq_any_iff rfl hs ht).mpr ?_).trans ?_
  · unfold BinaryOperator.OpenEnded Number.OpenEnded
    decide
  · exact congrArg _ (by decide)

/-- `x` is not a number, so `x <= y` should not hold; but the least number of no numbers is taken to
be infinity, and so is the number of `y`. -/
theorem not_compare_eq_any : ¬∀ (F : Forest) (op : BinaryOperator) (s t : NodeSet)
    (as bs : List Node), op.isComparison = true → s.toList F = .ok as → t.toList F = .ok bs →
      Value.compare F op (.nodeSet s) (.nodeSet t) =
        .ok (as.any fun a => bs.any fun b => op.relates F a b) := by
  intro hcompare
  have hopen : BinaryOperator.lessThanOrEqual.OpenEnded wordAndInfinity [⟨0, 2⟩] [⟨0, 4⟩] := by
    unfold BinaryOperator.OpenEnded Number.OpenEnded
    decide
  exact (compare_eq_any_iff rfl rfl rfl).mp (hcompare wordAndInfinity .lessThanOrEqual
    (.singleton ⟨0, 2⟩) (.singleton ⟨0, 4⟩) [⟨0, 2⟩] [⟨0, 4⟩] rfl rfl rfl) hopen

end Value

end XPath
