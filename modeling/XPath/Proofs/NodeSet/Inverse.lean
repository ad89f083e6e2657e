import XPath.Proofs.NodeSet.Coherence
import XPath.Proofs.NodeSet.Comparison
import XPath.Proofs.Number.Position

/-!
# Comparisons with their sides exchanged

A comparison has a rule for every pair of kinds, and looks for it in a fixed order: a node-set goes before
a fragment, and a fragment before a boolean, a number, a text or an object. Still `a < b` says the same as
`b > a`, and so do every operator and its inverse, if the node-sets can be listed
(`Value.compare_exchanged`). A rule for one node-set or one fragment is asked of that side in either
direction. For the other pairs:

* a pair of equal or different texts can be looked for from either set (`Value.nodeSetEquals_comm`);
* the least number of the one set and the greatest one of the other are compared from either side
  (`Value.compareNodeSet_inverse`);
* two fragments, and two values without nodes, are converted to one type and compared there
  (`Value.fragmentEquals_comm`, `Value.converted_exchanged`).
-/

namespace XPath

variable {F : Forest} {s t : NodeSet} {as bs : List Node} {a b v : Value} {op : BinaryOperator}

theorem BinaryOperator.involutive_inverse : Function.Involutive inverse := inverse_inverse

/-- Numbers in a relation are in its inverse with the sides exchanged. -/
theorem BinaryOperator.compareNumbers_inverse (op : BinaryOperator) (x y : Float) :
    op.inverse.compareNumbers y x = op.compareNumbers x y := by
  cases op with
  | equals => exact Number.beq_comm y x
  | notEquals => exact congrArg (!·) (Number.beq_comm y x)
  | _ => rfl

namespace Value

/-- The nodes of a node-set can be listed; another value has none. -/
def Listable (F : Forest) : Value → Prop
  | nodeSet s => ∃ ns, s.toList F = .ok ns
  | _ => True

/-! ## Conversions -/

namespace Listable

theorem exists_toBool (hv : v.Listable F) : ∃ holds, v.toBool F = .ok holds := by
  cases v with
  | nodeSet s =>
      obtain ⟨ns, hns⟩ := hv
      obtain ⟨empty, hempty⟩ := NodeSet.exists_isEmpty hns
      exact ⟨!empty, map_eq_ok.mpr ⟨empty, hempty, rfl⟩⟩
  | boolean | number | string | fragment | object => exact ⟨_, rfl⟩

theorem exists_toText (hv : v.Listable F) : ∃ text, v.toText F = .ok text := by
  cases v with
  | nodeSet s =>
      obtain ⟨ns, hns⟩ := hv
      obtain ⟨first, hfirst⟩ := NodeSet.exists_first hns
      exact ⟨_, bind_eq_ok.mpr ⟨first, hfirst, rfl⟩⟩
  | boolean | number | string | fragment | object => exact ⟨_, rfl⟩

theorem exists_toNumber (hv : v.Listable F) : ∃ x, v.toNumber F = .ok x := by
  cases v with
  | nodeSet s =>
      obtain ⟨text, htext⟩ := hv.exists_toText
      exact ⟨_, map_eq_ok.mpr ⟨text, htext, rfl⟩⟩
  | object o => cases o <;> exact ⟨_, rfl⟩
  | boolean | number | string | fragment => exact ⟨_, rfl⟩

end Listable

/-- What two values are converted to is in a relation if it is in the converse with the sides
exchanged. -/
theorem converted_exchanged {α : Type} {convert : Value → Except Error α} {r r' : α → α → Bool}
    (hr : ∀ x y, r' y x = r x y) (ha : ∃ x, convert a = .ok x) (hb : ∃ y, convert b = .ok y) :
    ∃ holds, (do return r (← convert a) (← convert b)) = Except.ok holds ∧
      (do return r' (← convert b) (← convert a)) = Except.ok holds := by
  obtain ⟨x, hx⟩ := ha
  obtain ⟨y, hy⟩ := hb
  refine ⟨r x y, ?_, ?_⟩
  · rw [hx, hy]
    rfl
  · rw [hx, hy]
    exact congrArg Except.ok (hr x y)

/-! ## Equality and inequality -/

theorem exists_anyItem (has : s.toList F = .ok as) (p : Node → Bool) :
    ∃ holds, (do anyItem p (← s.enumerate F).items) = .ok holds := by
  obtain ⟨en, hen, hitems⟩ := exists_items has
  exact ⟨as.any p, bind_eq_ok.mpr ⟨en, hen, by rw [hitems, anyItem_map_ok]⟩⟩

theorem exists_nodeSetEquals (has : s.toList F = .ok as) (hb : b.Listable F) (equal : Bool) :
    ∃ holds, nodeSetEquals F s b equal = .ok holds := by
  cases b with
  | nodeSet t =>
      obtain ⟨bs, hbs⟩ := hb
      exact ⟨_, nodeSetEquals_eq has hbs equal⟩
  | boolean p =>
      obtain ⟨empty, hempty⟩ := NodeSet.exists_isEmpty has
      exact ⟨_, map_eq_ok.mpr ⟨empty, hempty, rfl⟩⟩
  | number | string | fragment | object => exact exists_anyItem has _

theorem nodeSetEquals_comm (has : s.toList F = .ok as) (hbs : t.toList F = .ok bs) (equal : Bool) :
    nodeSetEquals F t (.nodeSet s) equal = nodeSetEquals F s (.nodeSet t) equal := by
  have hpairs : (bs.any fun m => as.any fun n => (F.stringValue m == F.stringValue n) == equal) =
      as.any fun n => bs.any fun m => (F.stringValue m == F.stringValue n) == equal := by
    refine Bool.eq_iff_iff.mpr ?_
    simp only [List.any_eq_true]
    exact exists_pair_comm
  have htexts (n m : Node) :
      (F.stringValue m == F.stringValue n) = (F.stringValue n == F.stringValue m) := BEq.comm
  calc nodeSetEquals F t (.nodeSet s) equal
      = .ok (bs.any fun m => as.any fun n => (F.stringValue m == F.stringValue n) == equal) :=
        nodeSetEquals_eq hbs has equal
    _ = .ok (as.any fun n => bs.any fun m => (F.stringValue n == F.stringValue m) == equal) := by
        rw [hpairs]
        simp only [htexts]
    _ = nodeSetEquals F s (.nodeSet t) equal := (nodeSetEquals_eq has hbs equal).symm

theorem equals_nodeSet_exchanged (has : s.toList F = .ok as) (hb : b.Listable F) (equal : Bool) :
    ∃ holds, equals F (.nodeSet s) b equal = .ok holds ∧
      equals F b (.nodeSet s) equal = .ok holds := by
  obtain ⟨holds, h⟩ := exists_nodeSetEquals has hb equal
  refine ⟨holds, h, ?_⟩
  cases b with
  | nodeSet t =>
      obtain ⟨bs, hbs⟩ := hb
      exact (nodeSetEquals_comm has hbs equal).trans h
  | boolean | number | string | fragment | object => exact h

theorem fragmentEquals_comm (f g : Fragment) (equal : Bool) :
    fragmentEquals F g (.fragment f) equal = fragmentEquals F f (.fragment g) equal := by
  have htexts : (g.text == f.text) = (f.text == g.text) := BEq.comm
  exact congrArg (fun same => Except.ok (same == equal)) htexts

theorem equals_fragment_exchanged (f : Fragment) (hb : b.Listable F) (equal : Bool) :
    ∃ holds, equals F (.fragment f) b equal = .ok holds ∧
      equals F b (.fragment f) equal = .ok holds := by
  cases b with
  | nodeSet t =>
      obtain ⟨bs, hbs⟩ := hb
      obtain ⟨holds, h, h'⟩ := equals_nodeSet_exchanged hbs (b := .fragment f) trivial equal
      exact ⟨holds, h', h⟩
  | fragment g => exact ⟨_, rfl, fragmentEquals_comm (F := F) f g equal⟩
  | boolean | number | string | object => exact ⟨_, rfl, rfl⟩

/-- The type is chosen by the kinds of both sides, so it is the same from either side. -/
theorem scalarEquals_exchanged (ha : a.Listable F) (hb : b.Listable F) :
    ∃ same, scalarEquals F a b = .ok same ∧ scalarEquals F b a = .ok same := by
  have hbooleans := converted_exchanged (fun p q => (BEq.comm : (q == p) = (p == q)))
    ha.exists_toBool hb.exists_toBool
  have hnumbers := converted_exchanged (fun x y => Number.beq_comm y x)
    ha.exists_toNumber hb.exists_toNumber
  have htexts := converted_exchanged (fun x y => (BEq.comm : (y == x) = (x == y)))
    ha.exists_toText hb.exists_toText
  cases a with
  | boolean => cases b <;> exact hbooleans
  | number =>
      cases b with
      | boolean => exact hbooleans
      | number | string | nodeSet | fragment | object => exact hnumbers
  | string | nodeSet | fragment | object =>
      cases b with
      | boolean => exact hbooleans
      | number => exact hnumbers
      | string | nodeSet | fragment | object => exact htexts

theorem equals_exchanged (ha : a.Listable F) (hb : b.Listable F) (equal : Bool) :
    ∃ holds, equals F a b equal = .ok holds ∧ equals F b a equal = .ok holds := by
  have hscalars : ∃ holds, (scalarEquals F a b).map (· == equal) = .ok holds ∧
      (scalarEquals F b a).map (· == equal) = .ok holds := by
    obtain ⟨same, h, h'⟩ := scalarEquals_exchanged ha hb
    exact ⟨same == equal, map_eq_ok.mpr ⟨same, h, rfl⟩, map_eq_ok.mpr ⟨same, h', rfl⟩⟩
  cases a with
  | nodeSet s =>
      obtain ⟨as, has⟩ := ha
      exact equals_nodeSet_exchanged has hb equal
  | fragment f => exact equals_fragment_exchanged f hb equal
  | boolean | number | string | object =>
      cases b with
      | nodeSet t =>
          obtain ⟨bs, hbs⟩ := hb
          obtain ⟨holds, h, h'⟩ := equals_nodeSet_exchanged hbs ha equal
          exact ⟨holds, h', h⟩
      | fragment g =>
          obtain ⟨holds, h, h'⟩ := equals_fragment_exchanged g ha equal
          exact ⟨holds, h', h⟩
      | boolean | number | string | object => exact hscalars

/-! ## Order -/

theorem exists_compareNodeSet (has : s.toList F = .ok as) (hb : b.Listable F)
    (op : BinaryOperator) : ∃ holds, compareNodeSet F s op b = .ok holds := by
  cases b with
  | nodeSet t =>
      obtain ⟨bs, hbs⟩ := hb
      exact ⟨_, compareNodeSet_eq has hbs⟩
  | boolean p =>
      obtain ⟨empty, hempty⟩ := NodeSet.exists_isEmpty has
      exact ⟨_, map_eq_ok.mpr ⟨empty, hempty, rfl⟩⟩
  | object o => cases o <;> exact exists_anyItem has _
  | number | string | fragment => exact exists_anyItem has _

theorem compareNodeSet_inverse (has : s.toList F = .ok as) (hbs : t.toList F = .ok bs)
    (op : BinaryOperator) :
    compareNodeSet F t op.inverse (.nodeSet s) = compareNodeSet F s op (.nodeSet t) := by
  rw [compareNodeSet_eq hbs has, compareNodeSet_eq has hbs, Bool.and_comm (decide (bs ≠ []))]
  refine congrArg Except.ok (congrArg (and _) ?_)
  -- the inverse takes the other extreme of each set, so the same two numbers are compared
  cases op with
  | lessThan | lessThanOrEqual | greaterThan | greaterThanOrEqual =>
      exact BinaryOperator.compareNumbers_inverse _ _ _
  | _ => rfl

theorem order_exchanged (ha : a.Listable F) (hb : b.Listable F) (heq : op ≠ .equals)
    (hne : op ≠ .notEquals) :
    ∃ holds, compare F op a b = .ok holds ∧ compare F op.inverse b a = .ok holds := by
  have heq' : op.inverse ≠ .equals := fun h => heq (BinaryOperator.involutive_inverse.eq_iff.mp h)
  have hne' : op.inverse ≠ .notEquals := fun h => hne (BinaryOperator.involutive_inverse.eq_iff.mp h)
  rw [compare_of_order heq hne, compare_of_order heq' hne']
  have hnumbers :=
    converted_exchanged op.compareNumbers_inverse ha.exists_toNumber hb.exists_toNumber
  cases a with
  | nodeSet s =>
      obtain ⟨as, has⟩ := ha
      obtain ⟨holds, h⟩ := exists_compareNodeSet has hb op
      refine ⟨holds, h, ?_⟩
      cases b with
      | nodeSet t =>
          obtain ⟨bs, hbs⟩ := hb
          exact (compareNodeSet_inverse has hbs op).trans h
      | boolean | number | string | fragment | object =>
          -- on the right the set is asked by the inverse, which takes the inverse back
          rw [op.inverse_inverse]
          exact h
  | boolean | number | string | fragment | object =>
      cases b with
      | nodeSet t =>
          obtain ⟨bs, hbs⟩ := hb
          obtain ⟨holds, h⟩ := exists_compareNodeSet hbs ha op.inverse
          exact ⟨holds, h, h⟩
      | boolean | number | string | fragment | object => exact hnumbers

/-- Two values whose node-sets can be listed are compared to one result by an operator and, with the sides
exchanged, by its inverse. -/
theorem compare_exchanged (ha : a.Listable F) (hb : b.Listable F) (op : BinaryOperator) :
    ∃ holds, compare F op a b = .ok holds ∧ compare F op.inverse b a = .ok holds := by
  by_cases heq : op = .equals
  · subst heq
    exact equals_exchanged ha hb true
  by_cases hne : op = .notEquals
  · subst hne
    exact equals_exchanged ha hb false
  exact order_exchanged ha hb heq hne

def nearestFirst : NodeSet :=
  .intent ⟨"ancestor-or-self::node()", .ok (.ofNodes [⟨0, 4⟩, ⟨0, 1⟩, ⟨0, 0⟩] false true), false, none⟩

/-- `x` is no number, so no pair is in the relation; the extremes are, and from either side. -/
theorem compare_exchanged_wordAndInfinity :
    compare wordAndInfinity .lessThanOrEqual (.nodeSet (.singleton ⟨0, 2⟩)) (.nodeSet nearestFirst) =
        .ok true ∧
      compare wordAndInfinity .greaterThanOrEqual (.nodeSet nearestFirst)
        (.nodeSet (.singleton ⟨0, 2⟩)) = .ok true := by
  have hx : (nodeSet (.singleton ⟨0, 2⟩)).Listable wordAndInfinity := ⟨[⟨0, 2⟩], rfl⟩
  have hnearest : (nodeSet nearestFirst).Listable wordAndInfinity :=
    ⟨[⟨0, 0⟩, ⟨0, 1⟩, ⟨0, 4⟩], rfl⟩
  obtain ⟨holds, h, h'⟩ := compare_exchanged hx hnearest .lessThanOrEqual
  have hcompared : compare wordAndInfinity .lessThanOrEqual (.nodeSet (.singleton ⟨0, 2⟩))
      (.nodeSet nearestFirst) = .ok true := rfl
  obtain rfl : holds = true := Except.ok.inj (h.symm.trans hcompared)
  exact ⟨h, h'⟩

/-- A set that cannot be listed does no harm on the right of an empty one, which is asked first. -/
example (e : Error) :
    let broken : Value := .nodeSet (.intent ⟨"f()", .error e, false, none⟩)
    compare F .lessThan (.nodeSet .empty) broken = .ok false ∧
      compare F .greaterThan broken (.nodeSet .empty) = .error e := ⟨rfl, rfl⟩

end Value

end XPath
