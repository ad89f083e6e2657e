import XPath.NodeSet
import XPath.Proofs.Enumeration.Lists

/-!
# Merging lists in document order

A merge of two lists in document order yields the combination of their nodes. The merge may stop in
an error, and behind the end of a list it meets nothing but errors and the end again.
-/

namespace XPath

/-- Whether a node belongs to the combination of two sets to which it belongs or not. -/
def SetOperator.Takes (op : SetOperator) (left right : Prop) : Prop :=
  match op with
  | union => left ∨ right
  | intersect => left ∧ right
  | except => left ∧ ¬right

def Forest.combine (F : Forest) (op : SetOperator) (left right : List Node) : List Node :=
  match op with
  | .union => F.inOrder (left ++ right)
  | .intersect => left.filter right.contains
  | .except => left.filter fun n => !right.contains n

/-- Reading yields the nodes in this order, as far as there is no error, and no node behind the
end. -/
def Reads : List Reading → List Node → Prop
  | [], ns => ns = []
  | none :: rest, ns => ns = [] ∧ Reads rest []
  | some (.error _) :: _, _ => True
  | some (.ok n) :: rest, ns => ∃ ms, ns = n :: ms ∧ Reads rest ms

variable {F : Forest} {op : SetOperator} {as bs ns : List Node} {a b n : Node} {en : Enumeration}

theorem Forest.ascending_combine (has : F.Ascending as) (bs : List Node) :
    F.Ascending (F.combine op as bs) := by
  cases op with
  | union => exact ascending_inOrder F _
  | intersect | except => exact has.sublist List.filter_sublist

theorem Forest.WellFormed.mem_combine (W : F.WellFormed) (has : ∀ n ∈ as, F.Has n)
    (hbs : ∀ n ∈ bs, F.Has n) : n ∈ F.combine op as bs ↔ op.Takes (n ∈ as) (n ∈ bs) := by
  cases op with
  | union =>
      have hall : ∀ n ∈ as ++ bs, F.Has n := by
        intro n hn
        exact (List.mem_append.mp hn).elim (has n) (hbs n)
      rw [combine, W.mem_inOrder hall, List.mem_append, SetOperator.Takes]
  | intersect => simp [combine, SetOperator.Takes]
  | except => simp [combine, SetOperator.Takes]

theorem Forest.has_of_mem_combine (has : ∀ n ∈ as, F.Has n) (hbs : ∀ n ∈ bs, F.Has n)
    (h : n ∈ F.combine op as bs) : F.Has n := by
  cases op with
  | union => exact (List.mem_append.mp (mem_of_mem_inOrder h)).elim (has n) (hbs n)
  | intersect | except => exact has n (List.mem_of_mem_filter h)

/-! ## Readings -/

theorem reads_beyond (beyond : List (Option Error)) : Reads (beyond.map (·.map .error)) [] := by
  induction beyond with
  | nil => rfl
  | cons e beyond ih =>
      cases e with
      | none => exact ⟨rfl, ih⟩
      | some e => trivial

theorem reads_readings (h : Yields en.items ns) : Reads en.readings ns := by
  unfold Enumeration.readings
  generalize en.items = items at h
  induction items generalizing ns with
  | nil => exact ⟨h, reads_beyond _⟩
  | cons item items ih =>
      cases item with
      | error e => trivial
      | ok n =>
          obtain ⟨ms, rfl, h⟩ := h
          exact ⟨ms, rfl, ih h⟩

theorem Reads.yields_itemsOf {readings : List Reading} (h : Reads readings ns) :
    Yields (Enumeration.itemsOf readings) ns := by
  induction readings generalizing ns with
  | nil => exact h
  | cons r readings ih =>
      match r, h with
      | none, h => exact h.1
      | some (.error e), _ => trivial
      | some (.ok n), ⟨ms, hns, h⟩ => exact ⟨ms, hns, ih h⟩

/-! ## The merge -/

theorem Forest.Ascending.uncons (hns : F.Ascending ns) (ha : a ∈ ns)
    (hfirst : ∀ n ∈ ns, n ≠ a → F.Before a n) :
    ∃ rest, ns = a :: rest ∧ F.Ascending rest ∧ ∀ n, n ∈ rest ↔ n ∈ ns ∧ n ≠ a := by
  cases ns with
  | nil => simp at ha
  | cons m rest =>
      obtain ⟨hm, hrest⟩ := ascending_cons.mp hns
      have hma : m = a := by
        by_contra hne
        have hmem := (List.mem_cons.mp ha).resolve_left (Ne.symm hne)
        exact (hm a hmem).asymm (hfirst m (by simp) hne)
      subst hma
      refine ⟨rest, rfl, hrest, fun n => ?_⟩
      have hne : n ∈ rest → n ≠ m := fun hn => (hm n hn).ne.symm
      simp only [List.mem_cons]
      constructor
      · exact fun hn => ⟨Or.inr hn, hne hn⟩
      · exact fun hn => hn.1.resolve_left hn.2

/-- `ns` is the combination of `as` and `bs`, all in document order. -/
structure Combines (F : Forest) (op : SetOperator) (as bs ns : List Node) : Prop where
  left : F.Ascending as
  right : F.Ascending bs
  result : F.Ascending ns
  mem : ∀ n, n ∈ ns ↔ op.Takes (n ∈ as) (n ∈ bs)

namespace Combines

theorem eq_nil (h : Combines F op [] [] ns) : ns = [] := by
  rw [List.eq_nil_iff_forall_not_mem]
  intro n hn
  have := (h.mem n).mp hn
  cases op <;> simp [SetOperator.Takes] at this

theorem eq_nil_of_left (h : Combines F op [] bs ns) (hop : op ≠ .union) : ns = [] := by
  rw [List.eq_nil_iff_forall_not_mem]
  intro n hn
  have := (h.mem n).mp hn
  cases op <;> simp [SetOperator.Takes] at this hop

theorem eq_nil_of_right (h : Combines F .intersect as [] ns) : ns = [] := by
  rw [List.eq_nil_iff_forall_not_mem]
  intro n hn
  simpa [SetOperator.Takes] using (h.mem n).mp hn

/-- The first node of the left side, which comes before the right side, is dropped or the first of
the result. -/
theorem left_first (h : Combines F op (a :: as) bs ns) (hbs : ∀ n ∈ bs, F.Before a n) :
    if op = .intersect then Combines F op as bs ns
    else ∃ rest, ns = a :: rest ∧ Combines F op as bs rest := by
  obtain ⟨ha, has⟩ := Forest.ascending_cons.mp h.left
  have haas : a ∉ as := fun hn => Forest.Before.irrefl F a (ha a hn)
  have habs : a ∉ bs := fun hn => Forest.Before.irrefl F a (hbs a hn)
  split
  · rename_i hop
    subst hop
    refine ⟨has, h.right, h.result, fun n => ?_⟩
    rw [h.mem]
    simp only [SetOperator.Takes, List.mem_cons]
    constructor
    · rintro ⟨rfl | hn, hb⟩
      · exact absurd hb habs
      · exact ⟨hn, hb⟩
    · exact fun hn => ⟨Or.inr hn.1, hn.2⟩
  · rename_i hop
    have hmem : a ∈ ns := by
      rw [h.mem]
      cases op <;> simp_all [SetOperator.Takes]
    have hfirst : ∀ n ∈ ns, n ≠ a → F.Before a n := by
      intro n hn hne
      have hn := (h.mem n).mp hn
      cases op with
      | union =>
          rcases hn with hn | hn
          · exact ha n ((List.mem_cons.mp hn).resolve_left hne)
          · exact hbs n hn
      | intersect => exact absurd rfl hop
      | except => exact ha n ((List.mem_cons.mp hn.1).resolve_left hne)
    obtain ⟨rest, hrest, hasc, hiff⟩ := h.result.uncons hmem hfirst
    refine ⟨rest, hrest, has, h.right, hasc, fun n => ?_⟩
    rw [hiff, h.mem]
    cases op with
    | union => grind [SetOperator.Takes]
    | intersect => exact absurd rfl hop
    | except => grind [SetOperator.Takes]

/-- The first node of the right side, which comes before the left side, is dropped or the first of
the result. -/
theorem right_first (h : Combines F op as (b :: bs) ns) (has : ∀ n ∈ as, F.Before b n) :
    if op = .union then ∃ rest, ns = b :: rest ∧ Combines F op as bs rest
    else Combines F op as bs ns := by
  obtain ⟨hb, hbs⟩ := Forest.ascending_cons.mp h.right
  have hbbs : b ∉ bs := fun hn => Forest.Before.irrefl F b (hb b hn)
  have hbas : b ∉ as := fun hn => Forest.Before.irrefl F b (has b hn)
  split
  · rename_i hop
    subst hop
    have hmem : b ∈ ns := by
      rw [h.mem]
      simp [SetOperator.Takes]
    have hfirst : ∀ n ∈ ns, n ≠ b → F.Before b n := by
      intro n hn hne
      rcases (h.mem n).mp hn with hn | hn
      · exact has n hn
      · exact hb n ((List.mem_cons.mp hn).resolve_left hne)
    obtain ⟨rest, hrest, hasc, hiff⟩ := h.result.uncons hmem hfirst
    refine ⟨rest, hrest, h.left, hbs, hasc, fun n => ?_⟩
    rw [hiff, h.mem]
    grind [SetOperator.Takes]
  · rename_i hop
    refine ⟨h.left, hbs, h.result, fun n => ?_⟩
    rw [h.mem]
    cases op with
    | union => exact absurd rfl hop
    | intersect => grind [SetOperator.Takes]
    | except => grind [SetOperator.Takes]

theorem both_first (h : Combines F op (a :: as) (a :: bs) ns) :
    if op = .except then Combines F op as bs ns
    else ∃ rest, ns = a :: rest ∧ Combines F op as bs rest := by
  obtain ⟨ha, has⟩ := Forest.ascending_cons.mp h.left
  obtain ⟨hb, hbs⟩ := Forest.ascending_cons.mp h.right
  have haas : a ∉ as := fun hn => Forest.Before.irrefl F a (ha a hn)
  have habs : a ∉ bs := fun hn => Forest.Before.irrefl F a (hb a hn)
  split
  · rename_i hop
    subst hop
    refine ⟨has, hbs, h.result, fun n => ?_⟩
    rw [h.mem]
    grind [SetOperator.Takes]
  · rename_i hop
    have hmem : a ∈ ns := by
      rw [h.mem]
      cases op <;> simp_all [SetOperator.Takes]
    have hfirst : ∀ n ∈ ns, n ≠ a → F.Before a n := by
      intro n hn hne
      have hn := (h.mem n).mp hn
      cases op <;> grind [SetOperator.Takes]
    obtain ⟨rest, hrest, hasc, hiff⟩ := h.result.uncons hmem hfirst
    refine ⟨rest, hrest, has, hbs, hasc, fun n => ?_⟩
    rw [hiff, h.mem]
    cases op with
    | union => grind [SetOperator.Takes]
    | intersect => grind [SetOperator.Takes]
    | except => exact absurd rfl hop

end Combines

open Enumeration (itemsOf)

theorem yields_mergeRest {right : List Reading} (hr : Reads right bs)
    (h : Combines F op [] bs ns) : Yields (itemsOf (mergeRest op right)) ns := by
  unfold mergeRest
  split
  · rename_i hop
    subst hop
    have hns : ns = bs := by
      refine h.result.eq_of_mem_iff h.right fun n => ?_
      rw [h.mem]
      simp [SetOperator.Takes]
    exact hns ▸ hr.yields_itemsOf
  · exact h.eq_nil_of_left (by assumption)

section Step

/- `rest` is the merge of what is left on the left side behind its next reading. -/
variable {rest : List Reading → List Reading}

theorem yields_mergeEnd {right : List Reading} (hr : Reads right bs)
    (h : Combines F op [] bs ns) (hbs : ∀ n ∈ bs, F.Has n)
    (hrest : ∀ right bs ns, Reads right bs → Combines F op [] bs ns → (∀ n ∈ bs, F.Has n) →
      Yields (itemsOf (rest right)) ns) :
    Yields (itemsOf (mergeEnd op rest right)) ns := by
  cases right with
  | nil =>
      obtain rfl : bs = [] := hr
      exact h.eq_nil
  | cons r right =>
      rw [mergeEnd]
      split
      · match r, hr with
        | none, hr =>
            obtain ⟨rfl, -⟩ := hr
            exact h.eq_nil
        | some (.error e), _ => trivial
        | some (.ok b), ⟨bs', hbs', hr'⟩ =>
            subst hbs'
            have hfirst := h.right_first (by simp)
            rw [if_pos (by assumption)] at hfirst
            obtain ⟨ns', rfl, h'⟩ := hfirst
            exact ⟨ns', rfl, hrest right bs' ns' hr' h' fun n hn =>
              hbs n (List.mem_cons_of_mem _ hn)⟩
      · exact h.eq_nil_of_left (by assumption)

theorem yields_mergeHead (W : F.WellFormed) {right : List Reading} (hr : Reads right bs)
    (h : Combines F op (a :: as) bs ns) (has : ∀ n ∈ a :: as, F.Has n) (hbs : ∀ n ∈ bs, F.Has n)
    (hrest : ∀ right bs ns, Reads right bs → Combines F op as bs ns → (∀ n ∈ bs, F.Has n) →
      Yields (itemsOf (rest right)) ns) :
    Yields (itemsOf (mergeHead F op a rest right)) ns := by
  have hend : ∀ right ns, Reads right [] → Combines F op (a :: as) [] ns →
      Yields (itemsOf ((if op = .intersect then none else some (.ok a)) :: rest right)) ns := by
    intro right ns hr h
    have hfirst := h.left_first (by simp)
    split at hfirst
    · rename_i hop
      subst hop
      exact h.eq_nil_of_right
    · rename_i hop
      obtain ⟨ns', rfl, h'⟩ := hfirst
      rw [if_neg hop]
      exact ⟨ns', rfl, hrest right [] ns' hr h' (by simp)⟩
  induction right generalizing bs ns with
  | nil =>
      obtain rfl : bs = [] := hr
      exact hend [] ns rfl h
  | cons r right ih =>
      match r, hr with
      | none, hr' =>
          obtain ⟨rfl, hr'⟩ := hr'
          exact hend right ns hr' h
      | some (.error e), _ => trivial
      | some (.ok b), ⟨bs', hbs', hr'⟩ =>
          subst hbs'
          have hb : ∀ n ∈ bs', F.Before b n := (Forest.ascending_cons.mp h.right).1
          have ha : ∀ n ∈ as, F.Before a n := (Forest.ascending_cons.mp h.left).1
          have hbs' : ∀ n ∈ bs', F.Has n := fun n hn => hbs n (List.mem_cons_of_mem _ hn)
          rw [mergeHead]
          cases hcmp : F.compareNodes a b with
          | lt =>
              have hlt : F.Before a b := hcmp
              have hfirst := h.left_first fun n hn =>
                (List.mem_cons.mp hn).elim (fun heq => heq ▸ hlt) fun hn => hlt.trans (hb n hn)
              have hr : Reads (some (.ok b) :: right) (b :: bs') := ⟨bs', rfl, hr'⟩
              simp only
              split at hfirst
              · rename_i hop
                rw [if_pos hop]
                exact hrest _ _ _ hr hfirst hbs
              · rename_i hop
                obtain ⟨ns', rfl, h'⟩ := hfirst
                rw [if_neg hop]
                exact ⟨ns', rfl, hrest _ _ _ hr h' hbs⟩
          | gt =>
              have hlt : F.Before b a := Forest.compareNodes_eq_gt.mp hcmp
              have hfirst := h.right_first fun n hn =>
                (List.mem_cons.mp hn).elim (fun heq => heq ▸ hlt) fun hn => hlt.trans (ha n hn)
              simp only
              split at hfirst
              · rename_i hop
                obtain ⟨ns', rfl, h'⟩ := hfirst
                rw [if_pos hop]
                exact ⟨ns', rfl, ih hr' h' hbs'⟩
              · rename_i hop
                rw [if_neg hop]
                exact ih hr' hfirst hbs'
          | eq =>
              have hkey := Forest.compareNodes_eq_eq.mp hcmp
              have hab : a = b := W.eq_of_orderKey_eq (has a (by simp)) (hbs b (by simp)) hkey
              subst hab
              have hfirst := h.both_first
              simp only
              split at hfirst
              · rename_i hop
                rw [if_pos hop]
                exact hrest _ _ _ hr' hfirst hbs'
              · rename_i hop
                obtain ⟨ns', rfl, h'⟩ := hfirst
                rw [if_neg hop]
                exact ⟨ns', rfl, hrest _ _ _ hr' h' hbs'⟩

end Step

/-- A merge of two lists in document order yields the combination of their nodes. -/
theorem yields_mergeReadings (W : F.WellFormed) {left right : List Reading} (hl : Reads left as)
    (hr : Reads right bs) (h : Combines F op as bs ns) (has : ∀ n ∈ as, F.Has n)
    (hbs : ∀ n ∈ bs, F.Has n) : Yields (itemsOf (mergeReadings F op left right)) ns := by
  induction left generalizing right as bs ns with
  | nil =>
      obtain rfl : as = [] := hl
      exact yields_mergeRest hr h
  | cons l left ih =>
      match l, hl with
      | none, hl' =>
          obtain ⟨rfl, hl'⟩ := hl'
          exact yields_mergeEnd hr h hbs fun right bs' ns' hr' h' => ih hl' hr' h' has
      | some (.error e), _ => trivial
      | some (.ok a), ⟨as', has', hl'⟩ =>
          subst has'
          exact yields_mergeHead W hr h has hbs fun right bs' ns' hr' h' hbs' =>
            ih hl' hr' h' (fun n hn => has n (List.mem_cons_of_mem _ hn)) hbs'

namespace Enumeration.Lists

/-- The merge of two enumerations stands for the combination of their nodes. -/
theorem merge (W : F.WellFormed) {left right : Enumeration} (hl : left.Lists F as)
    (hr : right.Lists F bs) (h : left.merge F op right = .ok en) :
    en.Lists F (F.combine op as bs) := by
  simp only [Enumeration.merge, bind_eq_ok, pure_eq_ok] at h
  obtain ⟨l, hl', r, hr', rfl⟩ := h
  obtain ⟨hl, hls⟩ := hl.inDocumentOrder W hl'
  obtain ⟨hr, hrs⟩ := hr.inDocumentOrder W hr'
  have hcombine : Combines F op as bs (F.combine op as bs) :=
    ⟨hl.ascending, hr.ascending, Forest.ascending_combine hl.ascending bs,
      fun n => W.mem_combine hl.has hr.has⟩
  have hyields := yields_mergeReadings W (reads_readings (hl.sorted hls))
    (reads_readings (hr.sorted hrs)) hcombine hl.has hr.has
  exact
    { ascending := hcombine.result
      has := fun n hn => Forest.has_of_mem_combine hl.has hr.has hn
      covers := hyields.covers
      sorted := fun _ => hyields
      reverse := by simp
      peers := by simp
      size := by simp }

end Enumeration.Lists

end XPath
