import XPath.Proofs.NodeSet.Algebra

/-!
# Lists that are read again

A combination reads its sets anew whenever it is listed, and one of them may be materialised in the
meantime: it then keeps its nodes and loses what its expression would report behind them. Such a list
goes on as before up to the first error, and so does a merge of lists that do (`Follows.merge`). What
was read to its end is read to its end again (`Follows.nodes`).
-/

namespace XPath

variable {F : Forest} {op : SetOperator} {en en' : Enumeration} {ns : List Node}
  {left left' right right' rs rs' rs'' : List Reading}

/-- The second list goes as the first one up to the first error of that. A list stays at its end. -/
inductive Follows : List Reading → List Reading → Prop
  | nil : Follows [] []
  | cons (reading : Reading) {rs rs' : List Reading} (tail : Follows rs rs') :
      Follows (reading :: rs) (reading :: rs')
  | failed (e : Error) (rs rs' : List Reading) : Follows (some (.error e) :: rs) rs'
  | ended {rs : List Reading} (tail : Follows rs []) : Follows (none :: rs) []

namespace Follows

theorem refl : ∀ rs, Follows rs rs
  | [] => .nil
  | reading :: rs => .cons reading (refl rs)

theorem eq_nil (hrs : Follows [] rs) : rs = [] := by
  cases hrs
  rfl

theorem trans (hrs : Follows rs rs') (hrs' : Follows rs' rs'') : Follows rs rs'' := by
  induction hrs generalizing rs'' with
  | nil => exact hrs'
  | cons reading _ ih =>
      cases hrs' with
      | cons _ tail => exact .cons reading (ih tail)
      | failed e => exact .failed e _ _
      | ended tail => exact .ended (ih tail)
  | failed e => exact .failed e _ _
  | ended _ ih =>
      obtain rfl := hrs'.eq_nil
      exact .ended (ih .nil)

theorem append (items : List Item) (hrs : Follows rs rs') :
    Follows (items.map some ++ rs) (items.map some ++ rs') := by
  induction items with
  | nil => exact hrs
  | cons item items ih => exact .cons (some item) ih

/-- Behind the end is nothing but the end and errors, and the end follows these. -/
theorem beyond (errors : List (Option Error)) : Follows (errors.map (·.map .error)) [] := by
  induction errors with
  | nil => exact .nil
  | cons e errors ih =>
      cases e with
      | none => exact .ended ih
      | some e => exact .failed e _ _

theorem mergeRest (hright : Follows right right') :
    Follows (XPath.mergeRest op right) (XPath.mergeRest op right') := by
  unfold XPath.mergeRest
  split
  · exact hright
  · exact .nil

theorem mergeEnd_of_ne_union {rest : List Reading → List Reading} (hop : op ≠ .union) :
    XPath.mergeEnd op rest right = none :: rest right := by
  cases right with
  | nil => rfl
  | cons reading right => rw [XPath.mergeEnd, if_neg hop]

theorem mergeEnd (hrest : ∀ {right right'}, Follows right right' →
      Follows (mergeReadings F op left right) (mergeReadings F op left' right'))
    (hright : Follows right right') :
    Follows (XPath.mergeEnd op (mergeReadings F op left) right)
      (XPath.mergeEnd op (mergeReadings F op left') right') := by
  by_cases hop : op = .union
  · subst hop
    cases hright with
    | nil => exact .cons none (hrest .nil)
    | cons reading tail => exact .cons reading (hrest tail)
    | failed e => exact .failed e _ _
    | ended tail => exact .cons none (hrest tail)
  · rw [mergeEnd_of_ne_union hop, mergeEnd_of_ne_union hop]
    exact .cons none (hrest hright)

/-- A left side that is at its end for good follows one that reports it. -/
theorem mergeEnd_nil (hrest : ∀ {right right'}, Follows right right' →
      Follows (mergeReadings F op left right) (mergeReadings F op [] right'))
    (hright : Follows right right') :
    Follows (XPath.mergeEnd op (mergeReadings F op left) right) (mergeReadings F op [] right') := by
  by_cases hop : op = .union
  · subst hop
    cases hright with
    | nil => exact .ended (hrest .nil)
    | cons reading tail => exact .cons reading (hrest tail)
    | failed e => exact .failed e _ _
    | ended tail => exact .ended (hrest tail)
  · rw [mergeEnd_of_ne_union hop]
    have hnil : mergeReadings F op [] right' = [] := by
      rw [mergeReadings, XPath.mergeRest, if_neg hop]
    have htail := hrest hright
    rw [hnil] at htail ⊢
    exact .ended htail

/-- The same node in front of a left side and one that follows it. -/
theorem mergeHead (n : Node) (hrest : ∀ {right right'}, Follows right right' →
      Follows (mergeReadings F op left right) (mergeReadings F op left' right'))
    (hright : Follows right right') :
    Follows (XPath.mergeHead F op n (mergeReadings F op left) right)
      (XPath.mergeHead F op n (mergeReadings F op left') right') := by
  induction hright with
  | nil => exact .cons _ (hrest .nil)
  | failed e =>
      rw [XPath.mergeHead]
      exact .failed e _ _
  | ended tail _ => exact .cons _ (hrest tail)
  | @cons reading right right' tail ih =>
      rcases reading with _ | e | m
      · exact .cons _ (hrest tail)
      · exact .failed e _ _
      · rw [XPath.mergeHead, XPath.mergeHead]
        split
        · split
          · exact hrest (.cons _ tail)
          · exact .cons _ (hrest (.cons _ tail))
        · split
          · exact .cons _ ih
          · exact ih
        · split
          · exact hrest tail
          · exact .cons _ (hrest tail)

/-- A merge of two sides goes on as before if each of them does, up to the first error. -/
theorem merge (hleft : Follows left left') (hright : Follows right right') :
    Follows (mergeReadings F op left right) (mergeReadings F op left' right') := by
  induction hleft generalizing right right' with
  | nil => exact hright.mergeRest
  | cons reading _ ih =>
      rcases reading with _ | e | n
      · exact hright.mergeEnd ih
      · exact .failed e _ _
      · exact hright.mergeHead n ih
  | failed e => exact .failed e _ _
  | ended _ ih => exact hright.mergeEnd_nil ih

theorem beyondEnd (hrs : Follows rs rs') :
    Follows ((Enumeration.beyondOf (none :: rs)).map (·.map .error))
      ((Enumeration.beyondOf (none :: rs')).map (·.map .error)) := by
  simp only [Enumeration.beyondOf, List.map_map]
  induction hrs with
  | nil => exact .nil
  | cons reading _ ih => exact .cons _ ih
  | failed e => exact .failed e _ _
  | ended _ ih => exact .ended ih

theorem readings (hrs : Follows rs rs') (hitems : en.items = Enumeration.itemsOf rs)
    (hbeyond : en.beyond = Enumeration.beyondOf rs) (hitems' : en'.items = Enumeration.itemsOf rs')
    (hbeyond' : en'.beyond = Enumeration.beyondOf rs') : Follows en.readings en'.readings := by
  rw [Enumeration.readings, Enumeration.readings, hitems, hbeyond, hitems', hbeyond']
  clear hitems hbeyond hitems' hbeyond'
  induction hrs with
  | nil => exact .refl _
  | cons reading tail ih =>
      cases reading with
      | none => exact .cons none tail.beyondEnd
      | some item => exact .cons (some item) ih
  | failed e => exact .failed e _ _
  | ended tail => exact .cons none tail.beyondEnd

theorem nodes (hen : Follows en.readings en'.readings) (hns : en.nodes = .ok ns) :
    en'.nodes = .ok ns := by
  have hitems : ∀ {rs rs' : List Reading} {ns : List Node}, Follows rs rs' →
      collect (Enumeration.itemsOf rs) = .ok ns → collect (Enumeration.itemsOf rs') = .ok ns := by
    intro rs rs' ns hrs hns
    induction hrs generalizing ns with
    | nil => exact hns
    | cons reading _ ih =>
        rcases reading with _ | e | n
        · exact hns
        · cases hns
        · rw [Enumeration.itemsOf, collect, map_eq_ok] at hns ⊢
          obtain ⟨ms, hms, rfl⟩ := hns
          exact ⟨ms, ih hms, rfl⟩
    | failed e => cases hns
    | ended => exact hns
  have hnodes := @hitems _ _ ns hen
  rw [itemsOf_readings, itemsOf_readings] at hnodes
  exact hnodes hns

end Follows

end XPath
