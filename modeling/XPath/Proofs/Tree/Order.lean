import XPath.Enumeration

/-!
# Document order

`Before` is document order as a relation between nodes: a strict order that goes by the order keys
alone. A list of nodes is `Ascending` when each node comes before all nodes behind it. Putting nodes
in order gives an ascending list of the same places, and leaves an ascending list as it is.
-/

namespace XPath

namespace OrderKey

theorem compare_eq_lt {a b : OrderKey} :
    a.compare b = .lt ↔
      a.document < b.document ∨ a.document = b.document ∧ a.sequence < b.sequence := by
  simp [compare, Ordering.then_eq_lt, Nat.compare_eq_lt]

theorem compare_eq_gt {a b : OrderKey} :
    a.compare b = .gt ↔
      b.document < a.document ∨ a.document = b.document ∧ b.sequence < a.sequence := by
  simp [compare, Ordering.then_eq_gt, Nat.compare_eq_gt]

theorem compare_eq_eq {a b : OrderKey} : a.compare b = .eq ↔ a = b := by
  cases a
  cases b
  simp [compare, Ordering.then_eq_eq]

end OrderKey

namespace Forest

variable {F : Forest} {a b c n m : Node} {ns ms : List Node}

/-- The place of `a` comes before the place of `b`. -/
def Before (F : Forest) (a b : Node) : Prop := F.compareNodes a b = .lt

/-- Each node comes before all nodes behind it. -/
def Ascending (F : Forest) (ns : List Node) : Prop := ns.Pairwise F.Before

theorem before_iff : F.Before a b ↔
    (F.orderKey a).document < (F.orderKey b).document ∨
      (F.orderKey a).document = (F.orderKey b).document ∧
        (F.orderKey a).sequence < (F.orderKey b).sequence :=
  OrderKey.compare_eq_lt

theorem Before.trans (hab : F.Before a b) (hbc : F.Before b c) : F.Before a c := by
  rw [before_iff] at *
  omega

theorem Before.asymm (hab : F.Before a b) : ¬F.Before b a := by
  rw [before_iff] at *
  omega

theorem Before.irrefl (F : Forest) (a : Node) : ¬F.Before a a := by
  rw [before_iff]
  omega

theorem Before.ne (hab : F.Before a b) : a ≠ b := by
  rintro rfl
  exact Before.irrefl F a hab

theorem Before.key_ne (hab : F.Before a b) : F.orderKey a ≠ F.orderKey b := by
  intro h
  rw [before_iff, h] at hab
  omega

theorem compareNodes_eq_gt : F.compareNodes a b = .gt ↔ F.Before b a := by
  rw [before_iff]
  exact OrderKey.compare_eq_gt.trans (by rw [eq_comm (a := (F.orderKey a).document)])

theorem compareNodes_eq_eq : F.compareNodes a b = .eq ↔ F.orderKey a = F.orderKey b :=
  OrderKey.compare_eq_eq

theorem before_trichotomy (F : Forest) (a b : Node) :
    F.Before a b ∨ F.orderKey a = F.orderKey b ∨ F.Before b a := by
  cases h : F.compareNodes a b with
  | lt => exact Or.inl h
  | eq => exact Or.inr (Or.inl (compareNodes_eq_eq.mp h))
  | gt => exact Or.inr (Or.inr (compareNodes_eq_gt.mp h))

theorem notAfter_iff : F.notAfter a b = true ↔ ¬F.Before b a := by
  rw [← compareNodes_eq_gt]
  simp [notAfter]

theorem notAfter_trans (hab : F.notAfter a b = true) (hbc : F.notAfter b c = true) :
    F.notAfter a c = true := by
  rw [notAfter_iff, before_iff] at *
  omega

theorem notAfter_total (F : Forest) (a b : Node) :
    (F.notAfter a b || F.notAfter b a) = true := by
  rw [Bool.or_eq_true, notAfter_iff, notAfter_iff, before_iff, before_iff]
  omega

/-! ## Ascending lists -/

@[simp] theorem ascending_nil : F.Ascending [] := List.Pairwise.nil

@[simp] theorem ascending_singleton (F : Forest) (n : Node) : F.Ascending [n] :=
  List.pairwise_singleton _ _

theorem ascending_toList (F : Forest) (n : Option Node) : F.Ascending n.toList := by
  cases n <;> simp

theorem ascending_cons : F.Ascending (n :: ns) ↔ (∀ m ∈ ns, F.Before n m) ∧ F.Ascending ns :=
  List.pairwise_cons

theorem Ascending.sublist (h : F.Ascending ns) (hsub : ms.Sublist ns) : F.Ascending ms :=
  List.Pairwise.sublist hsub h

theorem Ascending.nodup (h : F.Ascending ns) : ns.Nodup :=
  List.Pairwise.imp Before.ne h

theorem Ascending.eq_of_mem_iff (hn : F.Ascending ns) (hm : F.Ascending ms)
    (h : ∀ n, n ∈ ns ↔ n ∈ ms) : ns = ms := by
  induction ns generalizing ms with
  | nil =>
      cases ms with
      | nil => rfl
      | cons m ms => simpa using h m
  | cons n ns ih =>
      cases ms with
      | nil => simpa using h n
      | cons m ms =>
          rw [ascending_cons] at hn hm
          have hhead : n = m := by
            rcases List.mem_cons.mp ((h n).mp (by simp)) with heq | hmem
            · exact heq
            rcases List.mem_cons.mp ((h m).mpr (by simp)) with heq | hmem'
            · exact heq.symm
            exact absurd (hm.1 n hmem) (Before.asymm (hn.1 m hmem'))
          subst hhead
          congr 1
          apply ih hn.2 hm.2
          intro k
          have hk := h k
          simp only [List.mem_cons] at hk
          constructor
          · intro hmem
            exact (hk.mp (Or.inr hmem)).resolve_left (Before.ne (hn.1 k hmem)).symm
          · intro hmem
            exact (hk.mpr (Or.inr hmem)).resolve_left (Before.ne (hm.1 k hmem)).symm

/-! ## Putting nodes in order -/

theorem mem_of_mem_dropRepeatsFrom (h : m ∈ F.dropRepeatsFrom n ns) : m = n ∨ m ∈ ns := by
  induction ns generalizing n with
  | nil => simpa [dropRepeatsFrom] using h
  | cons k ns ih =>
      rw [dropRepeatsFrom] at h
      split at h
      · rcases ih h with h | h
        · exact Or.inl h
        · exact Or.inr (List.mem_cons_of_mem _ h)
      · rcases List.mem_cons.mp h with h | h
        · exact Or.inl h
        · exact Or.inr (by simpa using ih h)

theorem exists_mem_dropRepeatsFrom (h : m = n ∨ m ∈ ns) :
    ∃ k ∈ F.dropRepeatsFrom n ns, F.orderKey k = F.orderKey m := by
  induction ns generalizing n m with
  | nil =>
      refine ⟨n, by simp [dropRepeatsFrom], ?_⟩
      rw [h.resolve_right (by simp)]
  | cons k ns ih =>
      rw [dropRepeatsFrom]
      split
      · rename_i hkey
        have hkey : F.orderKey n = F.orderKey k := by simpa using hkey
        rcases h with rfl | h
        · exact ih (Or.inl rfl)
        rcases List.mem_cons.mp h with rfl | h
        · obtain ⟨j, hj, heq⟩ := ih (Or.inl rfl)
          exact ⟨j, hj, heq.trans hkey⟩
        · exact ih (Or.inr h)
      · rcases h with rfl | h
        · exact ⟨m, by simp, rfl⟩
        · obtain ⟨j, hj, heq⟩ := ih (List.mem_cons.mp h)
          exact ⟨j, List.mem_cons_of_mem _ hj, heq⟩

theorem before_of_notAfter_of_key_ne (h : F.notAfter a b = true)
    (hne : F.orderKey a ≠ F.orderKey b) : F.Before a b := by
  rw [notAfter_iff] at h
  rcases before_trichotomy F a b with hlt | heq | hgt
  · exact hlt
  · exact absurd heq hne
  · exact absurd hgt h

theorem before_of_before_of_notAfter (hab : F.Before a b) (hbc : F.notAfter b c = true) :
    F.Before a c := by
  rw [notAfter_iff] at hbc
  rw [before_iff] at *
  omega

theorem ascending_dropRepeatsFrom
    (h : (n :: ns).Pairwise fun a b => F.notAfter a b = true) :
    F.Ascending (F.dropRepeatsFrom n ns) := by
  induction ns generalizing n with
  | nil => simp [dropRepeatsFrom]
  | cons k ns ih =>
      obtain ⟨hn, hk⟩ := List.pairwise_cons.mp h
      rw [dropRepeatsFrom]
      split
      · apply ih
        rw [List.pairwise_cons]
        exact ⟨fun m hm => hn m (List.mem_cons_of_mem _ hm), (List.pairwise_cons.mp hk).2⟩
      · rename_i hkey
        have hlt : F.Before n k :=
          before_of_notAfter_of_key_ne (hn k (by simp)) (by simpa using hkey)
        rw [ascending_cons]
        refine ⟨fun m hm => ?_, ih hk⟩
        rcases mem_of_mem_dropRepeatsFrom hm with rfl | hm
        · exact hlt
        · exact before_of_before_of_notAfter hlt ((List.pairwise_cons.mp hk).1 m hm)

theorem dropRepeatsFrom_of_ascending (h : F.Ascending (n :: ns)) :
    F.dropRepeatsFrom n ns = n :: ns := by
  induction ns generalizing n with
  | nil => rfl
  | cons k ns ih =>
      obtain ⟨hn, hk⟩ := ascending_cons.mp h
      have hkey := Before.key_ne (hn k (by simp))
      rw [dropRepeatsFrom, if_neg (by simpa using hkey), ih hk]

theorem ascending_inOrder (F : Forest) (ns : List Node) : F.Ascending (F.inOrder ns) := by
  have hsorted : (ns.mergeSort F.notAfter).Pairwise fun a b => F.notAfter a b = true :=
    @List.pairwise_mergeSort Node F.notAfter (fun _ _ _ => notAfter_trans) (notAfter_total F) ns
  unfold inOrder
  generalize ns.mergeSort F.notAfter = ms at hsorted
  cases ms with
  | nil => exact ascending_nil
  | cons m ms => exact ascending_dropRepeatsFrom hsorted

theorem mem_of_mem_inOrder (h : n ∈ F.inOrder ns) : n ∈ ns := by
  have hmem (k : Node) : k ∈ ns.mergeSort F.notAfter → k ∈ ns := List.mem_mergeSort.mp
  unfold inOrder at h
  generalize ns.mergeSort F.notAfter = ms at h hmem
  cases ms with
  | nil => simp [dropRepeats] at h
  | cons m ms => exact hmem n (List.mem_cons.mpr (mem_of_mem_dropRepeatsFrom h))

theorem exists_mem_inOrder (F : Forest) (h : n ∈ ns) :
    ∃ k ∈ F.inOrder ns, F.orderKey k = F.orderKey n := by
  have hmem : n ∈ ns.mergeSort F.notAfter := List.mem_mergeSort.mpr h
  unfold inOrder
  generalize ns.mergeSort F.notAfter = ms at hmem
  cases ms with
  | nil => simp at hmem
  | cons m ms => exact exists_mem_dropRepeatsFrom (List.mem_cons.mp hmem)

theorem inOrder_of_ascending (h : F.Ascending ns) : F.inOrder ns = ns := by
  have hsorted : ns.mergeSort F.notAfter = ns := by
    apply List.mergeSort_of_pairwise
    refine List.Pairwise.imp (fun hab => ?_) h
    exact notAfter_iff.mpr (Before.asymm hab)
  unfold inOrder
  rw [hsorted]
  cases ns with
  | nil => rfl
  | cons n ns => exact dropRepeatsFrom_of_ascending h

@[simp] theorem inOrder_nil (F : Forest) : F.inOrder [] = [] := inOrder_of_ascending ascending_nil

/-! ## The earliest node -/

theorem mem_of_earliest? (h : F.earliest? ns = some n) : n ∈ ns := by
  induction ns generalizing n with
  | nil => simp [earliest?] at h
  | cons m ns ih =>
      rw [earliest?] at h
      split at h
      · simp_all
      · rename_i k hk
        split at h <;> simp_all

theorem earliest?_eq_none : F.earliest? ns = none ↔ ns = [] := by
  cases ns with
  | nil => simp [earliest?]
  | cons m ns =>
      rw [earliest?]
      split <;> try split
      all_goals simp

theorem not_before_earliest? (h : F.earliest? ns = some n) (hm : m ∈ ns) : ¬F.Before m n := by
  induction ns generalizing n with
  | nil => simp at hm
  | cons k ns ih =>
      rw [earliest?] at h
      split at h
      · rename_i hnone
        rw [earliest?_eq_none] at hnone
        simp_all [Before.irrefl]
      · rename_i j hj
        have hjm : m ∈ ns → ¬F.Before m j := fun hmem => ih hj hmem
        split at h <;> rename_i hlt <;> obtain rfl := Option.some.inj h
        · rcases List.mem_cons.mp hm with rfl | hmem
          · exact Before.asymm (by simpa [Before] using hlt)
          · exact hjm hmem
        · have hlt : ¬F.Before j k := by simpa [Before] using hlt
          rcases List.mem_cons.mp hm with rfl | hmem
          · exact Before.irrefl F m
          · have hmj := hjm hmem
            rw [before_iff] at *
            omega

theorem head?_dropRepeatsFrom (F : Forest) (n : Node) (ns : List Node) :
    (F.dropRepeatsFrom n ns).head? = some n := by
  induction ns with
  | nil => rfl
  | cons m ns ih =>
      rw [dropRepeatsFrom]
      split
      · exact ih
      · rfl

theorem head?_mergeSort (F : Forest) (ns : List Node) :
    (ns.mergeSort F.notAfter).head? = F.earliest? ns := by
  have htrans (a b c : Node) (hab : F.notAfter a b = true) (hbc : F.notAfter b c = true) :
      F.notAfter a c = true := notAfter_trans hab hbc
  induction ns with
  | nil => rw [List.mergeSort_nil, List.head?_nil, earliest?]
  | cons n ns ih =>
      obtain ⟨front, back, hcons, hrest, hfront⟩ :=
        List.mergeSort_cons htrans (notAfter_total F) n ns
      rw [hrest] at ih
      rw [hcons, earliest?, ← ih]
      cases front with
      | cons m front =>
          have hafter := hfront m List.mem_cons_self
          have hbefore : F.compareNodes m n = .lt := by
            rw [Bool.not_eq_true', Bool.eq_false_iff, ne_eq, notAfter_iff,
              Classical.not_not] at hafter
            exact hafter
          simp [hbefore]
      | nil =>
          cases back with
          | nil => rfl
          | cons m back =>
              have hsorted := List.pairwise_mergeSort htrans (notAfter_total F) (n :: ns)
              rw [hcons] at hsorted
              have hle := (List.pairwise_cons.mp hsorted).1 m List.mem_cons_self
              have hbefore : ¬F.compareNodes m n = .lt := notAfter_iff.mp hle
              simp [hbefore]

/-- The first node in order is the earliest; of several at one place it is the first in the list. -/
theorem head?_inOrder (F : Forest) (ns : List Node) : (F.inOrder ns).head? = F.earliest? ns := by
  rw [← head?_mergeSort, inOrder]
  cases ns.mergeSort F.notAfter with
  | nil => rfl
  | cons n ns => exact head?_dropRepeatsFrom F n ns

end Forest

end XPath
