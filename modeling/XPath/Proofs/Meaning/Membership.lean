import XPath.Proofs.Meaning.Outcome

/-!
# Members of node-sets

A set is asked for a node by the place of the node. A sorted list is searched by halving it, which
finds the place if it is one of the list's (`Extent.bisect_iff`). The answer is that of the outcome
that the set means (`NodeSet.Means.contains`).
-/

namespace XPath

variable {F : Forest} {m n : Node} {ns : List Node} {w : Outcome} {s : NodeSet}

namespace Extent

variable {nodes : Array Node} {steps base size : Nat}

theorem bisect_last (hsize : size ≤ 1) (hrange : ∀ i m, nodes[i]? = some m →
      F.orderKey m = F.orderKey n → base ≤ i ∧ i < base + size) :
    (nodes[base]?.any fun m => F.orderKey m == F.orderKey n) = true ↔
      ∃ m ∈ nodes, F.orderKey m = F.orderKey n := by
  constructor
  · intro h
    cases hm : nodes[base]? with
    | none => simp [hm] at h
    | some m =>
        rw [hm] at h
        exact ⟨m, Array.mem_of_getElem? hm, eq_of_beq h⟩
  · rintro ⟨m, hm, hkey⟩
    obtain ⟨i, hi⟩ := Array.mem_iff_getElem?.mp hm
    have hbetween := hrange i m hi hkey
    obtain rfl : i = base := by omega
    simp [hi, hkey]

/-- The places with the key of `n` lie between `base` and `base + size`, so halving finds one if
there is one. -/
theorem bisect_iff (hasc : F.Ascending nodes.toList) (hsteps : size ≤ steps)
    (hsize : base + size ≤ nodes.size) (hrange : ∀ i m, nodes[i]? = some m →
      F.orderKey m = F.orderKey n → base ≤ i ∧ i < base + size) :
    bisect F nodes (F.orderKey n) steps base size = true ↔
      ∃ m ∈ nodes, F.orderKey m = F.orderKey n := by
  induction steps generalizing base size with
  | zero => exact bisect_last (by omega) hrange
  | succ steps ih =>
      rw [bisect]
      split
      · exact bisect_last ‹_› hrange
      · dsimp only
        have hsmaller : size - size / 2 ≤ steps := by omega
        refine ih hsmaller (by split <;> omega) fun i k hi hkey => ?_
        have hbetween := hrange i k hi hkey
        have hbehind {l : Node} :
            (F.orderKey n).before (F.orderKey l) = true ↔ F.Before k l := by
          rw [OrderKey.before, beq_iff_eq, ← hkey]
          rfl
        -- the key lies before the middle exactly if the node there comes behind it
        have hbefore {i j : Nat} {k l : Node} (hi : nodes[i]? = some k) (hj : nodes[j]? = some l)
            (hij : i < j) : F.Before k l := by
          obtain ⟨hi', rfl⟩ := Array.getElem?_eq_some_iff.mp hi
          obtain ⟨hj', rfl⟩ := Array.getElem?_eq_some_iff.mp hj
          exact List.pairwise_iff_getElem.mp hasc i j (by simpa using hi') (by simpa using hj') hij
        obtain ⟨l, hl⟩ : ∃ l, nodes[base + size / 2]? = some l :=
          ⟨_, Array.getElem?_eq_getElem (by omega)⟩
        rw [hl, Option.any_some]
        split
        · rename_i hlater
          have hkl := hbehind.mp hlater
          have hlt : ¬base + size / 2 ≤ i := by
            intro hle
            rcases Nat.lt_or_eq_of_le hle with hlt | rfl
            · exact (hbefore hl hi hlt).asymm hkl
            · cases hl.symm.trans hi
              exact Forest.Before.irrefl F _ hkl
          omega
        · rename_i hlater
          have hle : base + size / 2 ≤ i := by
            by_contra hlt
            exact hlater (hbehind.mpr (hbefore hi hl (by omega)))
          omega

/-- A list is asked for a place, and no two nodes of a forest share one. -/
theorem contains_iff (W : F.WellFormed) (hn : F.Has n) {e : Extent}
    (h : e.enumerate.Lists F ns) : e.contains F n = true ↔ n ∈ ns := by
  have hmem := h.mem_iff Enumeration.Lists.nodes_of_enumerate
  have hplace : (∃ m ∈ ns, F.orderKey m = F.orderKey n) ↔ n ∈ ns := by
    constructor
    · rintro ⟨m, hm, hkey⟩
      rwa [← W.eq_of_orderKey_eq (h.has m hm) hn hkey]
    · exact fun hn => ⟨n, hn, rfl⟩
  rw [← hplace]
  unfold contains
  split
  · rw [h.nodes_eq (by assumption) Enumeration.Lists.nodes_of_enumerate]
    rw [bisect_iff (by simpa using h.ascending) (Nat.le_refl _) (by simp) fun i m hi _ => ?_]
    · simp
    · have hlt := (Array.getElem?_eq_some_iff.mp hi).1
      simpa using hlt
  · simp [hmem]

end Extent

namespace NodeSet.Means

theorem contains {b : Bool} (W : F.WellFormed) (hn : F.Has n) (h : s.Means F w)
    (hs : s.contains F n = .ok b) : ∃ ns, w = .nodes ns ∧ (b = true ↔ n ∈ ns) := by
  cases s with
  | empty =>
      cases hs
      exact ⟨[], h.eq_of_empty, by simp⟩
  | singleton m =>
      cases hs
      exact ⟨[m], h.eq_of_singleton, by rw [beq_iff_eq, List.mem_singleton, eq_comm]⟩
  | extent e =>
      obtain ⟨ns, rfl, hns⟩ := h _ rfl
      cases hs
      exact ⟨ns, rfl, Extent.contains_iff W hn hns⟩
  | intent i =>
      obtain ⟨x, hx, rfl⟩ := map_eq_ok.mp hs
      obtain ⟨ns, hw, -, -, hns⟩ := h.fix W hx
      exact ⟨ns, hw, Extent.contains_iff W hn hns⟩

end NodeSet.Means

end XPath
