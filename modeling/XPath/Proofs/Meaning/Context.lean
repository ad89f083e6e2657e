import XPath.Proofs.Meaning.Value
import XPath.Expr

/-!
# Contexts

When a context is sound, when one context knows all that another one knows, and the context in
which the facets of a mask are those of another context (`Context.rebind`). Within a list of nodes
a mask reaches only the outer facets: to take an item of a list and to rebind the outer facets is
the same in either order (`Context.rebind_forItem`).
-/

namespace XPath

variable {F : Forest} {m d : Dependencies} {c σ τ : Context} {n : Node} {k : Nat}
  {l : LastPosition}

/-! ## Facets -/

namespace Dependencies

def bit (d : Dependencies) (i : Nat) : Bool := d.bits.toBitVec.getLsbD i

@[simp] theorem bit_or (a b : Dependencies) (i : Nat) : (a ||| b).bit i = (a.bit i || b.bit i) := by
  change (a.bits ||| b.bits).toBitVec.getLsbD i = _
  simp [bit]

@[simp] theorem bit_and (a b : Dependencies) (i : Nat) :
    (a &&& b).bit i = (a.bit i && b.bit i) := by
  change (a.bits &&& b.bits).toBitVec.getLsbD i = _
  simp [bit]

@[simp] theorem bit_empty (i : Nat) : empty.bit i = false := by
  simp [bit, empty]

@[simp] theorem bit_ite (p : Prop) [Decidable p] (a b : Dependencies) (i : Nat) :
    (if p then a else b).bit i = if p then a.bit i else b.bit i :=
  apply_ite (·.bit i) p a b

theorem eq_iff_bit {a b : Dependencies} : a = b ↔ ∀ i, a.bit i = b.bit i := by
  constructor
  · rintro rfl i
    rfl
  · intro h
    obtain ⟨a⟩ := a
    obtain ⟨b⟩ := b
    have hbits : a.toBitVec = b.toBitVec := BitVec.eq_of_getLsbD_eq fun i _ => h i
    rw [UInt8.toBitVec_inj.mp hbits]

theorem contains_iff {a b : Dependencies} : a.contains b ↔ ∀ i, b.bit i = true → a.bit i = true := by
  have heq : a.contains b = true ↔ a &&& b = b := by
    change (a.bits &&& b.bits == b.bits) = true ↔ (⟨a.bits &&& b.bits⟩ : Dependencies) = b
    rw [beq_iff_eq, Dependencies.mk.injEq]
  rw [heq, eq_iff_bit]
  exact forall_congr' fun i => by simp

theorem intersects_iff {a b : Dependencies} :
    a.intersects b ↔ ∃ i, a.bit i = true ∧ b.bit i = true := by
  have heq : a.intersects b = false ↔ a &&& b = .empty := by
    change (a.bits &&& b.bits != 0) = false ↔ (⟨a.bits &&& b.bits⟩ : Dependencies) = .empty
    rw [bne_eq_false_iff_eq, empty, Dependencies.mk.injEq]
  have hfalse : a.intersects b = false ↔ ∀ i, ¬(a.bit i = true ∧ b.bit i = true) := by
    rw [heq, eq_iff_bit]
    exact forall_congr' fun i => by simp
  rw [← not_iff_not, Bool.not_eq_true, hfalse, not_exists]

theorem isEmpty_iff {a : Dependencies} : a.isEmpty ↔ ∀ i, a.bit i = false := by
  have heq : a.isEmpty = true ↔ a = .empty := by
    change (a.bits == 0) = true ↔ _
    rw [beq_iff_eq]
    exact ⟨fun h => congrArg Dependencies.mk h, fun h => congrArg Dependencies.bits h⟩
  rw [heq, eq_iff_bit]
  simp

theorem bit_eq_decide (p : Nat → Prop) [DecidablePred p] (h : ∀ i < 8, d.bit i = decide (p i))
    (hp : ∀ i, p i → i < 8) (i : Nat) : d.bit i = decide (p i) := by
  by_cases hi : i < 8
  · exact h i hi
  · rw [decide_eq_false (mt (hp i) hi), bit, BitVec.getLsbD_of_ge _ _ (by omega)]

@[simp] theorem bit_variableValues (i : Nat) : variableValues.bit i = decide (i = 0) :=
  bit_eq_decide (· = 0) (by decide) (fun i hi => by omega) i

@[simp] theorem bit_currentNode (i : Nat) : currentNode.bit i = decide (i = 2) :=
  bit_eq_decide (· = 2) (by decide) (fun i hi => by omega) i

@[simp] theorem bit_contextNode (i : Nat) : contextNode.bit i = decide (i = 3) :=
  bit_eq_decide (· = 3) (by decide) (fun i hi => by omega) i

@[simp] theorem bit_position (i : Nat) : position.bit i = decide (i = 4) :=
  bit_eq_decide (· = 4) (by decide) (fun i hi => by omega) i

@[simp] theorem bit_last (i : Nat) : last.bit i = decide (i = 5) :=
  bit_eq_decide (· = 5) (by decide) (fun i hi => by omega) i

@[simp] theorem bit_controller (i : Nat) : controller.bit i = decide (i = 6) :=
  bit_eq_decide (· = 6) (by decide) (fun i hi => by omega) i

@[simp] theorem bit_outer (i : Nat) : outer.bit i = decide (i = 0 ∨ i = 2 ∨ i = 6) :=
  bit_eq_decide (fun i => i = 0 ∨ i = 2 ∨ i = 6) (by decide) (fun i hi => by omega) i

@[simp] theorem bit_all (i : Nat) : all.bit i = decide (i < 8) :=
  bit_eq_decide (· < 8) (by decide) (fun i hi => by omega) i

theorem contains_facet {b : Dependencies} {i : Nat} (hb : ∀ j, b.bit j = decide (j = i)) :
    m.contains b = m.bit i := by
  rw [Bool.eq_iff_iff, contains_iff]
  simp [hb]

@[simp] theorem contains_variableValues : m.contains .variableValues = m.bit 0 :=
  contains_facet bit_variableValues

@[simp] theorem contains_currentNode : m.contains .currentNode = m.bit 2 :=
  contains_facet bit_currentNode

@[simp] theorem contains_contextNode : m.contains .contextNode = m.bit 3 :=
  contains_facet bit_contextNode

@[simp] theorem contains_position : m.contains .position = m.bit 4 :=
  contains_facet bit_position

@[simp] theorem contains_last : m.contains .last = m.bit 5 :=
  contains_facet bit_last

@[simp] theorem contains_controller : m.contains .controller = m.bit 6 :=
  contains_facet bit_controller

theorem not_intersects {a b : Dependencies} (h : a.intersects b = false) {i : Nat}
    (ha : a.bit i = true) : b.bit i = false := by
  by_contra hb
  rw [Bool.not_eq_false] at hb
  rw [intersects_iff.mpr ⟨i, ha, hb⟩] at h
  cases h

end Dependencies

/-! ## Sound contexts -/

/-- The nodes that a controller finds are nodes of the forest. -/
structure Controller.Sound (F : Forest) (k : Controller) : Prop where
  keyed : ∀ name value document ns, k.selectByKey name value document = .ok ns →
    ∀ n ∈ ns, F.Has n
  loaded : ∀ href base n, k.loadDocument href base = .ok n → F.Has n

/-- What is known of variables: which of them have a sound value, and of which type. -/
abbrev Typing := ExpandedName → Option DataType

namespace Context

theorem contextNode_eq_ok : c.contextNode = .ok n ↔ c.contextNode? = some n := by
  unfold contextNode
  cases c.contextNode? <;> simp

theorem currentNode_eq_ok : c.currentNode = .ok n ↔ c.currentNode? = some n := by
  unfold currentNode
  cases c.currentNode? <;> simp

theorem controller_eq_ok {k : Controller} : c.controller = .ok k ↔ c.controller? = some k := by
  unfold controller
  cases c.controller? <;> simp

structure Sound (F : Forest) (Γ : Typing) (c : Context) : Prop where
  contextNode : ∀ n, c.contextNode? = some n → F.Has n
  currentNode : ∀ n, c.currentNode? = some n → F.Has n
  bindings : ∀ name t v, Γ name = some t → c.valueOf name = .ok v →
    v.Sound F ∧ (t = .any ∨ v.dataType = t)
  controller : ∀ k, c.controller? = some k → k.Sound F

variable {Γ Γ' : Typing}

theorem Sound.ofNode {n : Node} (hn : F.Has n) (Γ : Typing) : (ofNode n).Sound F Γ where
  contextNode _ h := Option.some.inj h ▸ hn
  currentNode _ h := Option.some.inj h ▸ hn
  bindings _ _ _ _ h := by cases h
  controller _ h := by cases h

theorem Sound.standalone (F : Forest) (Γ : Typing) : standalone.Sound F Γ where
  contextNode _ h := by cases h
  currentNode _ h := by cases h
  bindings _ _ _ _ h := by cases h
  controller _ h := by cases h

theorem Sound.forItem (h : c.Sound F Γ) (hn : F.Has n) (k : Nat) (l : LastPosition) :
    (c.forItem n k l).Sound F Γ where
  contextNode m hm := by
    cases hm
    exact hn
  currentNode := h.currentNode
  bindings := h.bindings
  controller := h.controller

def withNode (c : Context) (n : Node) : Context := { c with contextNode? := some n }

theorem Sound.withNode (h : c.Sound F Γ) (hn : F.Has n) : (c.withNode n).Sound F Γ where
  contextNode m hm := by
    cases hm
    exact hn
  currentNode := h.currentNode
  bindings := h.bindings
  controller := h.controller

/-- The context `σ` knows all that `c` knows: they differ at most in the length of the list, which
`c` need not know. -/
structure Extends (σ c : Context) : Prop where
  contextNode : c.contextNode? = σ.contextNode?
  currentNode : c.currentNode? = σ.currentNode?
  position : c.position = σ.position
  last : ∀ k, c.lastPosition = .known k → σ.lastPosition = .known k
  bindings : c.bindings = σ.bindings
  controller : c.controller? = σ.controller?

theorem Extends.refl (c : Context) : c.Extends c := ⟨rfl, rfl, rfl, fun _ h => h, rfl, rfl⟩

/-- The item of a list, in a context that need not know the length of the list. -/
theorem Extends.forItem (h : σ.Extends c) (n : Node) (k : Nat) {l l' : LastPosition}
    (hl : ∀ total, l = .known total → l' = .known total) :
    (σ.forItem n k l').Extends (c.forItem n k l) :=
  ⟨rfl, h.currentNode, rfl, hl, h.bindings, h.controller⟩

theorem Extends.sound (h : σ.Extends c) (hσ : σ.Sound F Γ) : c.Sound F Γ where
  contextNode n hn := hσ.contextNode n (h.contextNode ▸ hn)
  currentNode n hn := hσ.currentNode n (h.currentNode ▸ hn)
  bindings name t v ht hv := by
    refine hσ.bindings name t v ht ?_
    rwa [valueOf, ← h.bindings]
  controller k hk := hσ.controller k (h.controller ▸ hk)

theorem Extends.refines_last (h : σ.Extends c) : Refines c.last σ.last := by
  intro k hk
  unfold Context.last at hk ⊢
  split at hk
  · rename_i n hn
    rw [h.last n hn]
    exact hk
  · cases hk
  · cases hk

/-! ## Rebinding facets -/

def rebind (c : Context) (m : Dependencies) (τ : Context) : Context where
  contextNode? := if m.bit 3 then τ.contextNode? else c.contextNode?
  currentNode? := if m.bit 2 then τ.currentNode? else c.currentNode?
  position := if m.bit 4 then τ.position else c.position
  lastPosition := if m.bit 5 then τ.lastPosition else c.lastPosition
  bindings := if m.bit 0 then τ.bindings else c.bindings
  controller? := if m.bit 6 then τ.controller? else c.controller?

@[simp] theorem rebind_all (c τ : Context) : c.rebind .all τ = τ := by
  simp [rebind]

/-- Facets rebound one mask after the other, the second one first. -/
theorem rebind_rebind (c ρ τ : Context) (m d : Dependencies) :
    (c.rebind d ρ).rebind m τ = (c.rebind m τ).rebind d (ρ.rebind m τ) := by
  unfold rebind
  congr 1 <;> split <;> split <;> rfl

theorem Sound.rebind (hc : c.Sound F Γ') (hτ : τ.Sound F Γ) (hΓ : m.bit 0 = false → Γ' = Γ) :
    (c.rebind m τ).Sound F Γ where
  contextNode n hn := by
    simp only [Context.rebind] at hn
    split at hn
    · exact hτ.contextNode n hn
    · exact hc.contextNode n hn
  currentNode n hn := by
    simp only [Context.rebind] at hn
    split at hn
    · exact hτ.currentNode n hn
    · exact hc.currentNode n hn
  bindings name t v ht hv := by
    unfold Context.rebind valueOf at hv
    cases hm : m.bit 0 with
    | true =>
        rw [hm] at hv
        exact hτ.bindings name t v ht hv
    | false =>
        rw [hm] at hv
        exact hc.bindings name t v (by rw [hΓ hm, ht]) hv
  controller k hk := by
    simp only [Context.rebind] at hk
    split at hk
    · exact hτ.controller k hk
    · exact hc.controller k hk

/-- Within a list of nodes only the outer facets are rebound. -/
theorem rebind_forItem (c τ : Context) (m : Dependencies) (n : Node) (k : Nat)
    (l : LastPosition) :
    (c.forItem n k l).rebind (m &&& .outer) τ = (c.rebind m τ).forItem n k l := by
  simp [rebind, forItem]

/-- Facets that no mask of the expression names do not count. -/
theorem rebind_facet (h : d.intersects m = false) :
    (d.bit 0 = true → (c.rebind m τ).bindings = c.bindings) ∧
    (d.bit 2 = true → (c.rebind m τ).currentNode? = c.currentNode?) ∧
    (d.bit 3 = true → (c.rebind m τ).contextNode? = c.contextNode?) ∧
    (d.bit 4 = true → (c.rebind m τ).position = c.position) ∧
    (d.bit 5 = true → (c.rebind m τ).lastPosition = c.lastPosition) ∧
    (d.bit 6 = true → (c.rebind m τ).controller? = c.controller?) := by
  refine ⟨fun hd => ?_, fun hd => ?_, fun hd => ?_, fun hd => ?_, fun hd => ?_, fun hd => ?_⟩ <;>
    simp [rebind, Dependencies.not_intersects h hd]

end Context

end XPath
