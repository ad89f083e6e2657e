import XPath.Proofs.Pattern.Selection

/-!
# Patterns and expressions agree

A pattern accepts a node exactly if the expression of the same text selects it from the node or
from some ancestor of it (`Pattern.accepts_iff_selected`).
-/

namespace XPath.Pattern

/-- What a text spells as a pattern it spells as an expression, and the two accept and select the
same nodes wherever all evaluations come to an end. -/
theorem accepts_iff_selected {h : Host} {Γ : Typing} {s : StaticScope} {source : String}
    {p q : Pattern} (W : h.forest.WellFormed) (R : h.forest.Rooted)
    (hread : read s source = .ok q) (hid : q.usesId = false)
    (hparse : parse s h.forest source = .ok p) :
    ∃ r e, Expr.read s source = .ok r ∧ Expr.parse s h.forest source = .ok e ∧
      (r.Every (Expr.Plain h.forest Γ) → r.Every (Expr.FalseOnEmpty h.forest Γ) →
        ∀ c n b, c.Sound h.forest Γ → h.forest.Has n → p.accepts h c n = .ok b →
          (∀ a ∈ n :: h.forest.ancestors n, ∃ ns, e.select h (c.withNode a) = .ok ns) →
            (b = true ↔ ∃ a ∈ n :: h.forest.ancestors n, ∃ ns,
              e.select h (c.withNode a) = .ok ns ∧ n ∈ ns)) := by
  obtain ⟨r, hr, hspells⟩ := spells_of_read hread hid
  obtain ⟨q', hq', hp⟩ := bind_eq_ok.mp hparse
  cases hread.symm.trans hq'
  obtain ⟨e, he⟩ := simplify_of_spells hspells hp
  have hparse' : Expr.parse s h.forest source = .ok e := by
    rw [Expr.parse, hr, ok_bind, he]
    rfl
  refine ⟨r, e, hr, hparse', fun hplain hempty c n b hc hn hb hselect => ?_⟩
  have hmeans := (Expr.Compiled.read (F := h.forest) hr).means W hplain hempty
  have hdecides := decides W R hspells hc hmeans hp
  have hhas {a : Node} (ha : a ∈ n :: h.forest.ancestors n) : h.forest.Has a :=
    Forest.has_of_mem_upward W hn ha
  have hlists {a : Node} {ns : List Node} (ha : h.forest.Has a)
      (hns : e.select h (c.withNode a) = .ok ns) :
      r.reading h.forest (c.withNode a) = .nodes ns :=
    (hmeans.simplify W he).select W (hc.withNode ha) hns
  constructor
  · rintro rfl
    obtain ⟨a, ha, ms, hms, hmem⟩ := hdecides.sound n hn hb
    obtain ⟨ns, hns⟩ := hselect a ha
    cases hms.symm.trans (hlists (hhas ha) hns)
    exact ⟨a, ha, _, hns, hmem⟩
  · rintro ⟨a, ha, ns, hns, hmem⟩
    have hroot := Forest.documentRoot_of_mem_upward W ha
    exact hdecides.complete a n b (hhas ha) hroot ⟨ns, hlists (hhas ha) hns, hmem⟩ hb

/-! ## Elements inside another -/

theorem rooted_of_nodes {F : Forest}
    (h : ∀ n ∈ F.allNodes, F.parent? n = none ↔ F.type n = .root) : F.Rooted := by
  intro n
  by_cases hn : F.Has n
  · exact h n hn.mem_allNodes
  · simp [Forest.parent?, Forest.type, Forest.record_of_not_has hn, NodeRecord.leaf]

theorem rooted_nested : Forest.nested.Rooted := rooted_of_nodes (by decide +kernel)

def elementNamed (name : String) : NodeTest := ⟨.element, .named (.unprefixed name)⟩

/-- `r/x[$b]` -/
def flaggedChild : Expr :=
  .path (.path .contextNode .child (elementNamed "r") []) .child (elementNamed "x") [Expr.flag]

/-- `r/x[$b]` as a pattern. -/
def flaggedChildPattern : Pattern :=
  location (elementNamed "x") (some (step (elementNamed "r") [])) none [Expr.flag] .each

theorem ancestors_nested : Forest.nested.ancestors ⟨0, 2⟩ = [⟨0, 1⟩, ⟨0, 0⟩] := by decide +kernel

theorem accepts_iff_selected_nested :
    ∃ a ∈ [(⟨0, 2⟩ : Node), ⟨0, 1⟩, ⟨0, 0⟩], ∃ ns,
      flaggedChild.select Expr.nestedHost (Expr.flagContext.withNode a) = .ok ns ∧
        ⟨0, 2⟩ ∈ ns := by
  have hread : read Expr.flagScope "r/x[$b]" = .ok flaggedChildPattern := by cbv
  have hsimplify : flaggedChildPattern.simplify .nested =
      .ok (location (elementNamed "x") (some (named (elementNamed "r"))) none [Expr.flag]
        (.among (.path .parentNode .child (elementNamed "x") [Expr.flag]))) := by rfl
  have hspelled : Expr.read Expr.flagScope "r/x[$b]" = .ok flaggedChild := by cbv
  have hcompiled : Expr.parse Expr.flagScope .nested "r/x[$b]" = .ok flaggedChild := by cbv
  obtain ⟨r, e, hr, he, hagree⟩ := @accepts_iff_selected Expr.nestedHost (fun _ => some .any) _ _ _ _
    Forest.wellFormed_nested rooted_nested hread rfl (bind_eq_ok.mpr ⟨_, hread, hsimplify⟩)
  cases hspelled.symm.trans hr
  cases hcompiled.symm.trans he
  have hplain : flaggedChild.Every (Expr.Plain .nested fun _ => some .any) := by
    simp [Expr.Every, Expr.EveryOfList, Expr.Plain, flaggedChild, Expr.flag]
  have hempty : flaggedChild.Every (Expr.FalseOnEmpty .nested fun _ => some .any) := by
    simp [Expr.Every, Expr.EveryOfList, Expr.FalseOnEmpty, flaggedChild, Expr.flag]
  have hagree := hagree hplain hempty Expr.flagContext ⟨0, 2⟩ true Expr.sound_flagContext
    (by decide) (toOption_eq_some.mp (by decide +kernel))
  have hancestors : Expr.nestedHost.forest.ancestors ⟨0, 2⟩ = [⟨0, 1⟩, ⟨0, 0⟩] := ancestors_nested
  rw [hancestors] at hagree
  refine (hagree fun a ha => ?_).mp rfl
  simp only [List.mem_cons, List.not_mem_nil, or_false] at ha
  rcases ha with rfl | rfl | rfl
  · exact ⟨[], toOption_eq_some.mp (by decide +kernel)⟩
  · exact ⟨[], toOption_eq_some.mp (by decide +kernel)⟩
  · exact ⟨[⟨0, 2⟩], toOption_eq_some.mp (by decide +kernel)⟩

/-- Reduction drops the predicate of the filter in `x[//none <= (//a = //b)[$b]]`, so the expression
selects an element that the pattern does not accept. -/
theorem not_accepts_iff_selected : ¬∀ (h : Host) (Γ : Typing) (s : StaticScope) (source : String)
    (p q : Pattern), h.forest.WellFormed → h.forest.Rooted → read s source = .ok q →
      q.usesId = false → parse s h.forest source = .ok p →
        ∃ r e, Expr.read s source = .ok r ∧ Expr.parse s h.forest source = .ok e ∧
          (r.Every (Expr.Plain h.forest Γ) →
            ∀ c n b, c.Sound h.forest Γ → h.forest.Has n → p.accepts h c n = .ok b →
              (∀ a ∈ n :: h.forest.ancestors n, ∃ ns, e.select h (c.withNode a) = .ok ns) →
                (b = true ↔ ∃ a ∈ n :: h.forest.ancestors n, ∃ ns,
                  e.select h (c.withNode a) = .ok ns ∧ n ∈ ns)) := by
  intro hagree
  have hread : read Expr.flagScope "x[//none <= (//a = //b)[$b]]" =
      .ok (step (elementNamed "x") [Expr.stopped .lessThanOrEqual]) := by cbv
  have hsimplify : (step (elementNamed "x") [Expr.stopped .lessThanOrEqual]).simplify .nested =
      .ok (step (elementNamed "x") [Expr.stopped .lessThanOrEqual]) := by rfl
  have hspelled : Expr.read Expr.flagScope "x[//none <= (//a = //b)[$b]]" =
      .ok (.path .contextNode .child (elementNamed "x") [Expr.stopped .lessThanOrEqual]) := by cbv
  have hcompiled : Expr.parse Expr.flagScope .nested "x[//none <= (//a = //b)[$b]]" =
      .ok (.path .contextNode .child (elementNamed "x") [Expr.stopped .lessThanOrEqual]) := by cbv
  have hplain : (Expr.path .contextNode .child (elementNamed "x")
      [Expr.stopped .lessThanOrEqual]).Every (Expr.Plain .nested fun _ => some .any) := by
    simp [Expr.Every, Expr.EveryOfList, Expr.Plain, Expr.plain_stopped]
  have hselect : (Expr.path .contextNode .child (elementNamed "x")
      [Expr.stopped .lessThanOrEqual]).select Expr.nestedHost (Expr.flagContext.withNode ⟨0, 1⟩) =
        .ok [⟨0, 2⟩] := toOption_eq_some.mp (by decide +kernel)
  obtain ⟨r, e, hr, he, hagree⟩ := hagree Expr.nestedHost (fun _ => some .any) _ _ _ _
    Forest.wellFormed_nested rooted_nested hread rfl (bind_eq_ok.mpr ⟨_, hread, hsimplify⟩)
  cases hspelled.symm.trans hr
  cases hcompiled.symm.trans he
  have hagree := hagree hplain Expr.flagContext ⟨0, 2⟩ false Expr.sound_flagContext
    (by decide) (toOption_eq_some.mp (by decide +kernel))
  have hancestors : Expr.nestedHost.forest.ancestors ⟨0, 2⟩ = [⟨0, 1⟩, ⟨0, 0⟩] := ancestors_nested
  rw [hancestors] at hagree
  have hfalse := (hagree fun a ha => ?_).mpr ⟨⟨0, 1⟩, by simp, [⟨0, 2⟩], hselect, by simp⟩
  · cases hfalse
  · simp only [List.mem_cons, List.not_mem_nil, or_false] at ha
    rcases ha with rfl | rfl | rfl
    · exact ⟨[], toOption_eq_some.mp (by decide +kernel)⟩
    · exact ⟨_, hselect⟩
    · exact ⟨[], toOption_eq_some.mp (by decide +kernel)⟩

end XPath.Pattern
