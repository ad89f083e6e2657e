import XPath.Proofs.Meaning.Type
import XPath.Proofs.Number.Position
import XPath.Selection

/-!
# Predicates

What it is for the answers of an engine to be sound, and what the scan of a list by a predicate then
yields. Items in order yield the nodes that the predicate keeps (`Engine.Sound.yields_filter`).
Items in any order hold them if the predicate does not look at positions
(`Engine.Sound.covers_filter`).
-/

namespace XPath

variable {F : Forest} {Φ : Calls F} {E : Engine} {Γ : Typing} {inner : Bool} {e : Expr}
  {D B : Meaning} {c σ : Context} {items : List Item} {ns ms : List Node} {n : Node}
  {predicate : Expr}

/-- The outcome has the static type of the expression, if that has one. -/
def Expr.Types (e : Expr) (w : Outcome) : Prop := e.dataType ≠ .any → w.dataType = e.dataType

/-- Whenever the engine answers, the meaning of the expression says the same. A lazy value need not
be of the type of the meaning; it fails when it is listed then. -/
structure Engine.Sound (F : Forest) (Φ : Calls F) (Γ : Typing) (E : Engine) : Prop where
  value : ∀ {inner e D c σ v}, e.Means F Φ Γ inner D → σ.Extends c → σ.Sound F Γ →
    E.value e c = .ok v → v.Means F (D σ) ∧ (e.isLazy = false → (D σ).dataType = v.dataType)
  truth : ∀ {inner e D c σ b}, e.Means F Φ Γ inner D → σ.Extends c → σ.Sound F Γ →
    E.truth e c = .ok b → b = (D σ).holds ∧ e.Types (D σ)
  number : ∀ {inner e D c σ x}, e.Means F Φ Γ inner D → σ.Extends c → σ.Sound F Γ →
    E.number e c = .ok x → x = (D σ).toNumber F ∧ e.Types (D σ)
  text : ∀ {inner e D c σ t}, e.Means F Φ Γ inner D → σ.Extends c → σ.Sound F Γ →
    E.text e c = .ok t → t = (D σ).text F
  first : ∀ {inner e D c σ n}, e.Means F Φ Γ inner D → σ.Extends c → σ.Sound F Γ →
    E.first e c = .ok n → ∃ ns, D σ = .nodes ns ∧ n = ns.head?
  enumerate : ∀ {inner e D c σ en}, e.Means F Φ Γ inner D → σ.Extends c → σ.Sound F Γ →
    E.enumerate e c = .ok en →
    ∃ ns, D σ = .nodes ns ∧ en.Lists F ns ∧ (e.isSingleton = true → en.sorted = true)

/-! ## The test of one item -/

theorem Outcome.selects_of_dataType {w : Outcome} (h : w.dataType ≠ .number) (k : Nat) :
    w.selects k = w.holds := by
  cases w with
  | number x => exact absurd rfl h
  | boolean | string | nodes | object => rfl

theorem Expr.predicateKind_eq_constant {x : Float} (h : predicate.predicateKind = .constant x) :
    predicate = .literal (.number x) := by
  unfold Expr.predicateKind at h
  split at h
  · cases h
    rfl
  · split at h <;> cases h

theorem Expr.dataType_of_positional (h : predicate.predicateKind = .positional) :
    predicate.dataType = .number := by
  unfold Expr.predicateKind at h
  split at h
  · cases h
  · split at h <;> first | assumption | cases h

theorem Expr.dataType_of_boolean (h : predicate.predicateKind = .boolean) :
    predicate.dataType ≠ .number ∧ predicate.dataType ≠ .any ∧ predicate.dataType ≠ .object := by
  unfold Expr.predicateKind at h
  split at h
  · cases h
  · split at h
    · cases h
    · cases h
    · cases h
    · rename_i hnumber hany hobject
      exact ⟨hnumber, hany, hobject⟩

theorem Expr.not_lazy_of_either (h : predicate.predicateKind = .either) :
    predicate.isLazy = false := by
  cases predicate <;> first | rfl | cases h

namespace Engine.Sound

variable (W : F.WellFormed) (hE : E.Sound F Φ Γ)

include W hE

/-- An item passes if the meaning of the predicate selects its position. -/
theorem passes {b : Bool} (hB : predicate.Means F Φ Γ inner B) (hc : σ.Extends c) (hσ : σ.Sound F Γ)
    (hb : E.passes F predicate c = .ok b) :
    b = (B σ).selects σ.position ∧ predicate.Types (B σ) := by
  unfold Engine.passes at hb
  rw [hc.position] at hb
  cases hkind : predicate.predicateKind with
  | constant x =>
      rw [hkind] at hb
      cases hb
      rw [Expr.predicateKind_eq_constant hkind] at hB ⊢
      rw [Expr.Means] at hB
      obtain ⟨w, hw, rfl⟩ := hB
      obtain rfl : w = .number x := hw.means
      exact ⟨Number.beq_comm _ _, fun _ => rfl⟩
  | positional =>
      rw [hkind] at hb
      obtain ⟨x, hx, hb⟩ := bind_eq_ok.mp hb
      obtain ⟨rfl, htype⟩ := hE.number hB hc hσ hx
      have hdata := Expr.dataType_of_positional hkind
      have hnumber : (B σ).dataType = .number := by rw [htype (by rw [hdata]; decide), hdata]
      cases hb
      refine ⟨?_, htype⟩
      cases hw : B σ with
      | number x => rfl
      | boolean | string | nodes | object =>
          rw [hw] at hnumber
          cases hnumber
  | boolean =>
      rw [hkind] at hb
      obtain ⟨rfl, htype⟩ := hE.truth hB hc hσ hb
      obtain ⟨hnumber, hany, -⟩ := Expr.dataType_of_boolean hkind
      rw [Outcome.selects_of_dataType (htype hany ▸ hnumber)]
      exact ⟨rfl, htype⟩
  | either =>
      rw [hkind] at hb
      obtain ⟨v, hv, hb⟩ := bind_eq_ok.mp hb
      have hmeans := (hE.value hB hc hσ hv).1
      refine ⟨?_, fun hany => hB.dataType_eq (Expr.not_lazy_of_either hkind) hany⟩
      split at hb
      · rename_i x
        cases hb
        rw [show B σ = .number x from hmeans]
        rfl
      · rename_i hnumber
        have htype := Value.Means.dataType_of_toBool W hmeans hb
        have hne : (B σ).dataType ≠ .number := by
          rw [htype]
          cases v with
          | number x => exact absurd rfl (hnumber x)
          | boolean | string | nodeSet | fragment | object => simp [Value.dataType]
        rw [Outcome.selects_of_dataType hne]
        exact Value.Means.toBool W hmeans hb

end Engine.Sound

/-! ## The scan of a list -/

theorem filterItems_constant {x : Float} {size : ListSize}
    (hk : predicate.predicateKind = .constant x) (p : Nat) (n : Node) (rest : List Item) :
    filterItems E F predicate c size p false (.ok n :: rest) =
      keepIf n (E.passes F predicate (c.forItem n (p + 1) .unknown)) ++
        if Float.ofNat (p + 1) ≥ x then []
        else filterItems E F predicate c size (p + 1) false rest := by
  rw [filterItems.eq_def]
  simp only [hk]

/-- At any other predicate the scan either fails or tests the node and goes on. If the length of
the list is known in the test, then it was known before or the rest of the list was read. -/
theorem filterItems_ok {size : ListSize} (hk : ∀ x, predicate.predicateKind ≠ .constant x)
    (p : Nat) (n : Node) (rest : List Item) :
    (∃ e others, filterItems E F predicate c size p false (.ok n :: rest) = .error e :: others) ∨
    ∃ l : LastPosition,
      (∀ total, l = .known total → size = .known total ∨
        ∃ nodes, collect rest = .ok nodes ∧ total = p + 1 + nodes.length) ∧
      filterItems E F predicate c size p false (.ok n :: rest) =
        keepIf n (E.passes F predicate (c.forItem n (p + 1) l)) ++
          filterItems E F predicate c size (p + 1) false rest := by
  rw [filterItems.eq_def]
  dsimp only
  split
  · exact absurd (by assumption) (hk _)
  · split
    · rename_i total
      refine Or.inr ⟨.known total, fun t ht => Or.inl ?_, rfl⟩
      cases ht
      rfl
    · exact Or.inr ⟨.unknown, by rintro t ⟨⟩, rfl⟩
    · split
      · rename_i nodes hnodes
        refine Or.inr ⟨_, fun t ht => Or.inr ⟨nodes, hnodes, ?_⟩, rfl⟩
        cases ht
        rfl
      · split
        · exact Or.inl ⟨_, _, rfl⟩
        · exact Or.inr ⟨.pending, by rintro t ⟨⟩, rfl⟩

theorem leading_append_errors (items : List Item) (errors : List Error) :
    leading (items ++ errors.map .error) = leading items := by
  induction items with
  | nil => cases errors <;> rfl
  | cons item items ih =>
      cases item with
      | error e => rfl
      | ok n => rw [List.cons_append, leading, leading, ih]

theorem leading_keepIf_append (n : Node) (test : Except Error Bool) (items : List Item) :
    (leading (keepIf n test ++ items)).Sublist (n :: leading items) := by
  match test with
  | .ok true => exact List.Sublist.refl _
  | .ok false => exact List.sublist_cons_self _ _
  | .error e => exact List.nil_sublist _

/-- The scan leaves out nodes, but does not move them. -/
theorem leading_filterItems {size : ListSize} (p : Nat) (items : List Item) :
    (leading (filterItems E F predicate c size p false items)).Sublist (leading items) := by
  induction items generalizing p with
  | nil => exact List.Sublist.refl _
  | cons item items ih =>
      cases item with
      | error e =>
          rw [filterItems]
          exact List.Sublist.refl _
      | ok n =>
          rw [leading]
          by_cases hk : ∃ x, predicate.predicateKind = .constant x
          · obtain ⟨x, hk⟩ := hk
            rw [filterItems_constant hk]
            refine (leading_keepIf_append n _ _).trans (List.Sublist.cons_cons n ?_)
            split
            · exact List.nil_sublist _
            · exact ih _
          · rcases filterItems_ok (not_exists.mp hk) p n items with ⟨e, others, h⟩ | ⟨l, -, h⟩
            · rw [h]
              exact List.nil_sublist _
            · rw [h]
              exact (leading_keepIf_append n _ _).trans (List.Sublist.cons_cons n (ih _))

/-! ## Lists in order -/

namespace Meaning

/-- The nodes behind position `p` of a list of this length that pass a predicate. -/
def keepFrom (B : Meaning) (σ : Context) (total p : Nat) (ns : List Node) : List Node :=
  ((ns.zipIdx (p + 1)).filter fun x => (B (σ.forItem x.1 x.2 (.known total))).selects x.2).map
    (·.1)

theorem keepFrom_cons (B : Meaning) (σ : Context) (total p : Nat) (n : Node) (ns : List Node) :
    B.keepFrom σ total p (n :: ns) =
      (if (B (σ.forItem n (p + 1) (.known total))).selects (p + 1) then [n] else []) ++
        B.keepFrom σ total (p + 1) ns := by
  unfold keepFrom
  rw [List.zipIdx_cons, List.filter_cons]
  split <;> rfl

theorem keepFrom_eq_nil {x : Float} {total p : Nat} (hp : 0 < p) (hx : Float.ofNat p ≥ x)
    (htotal : p + ns.length < 2 ^ 53) (hB : ∀ σ, B σ = .number x) :
    B.keepFrom σ total p ns = [] := by
  unfold keepFrom
  rw [List.map_eq_nil_iff, List.filter_eq_nil_iff]
  rintro ⟨n, k⟩ hk
  obtain ⟨hlow, hhigh, -⟩ := List.mem_zipIdx hk
  rw [hB, Outcome.selects, Number.beq_ofNat_eq_false hp (by omega) (by omega) hx]
  decide

end Meaning

theorem yields_keepIf {test : Except Error Bool} {passes : Bool}
    (h : ∀ b, test = .ok b → b = passes) : Yields (keepIf n test) (if passes then [n] else []) := by
  match test with
  | .ok b =>
      obtain rfl := h b rfl
      cases b
      · rfl
      · exact ⟨[], rfl, rfl⟩
  | .error e => trivial

namespace Engine.Sound

variable (W : F.WellFormed) (hE : E.Sound F Φ Γ)

include W hE

/-- The scan of a list in order yields the nodes whose positions the predicate selects. -/
theorem yields_filterItems {size : ListSize} {p total : Nat} (hB : predicate.Means F Φ Γ inner B)
    (hc : σ.Extends c) (hσ : σ.Sound F Γ) (hns : ∀ n ∈ ns, F.Has n)
    (hsize : ∀ k, size = .known k → k = total) (htotal : p + ns.length = total)
    (hbound : total < 2 ^ 53) (h : Yields items ns) :
    Yields (filterItems E F predicate c size p false items) (B.keepFrom σ total p ns) := by
  induction items generalizing ns p with
  | nil =>
      obtain rfl : ns = [] := h
      rfl
  | cons item items ih =>
      cases item with
      | error e =>
          rw [filterItems]
          trivial
      | ok n =>
          obtain ⟨ms, rfl, h⟩ := h
          rw [List.length_cons] at htotal
          have hrest := ih (fun m hm => hns m (List.mem_cons_of_mem n hm))
            (show p + 1 + ms.length = total by omega) h
          have htest (l : LastPosition) (hl : ∀ k, l = .known k → k = total) :
              Yields (keepIf n (E.passes F predicate (c.forItem n (p + 1) l)))
                (if (B (σ.forItem n (p + 1) (.known total))).selects (p + 1) then [n] else []) := by
            refine yields_keepIf fun b hb => ?_
            exact (hE.passes W hB (hc.forItem n (p + 1) fun k hk => by rw [hl k hk])
              (hσ.forItem (hns n (by simp)) _ _) hb).1
          rw [Meaning.keepFrom_cons]
          by_cases hk : ∃ x, predicate.predicateKind = .constant x
          · obtain ⟨x, hk⟩ := hk
            rw [filterItems_constant hk]
            refine (htest _ (by rintro k ⟨⟩)).append ?_
            split
            · have hconst (σ : Context) : B σ = .number x := by
                rw [Expr.predicateKind_eq_constant hk, Expr.Means] at hB
                obtain ⟨w, hw, rfl⟩ := hB
                exact hw.means
              rw [Meaning.keepFrom_eq_nil (by omega) (by assumption) (by omega) hconst]
              rfl
            · exact hrest
          · rcases filterItems_ok (not_exists.mp hk) p n items with ⟨e, others, hf⟩ | ⟨l, hl, hf⟩
            · rw [hf]
              trivial
            · rw [hf]
              refine (htest l fun k hk => ?_).append hrest
              rcases hl k hk with hk | ⟨nodes, hnodes, rfl⟩
              · exact hsize k hk
              · rw [h.eq_of_collect hnodes, htotal.symm]
                omega

end Engine.Sound

/-! ## Lists in any order -/

namespace Meaning

theorem mem_keep : n ∈ B.keep σ ns ↔
    ∃ k, (n, k) ∈ ns.zipIdx 1 ∧ (B (σ.forItem n k (.known ns.length))).selects k = true := by
  unfold keep
  simp only [List.mem_map, List.mem_filter, Prod.exists]
  constructor
  · rintro ⟨m, k, ⟨hmem, hselects⟩, rfl⟩
    exact ⟨k, hmem, hselects⟩
  · rintro ⟨k, hmem, hselects⟩
    exact ⟨n, k, ⟨hmem, hselects⟩, rfl⟩

end Meaning

/-- A predicate that does not look at positions means the same at each of them. -/
theorem Expr.Means.forItem_eq (W : F.WellFormed) (hB : predicate.Means F Φ Γ inner B)
    (hp : predicate.isPositional = false) (n : Node) (k : Nat) (l : LastPosition) :
    B (σ.forItem n k l) = B (σ.forItem n 1 (.known 1)) := by
  unfold Expr.isPositional Expr.isRelative at hp
  have heq := hB.rebind_eq W (m := .position ||| .last) (τ := σ.forItem n 1 (.known 1))
    (by simp_all)
  have hσ : (σ.forItem n k l).rebind (.position ||| .last) (σ.forItem n 1 (.known 1)) =
      σ.forItem n 1 (.known 1) := by
    simp [Context.rebind, Context.forItem]
  conv_lhs => rw [← heq]
  rw [Meaning.rebind, hσ]

theorem Expr.dataType_of_not_positional (hp : predicate.isPositional = false) :
    predicate.dataType ≠ .number ∧ predicate.dataType ≠ .any := by
  unfold Expr.isPositional Expr.isNumeric at hp
  simp only [Bool.or_eq_false_iff, beq_eq_false_iff_ne] at hp
  exact hp.1

theorem Expr.not_constant_of_not_positional (hp : predicate.isPositional = false) (x : Float) :
    predicate.predicateKind ≠ .constant x := by
  intro hk
  rw [Expr.predicateKind_eq_constant hk] at hp
  cases hp

namespace Engine.Sound

variable (W : F.WellFormed) (hE : E.Sound F Φ Γ)

include W hE

theorem passes_forItem {b : Bool} {k : Nat} {l : LastPosition} (hB : predicate.Means F Φ Γ inner B)
    (hp : predicate.isPositional = false) (hc : σ.Extends c) (hσ : σ.Sound F Γ) (hn : F.Has n)
    (hb : E.passes F predicate (c.forItem n k l) = .ok b) :
    b = (B (σ.forItem n 1 (.known 1))).holds ∧
      (B (σ.forItem n 1 (.known 1))).dataType ≠ .number := by
  obtain ⟨hnumber, hany⟩ := Expr.dataType_of_not_positional hp
  obtain ⟨rfl, htype⟩ := hE.passes W hB (hc.forItem n k fun _ hl => hl) (hσ.forItem hn k l) hb
  have hne := htype hany ▸ hnumber
  rw [Outcome.selects_of_dataType hne]
  rw [hB.forItem_eq W hp] at hne ⊢
  exact ⟨rfl, hne⟩

theorem mem_filterItems {size : ListSize} {p : Nat} (hB : predicate.Means F Φ Γ inner B)
    (hp : predicate.isPositional = false) (hc : σ.Extends c) (hσ : σ.Sound F Γ)
    (hitems : ∀ n ∈ leading items, F.Has n)
    (hn : n ∈ leading (filterItems E F predicate c size p false items)) :
    n ∈ leading items ∧ (B (σ.forItem n 1 (.known 1))).holds = true ∧
      (B (σ.forItem n 1 (.known 1))).dataType ≠ .number := by
  refine ⟨(leading_filterItems p items).subset hn, ?_⟩
  induction items generalizing p with
  | nil => simp [filterItems, leading] at hn
  | cons item items ih =>
      cases item with
      | error e => simp [filterItems, leading] at hn
      | ok m =>
          have hm : F.Has m := hitems m (by simp [leading])
          rcases filterItems_ok (Expr.not_constant_of_not_positional hp) p m items with
            ⟨e, others, hf⟩ | ⟨l, -, hf⟩
          · rw [hf] at hn
            simp [leading] at hn
          · rw [hf] at hn
            have hrest := ih (p := p + 1) fun k hk => hitems k (by simp [leading, hk])
            cases htest : E.passes F predicate (c.forItem m (p + 1) l) with
            | error e =>
                rw [htest] at hn
                simp [keepIf, leading] at hn
            | ok passed =>
                rw [htest] at hn
                cases passed with
                | false => exact hrest hn
                | true =>
                    rcases List.mem_cons.mp hn with rfl | hn
                    · obtain ⟨hholds, hne⟩ := hE.passes_forItem W hB hp hc hσ hm htest
                      exact ⟨hholds.symm, hne⟩
                    · exact hrest hn

/-- If the scan comes to the end, then all nodes that pass are among what it yields. -/
theorem filterItems_complete {size : ListSize} {p : Nat} (hB : predicate.Means F Φ Γ inner B)
    (hp : predicate.isPositional = false) (hc : σ.Extends c) (hσ : σ.Sound F Γ)
    (hitems : ∀ n ∈ leading items, F.Has n)
    (hms : collect (filterItems E F predicate c size p false items) = .ok ms) :
    ∃ all, collect items = .ok all ∧ ∀ n ∈ all,
      (B (σ.forItem n 1 (.known 1))).dataType ≠ .number ∧
        ((B (σ.forItem n 1 (.known 1))).holds = true → n ∈ ms) := by
  induction items generalizing p ms with
  | nil => exact ⟨[], rfl, by simp⟩
  | cons item items ih =>
      cases item with
      | error e => simp [filterItems, collect] at hms
      | ok m =>
          have hm : F.Has m := hitems m (by simp [leading])
          rcases filterItems_ok (Expr.not_constant_of_not_positional hp) p m items with
            ⟨e, others, hf⟩ | ⟨l, -, hf⟩
          · rw [hf] at hms
            cases hms
          · rw [hf] at hms
            have hhas : ∀ k ∈ leading items, F.Has k := fun k hk => hitems k (by simp [leading, hk])
            cases htest : E.passes F predicate (c.forItem m (p + 1) l) with
            | error e =>
                rw [htest] at hms
                cases hms
            | ok passed =>
                obtain ⟨hholds, hne⟩ := hE.passes_forItem W hB hp hc hσ hm htest
                rw [htest] at hms
                cases passed with
                | true =>
                    obtain ⟨others, hothers, rfl⟩ := map_eq_ok.mp hms
                    obtain ⟨all, hall, hkept⟩ := ih hhas hothers
                    refine ⟨m :: all, map_eq_ok.mpr ⟨all, hall, rfl⟩, fun n hn => ?_⟩
                    rcases List.mem_cons.mp hn with rfl | hn
                    · exact ⟨hne, fun _ => List.mem_cons_self⟩
                    · exact ⟨(hkept n hn).1, fun h => List.mem_cons_of_mem m ((hkept n hn).2 h)⟩
                | false =>
                    obtain ⟨all, hall, hkept⟩ := ih hhas hms
                    refine ⟨m :: all, map_eq_ok.mpr ⟨all, hall, rfl⟩, fun n hn => ?_⟩
                    rcases List.mem_cons.mp hn with rfl | hn
                    · exact ⟨hne, fun h => by rw [← hholds] at h; cases h⟩
                    · exact hkept n hn

end Engine.Sound

end XPath
