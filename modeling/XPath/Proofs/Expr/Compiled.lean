import XPath.Proofs.Expr.Parser
import XPath.Proofs.Meaning.Reading

/-!
# Compiled expressions

The expressions that a program works with: what was parsed, and the set operations and sorts that
are built from it (`Expr.Compiled`). They are regular, so their reading is a meaning of them
(`Expr.Compiled.means`).
-/

namespace XPath

def SortKey.parts (k : SortKey) : List Expr :=
  k.key :: (k.order.toList ++ k.dataType.toList ++ k.caseOrder.toList ++ k.lang.toList)

namespace Expr

/-- What is parsed, simplified or not, and what is built from that by set operations and sorts. -/
inductive Compiled (F : Forest) : Expr → Prop
  | parsed {s : StaticScope} {source : String} {e : Expr} (h : parse s F source = .ok e) :
      Compiled F e
  | parsedTemplate {s : StaticScope} {source : String} {e : Expr}
      (h : parseTemplate s F source = .ok e) : Compiled F e
  | read {s : StaticScope} {source : String} {e : Expr} (h : read s source = .ok e) :
      Compiled F e
  | readTemplate {s : StaticScope} {source : String} {e : Expr}
      (h : readTemplate s source = .ok e) : Compiled F e
  | simplified {e e' : Expr} (h : Compiled F e) (he : e.simplify F = .ok e') : Compiled F e'
  | setOperation {lhs rhs : Expr} (op : SetOperator) (hlhs : Compiled F lhs)
      (hrhs : Compiled F rhs) : Compiled F (setOperation op lhs rhs)
  | sorted {selection : Expr} {keys : List SortKey} (hselection : Compiled F selection)
      (hkeys : ∀ k ∈ keys, ∀ x ∈ k.parts, Compiled F x) : Compiled F (sorted selection keys)

variable {F : Forest} {Γ : Typing} {p : Expr → Prop} {e : Expr} {keys : List SortKey}

theorem everyOfOption_of_mem {e : Option Expr} (h : ∀ x ∈ e.toList, x.Every p) :
    EveryOfOption p e := by
  cases e with
  | none => trivial
  | some e => exact h e (by simp)

theorem everyOfKeys_of_mem (h : ∀ k ∈ keys, ∀ x ∈ k.parts, x.Every p) : EveryOfKeys p keys := by
  induction keys with
  | nil => trivial
  | cons k keys ih =>
      have hk := h k (by simp)
      obtain ⟨key, order, dataType, caseOrder, lang⟩ := k
      rw [EveryOfKeys]
      refine ⟨hk key (by simp [SortKey.parts, SortKey.key]), ?_, ?_, ?_, ?_,
        ih fun k hmem => h k (List.mem_cons_of_mem _ hmem)⟩
      · exact everyOfOption_of_mem fun x hx => hk x (by simp_all [SortKey.parts, SortKey.order])
      · exact everyOfOption_of_mem fun x hx => hk x (by simp_all [SortKey.parts, SortKey.dataType])
      · exact everyOfOption_of_mem fun x hx =>
          hk x (by simp_all [SortKey.parts, SortKey.caseOrder])
      · exact everyOfOption_of_mem fun x hx => hk x (by simp_all [SortKey.parts, SortKey.lang])

namespace Compiled

theorem isRegular (h : Compiled F e) : e.IsRegular F := by
  induction h with
  | parsed h => exact isRegular_parse _ _ _ h
  | parsedTemplate h => exact isRegular_parseTemplate _ _ _ h
  | read h => exact isRegular_read _ _ _ h
  | readTemplate h => exact isRegular_readTemplate _ _ _ h
  | simplified h he ih => exact ih.simplify he
  | setOperation op hlhs hrhs ihlhs ihrhs => exact isRegular_setOperation ihlhs ihrhs
  | sorted hselection hkeys ihselection ihkeys =>
      rw [IsRegular, Every]
      exact ⟨trivial, ihselection, everyOfKeys_of_mem ihkeys⟩

theorem means (W : F.WellFormed) (h : Compiled F e) (hplain : e.Every (Plain F Γ))
    (hempty : e.Every (FalseOnEmpty F Γ)) : e.Means F (.none F) Γ false (e.reading F) := by
  have hregular := hplain.imp₂ (fun _ hplain hregular => And.intro hplain hregular) h.isRegular
  exact means_reading W e (hregular.imp₂ (fun _ h hempty => ⟨h.1, h.2, hempty⟩) hempty)

end Compiled

end Expr

end XPath
