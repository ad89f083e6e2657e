import XPath.Pattern.Parser
import XPath.Proofs.Pattern.Selection
import XPath.Proofs.Tree.Contract

/-!
# The kinds of nodes that a pattern accepts

The kind of a pattern is read off its shape. It is the kind of every node that the pattern accepts,
except where a controller answers a key with nodes that are no elements
(`Pattern.resultKind_of_accepts`): a pattern with a key as its only kind of alternative passes for a
pattern of elements.
-/

namespace XPath.Pattern

variable {h : Host} {c : Context} {p q : Pattern} {n : Node}

def alternates : Pattern → List Pattern
  | union a b => a.alternates ++ b.alternates
  | p => [p]

theorem accepts_union_true {a b : Pattern} (haccepts : (union a b).accepts h c n = .ok true) :
    a.accepts h c n = .ok true ∨ b.accepts h c n = .ok true := by
  rw [accepts] at haccepts
  obtain ⟨found, hfound, haccepts⟩ := bind_eq_ok.mp haccepts
  split at haccepts
  · rename_i htrue
    exact .inl (htrue ▸ hfound)
  · exact .inr haccepts

theorem exists_alternate_of_accepts (p : Pattern) (haccepts : p.accepts h c n = .ok true) :
    ∃ q ∈ p.alternates, q.accepts h c n = .ok true := by
  match p with
  | union a b =>
      rw [alternates]
      rcases accepts_union_true haccepts with ha | hb
      · obtain ⟨q, hq, haccepts⟩ := exists_alternate_of_accepts a ha
        exact ⟨q, List.mem_append_left _ hq, haccepts⟩
      · obtain ⟨q, hq, haccepts⟩ := exists_alternate_of_accepts b hb
        exact ⟨q, List.mem_append_right _ hq, haccepts⟩
  | document | nodeKind _ | anyChild | named _ | id _ | key .. | location .. =>
      exact ⟨_, List.mem_singleton_self _, haccepts⟩
termination_by structural p

/-- A union has a kind of its own only where its alternates share it. -/
theorem resultKind_of_mem_alternates (p : Pattern) (hq : q ∈ p.alternates) :
    p.resultKind = .node ∨ p.resultKind = q.resultKind := by
  match p with
  | union a b =>
      rw [alternates, List.mem_append] at hq
      rw [resultKind]
      by_cases hkinds : a.resultKind = b.resultKind
      · rw [if_pos (beq_iff_eq.mpr hkinds)]
        rcases hq with hq | hq
        · exact resultKind_of_mem_alternates a hq
        · rw [hkinds]
          exact resultKind_of_mem_alternates b hq
      · rw [if_neg (by simpa using hkinds)]
        exact .inl rfl
  | document | nodeKind _ | anyChild | named _ | id _ | key .. | location .. =>
      obtain rfl := List.mem_singleton.mp hq
      exact .inr rfl
termination_by structural p

theorem not_union_of_mem_alternates (p : Pattern) (hq : q ∈ p.alternates) (a b : Pattern) :
    q ≠ union a b := by
  match p with
  | union a' b' =>
      rw [alternates, List.mem_append] at hq
      rcases hq with hq | hq
      · exact not_union_of_mem_alternates a' hq a b
      · exact not_union_of_mem_alternates b' hq a b
  | document | nodeKind _ | anyChild | named _ | id _ | key .. | location .. =>
      obtain rfl := List.mem_singleton.mp hq
      exact nofun
termination_by structural p

theorem kind_of_test {test : NodeTest} (haccepts : test.accepts h.forest n = true) :
    test.kind.accepts (h.forest.type n) = true := by
  unfold NodeTest.accepts at haccepts
  simp_all

theorem resultKind_of_alternate (hq : q ∈ p.alternates) (haccepts : q.accepts h c n = .ok true) :
    q.resultKind.accepts (h.forest.type n) = true ∨
      ∃ name display value, q = key name display value := by
  cases q with
  | document =>
      rw [accepts, Except.ok.injEq] at haccepts
      exact .inl haccepts
  | nodeKind k =>
      rw [accepts, Except.ok.injEq] at haccepts
      exact .inl haccepts
  | anyChild => exact .inl rfl
  | named test =>
      rw [accepts, Except.ok.injEq] at haccepts
      exact .inl (kind_of_test haccepts)
  | id value =>
      rw [accepts, Except.ok.injEq, Bool.and_eq_true] at haccepts
      exact .inl haccepts.1
  | key name display value => exact .inr ⟨name, display, value, rfl⟩
  | location test parent ancestor predicates check =>
      exact .inl (kind_of_test (accepts_location_true haccepts).1)
  | union a b => exact absurd rfl (not_union_of_mem_alternates p hq a b)

/-- A pattern accepts nodes of its kind only, and none if that is the impossible kind, unless it is
a pattern of elements and a controller answers one of its keys with a node that is none. -/
theorem resultKind_of_accepts (haccepts : p.accepts h c n = .ok true) :
    p.resultKind ≠ .never ∧
      (p.resultKind.accepts (h.forest.type n) = false ↔
        p.resultKind = .element ∧ h.forest.type n ≠ .element ∧
          ∃ name display value, key name display value ∈ p.alternates ∧
            (key name display value).accepts h c n = .ok true) := by
  obtain ⟨q, hq, hqaccepts⟩ := exists_alternate_of_accepts p haccepts
  have hnever : p.resultKind ≠ .never := by
    intro hnever
    have hqnever : q.resultKind = .never := by
      rcases resultKind_of_mem_alternates p hq with hkind | hkind
      · rw [hnever] at hkind
        cases hkind
      · rw [← hkind, hnever]
    rcases resultKind_of_alternate hq hqaccepts with hkind | ⟨name, display, value, rfl⟩
    · rw [hqnever] at hkind
      cases hkind
    · cases hqnever
  refine ⟨hnever, fun hfalse => ?_, fun ⟨hkind, htype, _⟩ => ?_⟩
  · rcases resultKind_of_mem_alternates p hq with hkind | hkind
    · rw [hkind] at hfalse
      cases hfalse
    · rcases resultKind_of_alternate hq hqaccepts with htrue | ⟨name, display, value, rfl⟩
      · rw [hkind, htrue] at hfalse
        cases hfalse
      · have helement : p.resultKind = .element := hkind
        rw [helement] at hfalse
        exact ⟨helement, by simpa [NodeKind.accepts] using hfalse, name, display, value, hq,
          hqaccepts⟩
  · rw [hkind]
    simpa [NodeKind.accepts] using htype

/-! ## A key for an attribute -/

def finder (found : Node) : Controller :=
  { Controller.bare 0 with selectByKey := fun _ _ _ => .ok [found] }

/-- A host without functions over the document `<r><a k="v"/><b/></r>`. -/
def attributedHost : Host := ⟨.attributed, fun _ _ _ => .error (.evaluation .noContextNode)⟩

/-- `key('k', 'v')` -/
def keyed : Pattern := key (.unprefixed "k") "k" "v"

theorem read_keyed : read { } "key('k', 'v')" = .ok keyed := by
  have htokens : Lexer.tokens "key('k', 'v')" =
      ([⟨.functionName, "key", 0⟩, ⟨.literal, "k", 4⟩, ⟨.comma, ",", 7⟩, ⟨.literal, "v", 9⟩,
        ⟨.rightParen, ")", 12⟩, ⟨.eof, "", 13⟩], none) := by decide +kernel
  exact Reader.run_eq_ok.mpr ⟨_, _, Reader.start_of_tokens htokens, rfl, rfl⟩

theorem resultKind_of_accepts_attributed :
    let c := { Context.standalone with controller? := some (finder ⟨0, 3⟩) }
    let p := union (named ⟨.element, .named (.unprefixed "a")⟩) keyed
    p.accepts attributedHost c ⟨0, 2⟩ = .ok true ∧
      p.resultKind.accepts (attributedHost.forest.type ⟨0, 2⟩) = true := by
  intro c p
  have haccepts : p.accepts attributedHost c ⟨0, 2⟩ = .ok true :=
    toOption_eq_some.mp (by decide +kernel)
  have htype : attributedHost.forest.type ⟨0, 2⟩ = .element := by decide +kernel
  refine ⟨haccepts, ?_⟩
  by_contra hfalse
  exact ((resultKind_of_accepts haccepts).2.mp (by simpa using hfalse)).2.1 htype

/-- `key('k', 'v')` accepts the attribute that a controller answers with, and passes for a pattern
of elements. -/
theorem not_resultKind_of_accepts : ¬∀ (h : Host) (c : Context) (s : StaticScope)
    (source : String) (p : Pattern) (n : Node), parse s h.forest source = .ok p →
      p.accepts h c n = .ok true → p.resultKind.accepts (h.forest.type n) = true := by
  intro hkind
  have hparse : parse { } attributedHost.forest "key('k', 'v')" = .ok keyed :=
    bind_eq_ok.mpr ⟨keyed, read_keyed, rfl⟩
  have haccepts : keyed.accepts attributedHost
      { Context.standalone with controller? := some (finder ⟨0, 3⟩) } ⟨0, 3⟩ = .ok true :=
    toOption_eq_some.mp (by decide +kernel)
  have hfalse : keyed.resultKind.accepts (attributedHost.forest.type ⟨0, 3⟩) = false := by
    decide +kernel
  have htrue := hkind _ _ _ _ _ _ hparse haccepts
  rw [hfalse] at htrue
  cases htrue

end XPath.Pattern
