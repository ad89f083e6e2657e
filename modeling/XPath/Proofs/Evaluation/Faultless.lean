import XPath.Proofs.Evaluation.Answers
import XPath.Proofs.Policy.Engine

/-!
# No internal fault

The library has one promise to itself: a node-set is kept as an expression only if that reads nothing
of the context. Reduction leaves nothing to read, so that evaluation never breaks the promise
(`Expr.evaluate_faultless`): an internal fault can only come from outside.
-/

namespace XPath

variable {h : Host} {e e' : Expr} {m : Dependencies} {c : Context}

def Policy.faultless : Policy where
  node _ := True
  fragment _ := True
  reference _ := True
  function _ := True
  error e := ∀ f, e ≠ .internalFault f
  flags _ := True

/-- The functions of the host do not come to an internal fault, nor to a value that does when its
nodes are listed, if they are given none that does. -/
def Host.Faultless (h : Host) : Prop :=
  ∀ (f : ExtensionFunction) (vs : List Value) (c : Context),
    (∀ v ∈ vs, Policy.faultless.AdmitsValue v) → Policy.faultless.AdmitsContext c →
      Ends Policy.faultless.error Policy.faultless.AdmitsValue (h.apply f.identity vs c)

theorem Host.Faultless.closed (hh : h.Faultless) : Policy.faultless.Closed h :=
  .of_nodes (fun _ => trivial) (fun _ => trivial) (fun _ he => he) fun f vs c _ => hh f vs c

/-- What reads nothing of the context is accepted as an intent. -/
theorem Engine.intent_ok (E : Engine) (he : e.dependencies.isEmpty = true) :
    ∃ i, E.intent e = .ok i :=
  ⟨_, if_pos he⟩

/-- The combination of two sets is the intent of a set operation over them, which is accepted. -/
theorem Engine.intent_setOperation (h : Host) (depth : Nat) (op : SetOperator) (a b : NodeSet) :
    ∃ i, (h.engine (depth + 2)).intent
        (.setOperation op (.literal (.nodeSet a)) (.literal (.nodeSet b))) = .ok i ∧
      NodeSet.combine h.forest op a b = .intent i := by
  have hempty : (Expr.setOperation op (.literal (.nodeSet a)) (.literal (.nodeSet b))).dependencies.isEmpty
      = true := by
    simp [Expr.dependencies, Dependencies.isEmpty_iff]
  exact ⟨_, if_pos hempty, rfl⟩

namespace Expr

/-- Reduction leaves nothing of the mask to read. So what is left of an expression is always accepted
as an intent, and so is a combination of node-sets, and evaluation comes to an internal fault only if
the host, its controller, a value or a failure in the expression supplies one. -/
theorem evaluate_faultless (h : Host) :
    (∀ (e e' : Expr) (m : Dependencies) (c : Context), e.reduce h m c = .ok e' →
      e'.dependencies.intersects m = false) ∧
    (∀ (E : Engine) (e e' : Expr) (c : Context), e.reduceWith E h .all c = .ok e' →
      ∃ i, E.intent e' = .ok i) ∧
    (∀ (op : SetOperator) (a b : NodeSet) (depth : Nat), ∃ i, (h.engine (depth + 2)).intent
        (setOperation op (literal (.nodeSet a)) (literal (.nodeSet b))) = .ok i ∧
      NodeSet.combine h.forest op a b = .intent i) ∧
    (h.Faultless → ∀ (e : Expr) (c : Context), Policy.faultless.AdmitsExpr e →
      Policy.faultless.AdmitsContext c → ∀ f, e.evaluate h c ≠ .error (.internalFault f)) := by
  refine ⟨fun e e' m c he => disjoint_of_reduceWith he, fun E e e' c he => ?_,
    fun op a b depth => Engine.intent_setOperation h depth op a b, fun hh e c he hc f hf => ?_⟩
  · exact E.intent_ok (Dependencies.isEmpty_of_disjoint_all (disjoint_of_reduceWith he))
  · exact (Policy.serves_engine hh.closed he hc).value.of_error hf f rfl

/-! `first(//x)[position() = last() - 1] | //x[$b]`, where `first` is a function of the host. -/

def returningHost : Host := .ofRoutines .nested [.first]

def returning : ExtensionFunction := ⟨0, "first", 1, 1, .contextNode, .any⟩

def returned : Expr :=
  setOperation .union
    (filter (extension (.unprefixed "first") "first" returning [everywhere "x" []])
      (binary .equals (call .position [] .free)
        (binary .minus (call .last [] .free) (number 1))))
    (everywhere "x" [flag])

theorem faultless_returningHost : returningHost.Faultless := by
  intro f vs c hvs hc
  rcases hf : f.identity with - | k
  · show Ends _ _ (Except.ok (vs.head?.getD (.string "")))
    cases vs with
    | nil => exact Ends.pure (P := Policy.faultless.AdmitsValue) trivial
    | cons v vs => exact Ends.pure (P := Policy.faultless.AdmitsValue) (hvs v List.mem_cons_self)
  · show Ends _ _ (Except.error Routine.failure)
    exact fun f hf => by cases hf

theorem admits_returned : Policy.faultless.AdmitsExpr returned := by
  simp [Every, EveryOfList, Policy.AdmitsPart, returned, everywhere, flag, number, Policy.faultless,
    Policy.AdmitsValue, Policy.admits_free]

theorem admits_flagContext : Policy.faultless.AdmitsContext flagContext where
  contextNode _ _ := trivial
  currentNode _ _ := trivial
  bindings name v _ hv := by
    obtain rfl := eq_true_of_valueOf hv
    trivial
  controller k hk := by cases hk

theorem evaluate_faultless_returned :
    returningHost.Faultless ∧ Policy.faultless.AdmitsExpr returned ∧
      Policy.faultless.AdmitsContext flagContext ∧
      ∀ f, returned.evaluate returningHost flagContext ≠ .error (.internalFault f) :=
  ⟨faultless_returningHost, admits_returned, admits_flagContext,
    (evaluate_faultless returningHost).2.2.2 faultless_returningHost returned flagContext
      admits_returned admits_flagContext⟩

end Expr

end XPath
