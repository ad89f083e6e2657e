import XPath.Proofs.Policy.Basic

/-!
# Lax policies

A policy that makes no promise of nodes, fragments, variables, errors and flags is closed over every
host, whatever functions it admits (`Policy.Lax.closed`). What is left of the results about policies
is what holds of every evaluation with these functions.
-/

namespace XPath

open XPath.Expr hiding failure

namespace Policy

variable {P : Policy} {h : Host}

/-- Everything may be met, but for some functions of the host. -/
structure Lax (P : Policy) : Prop where
  node : ∀ n, P.node n
  fragment : ∀ f, P.fragment f
  reference : ∀ name, P.reference name
  error : ∀ e, P.error e
  flags : ∀ en, P.flags en

namespace Lax

variable (hP : P.Lax)

include hP

theorem ends {α : Type} {Q : α → Prop} (hQ : ∀ a, Q a) (x : Except Error α) : Ends P.error Q x := by
  cases x with
  | error e => exact hP.error e
  | ok a => exact hQ a

theorem value (v : Value) : P.AdmitsValue v := by
  match v with
  | .nodeSet s =>
      exact hP.ends (fun en => ⟨fun n _ => hP.node n, fun e _ => hP.error e,
        fun e _ => hP.error e, hP.flags en⟩) s.listing
  | .fragment f => exact hP.fragment f
  | .boolean _ | .number _ | .string _ | .object _ => exact True.intro

theorem controller (k : Controller) : P.AdmitsController k where
  selectByKey _ _ _ := hP.ends (fun _ n _ => hP.node n) _
  loadDocument _ _ := hP.ends hP.node _
  materialize _ _ := hP.ends hP.node _

theorem context (c : Context) : P.AdmitsContext c where
  contextNode n _ := hP.node n
  currentNode n _ := hP.node n
  bindings _ v _ _ := hP.value v
  controller k _ := hP.controller k

theorem part {e : Expr} (hfunction : ∀ name display f args, e = extension name display f args →
    P.function f) : P.AdmitsPart e := by
  match e with
  | literal v | .reference _ _ (some v) | nodeComparison _ _ v => exact hP.value v
  | .reference name _ none => exact hP.reference name
  | contextNode | parentNode | root | binary .. | negate _ | path .. | filter .. | setOperation ..
  | sorted .. | template _ => exact True.intro
  | attributeNamed _ _ _ => exact fun n _ => hP.node n
  | call _ _ _ => exact ⟨fun n _ => hP.node n, fun k _ => hP.controller k⟩
  | extension name display f args => exact hfunction name display f args rfl
  | .failure e => exact hP.error e

theorem closed : P.Closed h :=
  .of_nodes hP.node hP.flags (fun e _ => hP.error e) fun _ _ _ _ _ _ => hP.ends hP.value _

end Lax

end Policy

end XPath
