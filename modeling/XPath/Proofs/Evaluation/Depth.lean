import XPath.Proofs.Agreement.Parts
import XPath.Proofs.Policy.Lax

/-!
# Engines that are deep enough

An engine that is deep enough for an expression answers about it as every deeper engine does
(`Host.agreesUpTo_engine`), so the depth is no part of the answer: what an expression comes to as a
part of another one is what it comes to by itself (`Host.agreesUpTo_evaluator`).
-/

namespace XPath

open XPath.Expr hiding failure

variable {F : Forest} {h : Host} {E E' : Engine} {e lhs rhs predicate : Expr} {c : Context}
  {depth n : Nat}

/-- The two engines answer alike about the expression in every context. -/
structure Engine.Matches (E E' : Engine) (e : Expr) : Prop where
  value : ∀ c, E.value e c = E'.value e c
  truth : ∀ c, E.truth e c = E'.truth e c
  number : ∀ c, E.number e c = E'.number e c
  text : ∀ c, E.text e c = E'.text e c
  first : ∀ c, E.first e c = E'.first e c
  enumerate : ∀ c, E.enumerate e c = E'.enumerate e c

namespace Engine.Matches

theorem symm (h : E.Matches E' e) : E'.Matches E e :=
  ⟨fun c => (h.value c).symm, fun c => (h.truth c).symm, fun c => (h.number c).symm,
    fun c => (h.text c).symm, fun c => (h.first c).symm, fun c => (h.enumerate c).symm⟩

theorem trans {E'' : Engine} (h : E.Matches E' e) (h' : E'.Matches E'' e) : E.Matches E'' e :=
  ⟨fun c => (h.value c).trans (h'.value c), fun c => (h.truth c).trans (h'.truth c),
    fun c => (h.number c).trans (h'.number c), fun c => (h.text c).trans (h'.text c),
    fun c => (h.first c).trans (h'.first c), fun c => (h.enumerate c).trans (h'.enumerate c)⟩

theorem corresponds (h : E.Matches E' e) (c : Context) : E.Corresponds c E' c e :=
  ⟨h.truth c, h.number c, h.text c, h.first c, h.enumerate c⟩

theorem passes (h : E.Matches E' e) (c : Context) : E.passes F e c = E'.passes F e c :=
  passes_congr (h.corresponds c) (fun _ => h.value c) rfl

end Engine.Matches

/-! ## Reduction -/

mutual

/-- Reduction evaluates nothing but arguments, which are smaller. -/
theorem reduceWith_matches (hE : ∀ e, e.size < n → ∀ c, E.value e c = E'.value e c)
    (m : Dependencies) (c : Context) (e : Expr) (hn : e.size ≤ n) :
    e.reduceWith E h m c = e.reduceWith E' h m c := by
  unfold reduceWith
  split
  · rfl
  · match e with
    | literal _ | .reference .. | contextNode | parentNode | root | attributeNamed .. | .failure _ =>
        rfl
    | binary op lhs rhs | setOperation op lhs rhs =>
        rw [size] at hn
        dsimp only
        rw [reduceWith_matches hE m c lhs (by omega), reduceWith_matches hE m c rhs (by omega)]
    | negate e =>
        rw [size] at hn
        dsimp only
        rw [reduceWith_matches hE m c e (by omega)]
    | nodeComparison node op v =>
        rw [size] at hn
        dsimp only
        rw [reduceWith_matches hE m c node (by omega)]
    | path start axis test predicates =>
        rw [size] at hn
        dsimp only
        rw [reduceWith_matches hE m c start (by omega),
          reduceListWith_matches hE _ c predicates (by omega)]
    | filter base predicate =>
        rw [size] at hn
        dsimp only
        rw [reduceWith_matches hE m c base (by omega), reduceWith_matches hE _ c predicate (by omega)]
    | call function args binding =>
        rw [size] at hn
        dsimp only
        rw [reduceListWith_matches hE m c args (by omega)]
    | extension name display function args =>
        rw [size] at hn
        have hvalues : args.mapM (fun e => E.value e c) = args.mapM (fun e => E'.value e c) :=
          mapM_congr fun e he => hE e (by have := Policy.size_of_mem he; omega) c
        dsimp only
        rw [reduceListWith_matches hE m c args (by omega), hvalues]
    | sorted selection keys =>
        rw [size] at hn
        dsimp only
        rw [reduceWith_matches hE m c selection (by omega),
          reduceKeysWith_matches hE m c keys (by omega)]
    | template parts =>
        rw [size] at hn
        dsimp only
        rw [reducePartsWith_matches hE m c parts (by omega)]
termination_by structural e

theorem reduceListWith_matches (hE : ∀ e, e.size < n → ∀ c, E.value e c = E'.value e c)
    (m : Dependencies) (c : Context) (es : List Expr)
    (hn : sizeOfList es ≤ n) : reduceListWith E h m c es = reduceListWith E' h m c es := by
  match es with
  | [] => rfl
  | e :: es =>
      rw [sizeOfList] at hn
      rw [reduceListWith, reduceListWith, reduceWith_matches hE m c e (by omega),
        reduceListWith_matches hE m c es (by omega)]
termination_by structural es

theorem reduceOptionWith_matches (hE : ∀ e, e.size < n → ∀ c, E.value e c = E'.value e c)
    (m : Dependencies) (c : Context) (e : Option Expr)
    (hn : sizeOfOption e ≤ n) : reduceOptionWith E h m c e = reduceOptionWith E' h m c e := by
  match e with
  | none => rfl
  | some e => rw [reduceOptionWith, reduceOptionWith, reduceWith_matches hE m c e hn]
termination_by structural e

theorem reduceKeysWith_matches (hE : ∀ e, e.size < n → ∀ c, E.value e c = E'.value e c)
    (m : Dependencies) (c : Context) (ks : List SortKey)
    (hn : sizeOfKeys ks ≤ n) : reduceKeysWith E h m c ks = reduceKeysWith E' h m c ks := by
  match ks with
  | [] => rfl
  | .mk key order dataType caseOrder lang :: ks =>
      rw [sizeOfKeys, sizeOfKey] at hn
      rw [reduceKeysWith, reduceKeysWith, reduceKeyWith, reduceKeyWith,
        reduceWith_matches hE _ c key (by omega), reduceOptionWith_matches hE m c order (by omega),
        reduceOptionWith_matches hE m c dataType (by omega),
        reduceOptionWith_matches hE m c caseOrder (by omega),
        reduceOptionWith_matches hE m c lang (by omega), reduceKeysWith_matches hE m c ks (by omega)]
termination_by structural ks

theorem reducePartsWith_matches (hE : ∀ e, e.size < n → ∀ c, E.value e c = E'.value e c)
    (m : Dependencies) (c : Context) (ps : List TemplatePart)
    (hn : sizeOfParts ps ≤ n) : reducePartsWith E h m c ps = reducePartsWith E' h m c ps := by
  match ps with
  | [] => rfl
  | .text text :: ps =>
      rw [sizeOfParts] at hn
      rw [reducePartsWith, reducePartsWith, reducePartWith, reducePartWith,
        reducePartsWith_matches hE m c ps (by omega)]
  | .expr e :: ps =>
      rw [sizeOfParts, sizeOfPart] at hn
      rw [reducePartsWith, reducePartsWith, reducePartWith, reducePartWith,
        reduceWith_matches hE m c e (by omega), reducePartsWith_matches hE m c ps (by omega)]
termination_by structural ps

end

/-! ## A reduced expression is not larger -/

def Policy.permissive : Policy where
  node _ := True
  fragment _ := True
  reference _ := True
  function _ := True
  error _ := True
  flags _ := True

namespace Policy

theorem lax_permissive : permissive.Lax :=
  ⟨fun _ => trivial, fun _ => trivial, fun _ => trivial, fun _ => trivial, fun _ => trivial⟩

theorem permits_part (e : Expr) : permissive.AdmitsPart e :=
  lax_permissive.part fun _ _ _ _ _ => trivial

end Policy

namespace Expr

variable {p : Expr → Prop}

mutual

theorem every_of_forall (hp : ∀ e, p e) (e : Expr) : e.Every p := by
  match e with
  | literal _ | reference .. | contextNode | parentNode | root | attributeNamed .. | .failure _ =>
      exact hp _
  | binary _ lhs rhs | filter lhs rhs | setOperation _ lhs rhs =>
      exact ⟨hp _, every_of_forall hp lhs, every_of_forall hp rhs⟩
  | negate e | nodeComparison e _ _ => exact ⟨hp _, every_of_forall hp e⟩
  | path start _ _ predicates =>
      exact ⟨hp _, every_of_forall hp start, everyOfList_of_forall hp predicates⟩
  | call _ args _ | extension _ _ _ args => exact ⟨hp _, everyOfList_of_forall hp args⟩
  | sorted selection keys =>
      exact ⟨hp _, every_of_forall hp selection, everyOfKeys_of_forall hp keys⟩
  | template parts => exact ⟨hp _, everyOfParts_of_forall hp parts⟩
termination_by structural e

theorem everyOfList_of_forall (hp : ∀ e, p e) (es : List Expr) : EveryOfList p es := by
  match es with
  | [] => exact True.intro
  | e :: es => exact ⟨every_of_forall hp e, everyOfList_of_forall hp es⟩
termination_by structural es

theorem everyOfOption_of_forall (hp : ∀ e, p e) (e : Option Expr) : EveryOfOption p e := by
  match e with
  | none => exact True.intro
  | some e => exact every_of_forall hp e
termination_by structural e

theorem everyOfKeys_of_forall (hp : ∀ e, p e) (ks : List SortKey) : EveryOfKeys p ks := by
  match ks with
  | [] => exact True.intro
  | .mk key order dataType caseOrder lang :: ks =>
      exact ⟨every_of_forall hp key, everyOfOption_of_forall hp order,
        everyOfOption_of_forall hp dataType, everyOfOption_of_forall hp caseOrder,
        everyOfOption_of_forall hp lang, everyOfKeys_of_forall hp ks⟩
termination_by structural ks

theorem everyOfParts_of_forall (hp : ∀ e, p e) (ps : List TemplatePart) : EveryOfParts p ps := by
  match ps with
  | [] => exact True.intro
  | .text _ :: ps => exact everyOfParts_of_forall hp ps
  | .expr e :: ps => exact ⟨every_of_forall hp e, everyOfParts_of_forall hp ps⟩
termination_by structural ps

end

theorem size_reduceWith_le {e' : Expr} {m : Dependencies} (he : e.reduceWith E h m c = .ok e') :
    e'.size ≤ e.size :=
  ((Policy.fits_reduceWith Policy.lax_permissive.closed (Policy.lax_permissive.context c)
    (fun _ _ _ => Policy.lax_permissive.ends Policy.lax_permissive.value _) m e
    (every_of_forall Policy.permits_part e) le_rfl).of_ok he).size_le

end Expr

/-! ## Deep enough engines agree -/

/-- The two engines answer alike wherever so many levels are enough. -/
structure Engine.AgreesUpTo (E E' : Engine) (depth : Nat) : Prop where
  constant : ∀ v, 1 ≤ depth → E.Matches E' (literal v)
  answers : ∀ e, 2 * e.size ≤ depth → E.Matches E' e
  lists : ∀ e c, 2 ≤ depth → 2 * e.size - 1 ≤ depth → E.enumerate e c = E'.enumerate e c

namespace Engine.AgreesUpTo

variable (hE : E.AgreesUpTo E' depth)

include hE

theorem lists_part (he : 2 * e.size ≤ depth) (c : Context) : E.enumerate e c = E'.enumerate e c :=
  hE.lists e c (by have := e.size_pos; omega) (by omega)

theorem nodeSet (hsize : 2 * e.size ≤ depth + 1) (htwo : 2 ≤ e.size) (c : Context) :
    E.nodeSet h e c = E'.nodeSet h e c := by
  have hreduce : e.reduceWith E h .all c = e.reduceWith E' h .all c :=
    reduceWith_matches (fun e hlt => (hE.answers e (by omega)).value) .all c e le_rfl
  have hintent (e' : Expr) (hle : e'.size ≤ e.size) : E.intent e' = E'.intent e' := by
    unfold Engine.intent
    rw [hE.lists e' .standalone (by omega) (by omega)]
  unfold Engine.nodeSet
  rw [← hreduce]
  cases he' : e.reduceWith E h .all c with
  | error => rfl
  | ok e' =>
      simp only [ok_bind]
      split
      · rfl
      · rfl
      · rw [hintent e' (size_reduceWith_le he')]

theorem key {s : SortKey} (hs : 2 * sizeOfKey s - 2 ≤ depth) (c : Context) :
    E.KeysCorrespond c E' c s := by
  obtain ⟨key, order, dataType, caseOrder, lang⟩ := s
  rw [sizeOfKey] at hs
  have hattribute {a : Option Expr} (ha : 2 * sizeOfOption a ≤ depth) (e : Expr)
      (hsome : a = some e) : E.text e c = E'.text e c := by
    subst hsome
    exact (hE.answers e ha).text c
  exact {
    key := fun n k l => (hE.answers key (by omega)).text (c.forItem n k l)
    order := hattribute (a := order) (by omega)
    dataType := hattribute (a := dataType) (by omega)
    caseOrder := hattribute (a := caseOrder) (by omega)
    lang := hattribute (a := lang) (by omega) }

theorem call {args : List Expr} (hargs : 2 * sizeOfList args ≤ depth) (hone : 1 ≤ depth)
    (function : Builtin) (binding : CallBinding) (c : Context) :
    CallFrame.run ⟨E, F, function, args, binding, c⟩ =
      CallFrame.run ⟨E', F, function, args, binding, c⟩ := by
  have hmem (e : Expr) (he : e ∈ args) : E.Matches E' e :=
    hE.answers e (by have := Policy.size_of_mem he; omega)
  have harg (i : Nat) : E.Matches E' (args[i]?.getD (.string "")) := by
    cases hi : args[i]? with
    | some e => exact hmem e (List.mem_of_getElem? hi)
    | none => exact hE.constant _ hone
  exact CallFrame.AgreesWith.run (f := ⟨E, F, function, args, binding, c⟩)
    ⟨.refl _ c, fun i => (harg i).corresponds c, fun e he => (hmem e he).corresponds c,
      fun _ i => ⟨(harg i).value c, fun _ _ => rfl⟩⟩

theorem ruleValue (hsize : 2 * e.size - 1 ≤ depth + 1) (htwo : 2 ≤ depth + 1)
    (hlisted : e.isNodeSetExpression = true → 2 * e.size ≤ depth + 1) (c : Context) :
    E.ruleValue h e c = E'.ruleValue h e c := by
  match e with
  | .literal _ | .reference _ _ (some _) | .reference _ _ none | .contextNode | .parentNode | .root
  | .attributeNamed .. | .failure _ => rfl
  | .binary op lhs rhs =>
      rw [size] at hsize
      have hl : E.Matches E' lhs := hE.answers lhs (by omega)
      have hr : E.Matches E' rhs := hE.answers rhs (by omega)
      exact Engine.binary_congr (hl.corresponds c) (hr.corresponds c) fun _ => ⟨hl.value c, hr.value c⟩
  | .negate e =>
      rw [size] at hsize
      rw [Engine.ruleValue, Engine.ruleValue, (hE.answers e (by omega)).number]
  | .nodeComparison node op v =>
      rw [size] at hsize
      rw [Engine.ruleValue, Engine.ruleValue,
        Engine.compareNode_congr ((hE.answers node (by omega)).corresponds c)]
  | .path start axis test predicates =>
      rw [Engine.ruleValue, Engine.ruleValue,
        hE.nodeSet (hlisted rfl) (by rw [size]; have := start.size_pos; omega)]
  | .filter base predicate =>
      rw [Engine.ruleValue, Engine.ruleValue,
        hE.nodeSet (hlisted rfl) (by rw [size]; have := base.size_pos; omega)]
  | .setOperation op lhs rhs =>
      rw [Engine.ruleValue, Engine.ruleValue,
        hE.nodeSet (hlisted rfl) (by rw [size]; have := lhs.size_pos; omega)]
  | .sorted selection keys =>
      rw [Engine.ruleValue, Engine.ruleValue,
        hE.nodeSet (hlisted rfl) (by rw [size]; have := selection.size_pos; omega)]
  | .call function args binding =>
      rw [size] at hsize
      exact hE.call (by omega) (by omega) function binding c
  | .extension name display f args =>
      rw [size] at hsize
      have hvalues : args.mapM (fun e => E.value e c) = args.mapM (fun e => E'.value e c) :=
        mapM_congr fun e he => (hE.answers e (by have := Policy.size_of_mem he; omega)).value c
      rw [Engine.ruleValue, Engine.ruleValue, hvalues]
  | .template parts =>
      rw [size] at hsize
      have htext (e : Expr) (hp : .expr e ∈ parts) : E.text e c = E'.text e c := by
        have hlt := (Policy.admits_part (everyOfParts_of_forall Policy.permits_part parts) hp).2
        exact (hE.answers e (by omega)).text c
      rw [Engine.ruleValue, Engine.ruleValue, Engine.texts_congr htext]

theorem ruleEnumerate (hsize : 2 * e.size - 1 ≤ depth + 1) (htwo : 2 ≤ depth + 1) (c : Context) :
    E.ruleEnumerate h e c = E'.ruleEnumerate h e c := by
  have hvalue (hlisted : e.isNodeSetExpression = false) :
      (do (← (← E.ruleValue h e c).toNodeSet c).store h.forest) =
        (do (← (← E'.ruleValue h e c).toNodeSet c).store h.forest) := by
    rw [hE.ruleValue hsize htwo (by simp [hlisted])]
  match e with
  | .literal (.nodeSet _) | .contextNode | .parentNode | .root | .attributeNamed .. => rfl
  | .path start axis test predicates =>
      rw [size] at hsize
      have hpredicates (p : Expr) (hp : p ∈ predicates) : E.Matches E' p :=
        hE.answers p (by have := Policy.size_of_mem hp; omega)
      rw [Engine.ruleEnumerate, Engine.ruleEnumerate, hE.lists_part (by omega)]
      simp only [Engine.path_congr fun p hp n k l => (hpredicates p hp).passes (c.forItem n k l)]
  | .filter base predicate =>
      rw [size] at hsize
      have hpredicate : E.Matches E' predicate := hE.answers predicate (by omega)
      rw [Engine.ruleEnumerate, Engine.ruleEnumerate, hE.lists_part (by omega)]
      simp only [Engine.filter_congr fun n k l => hpredicate.passes (c.forItem n k l)]
  | .setOperation op lhs rhs =>
      rw [size] at hsize
      rw [Engine.ruleEnumerate, Engine.ruleEnumerate, hE.lists_part (e := lhs) (by omega),
        hE.lists_part (e := rhs) (by omega)]
  | .sorted selection keys =>
      rw [size] at hsize
      have hselection : E.Matches E' selection := hE.answers selection (by omega)
      exact Engine.sort_congr (hselection.enumerate c) fun s hs =>
        hE.key (by have := Policy.size_of_mem_keys hs; omega) c
  | .literal (.boolean _) | .literal (.number _) | .literal (.string _) | .literal (.fragment _)
  | .literal (.object _) | .reference name display constant | .binary op lhs rhs | .negate e
  | .nodeComparison node op v | .call function args binding | .extension name display f args
  | .template parts | .failure error => exact hvalue rfl

/-- Engines that agree on the parts make engines that agree on the whole. -/
theorem next : (E.next h).AgreesUpTo (E'.next h) (depth + 1) := by
  have hmatches (e : Expr) (hvalue : ∀ c, E.ruleValue h e c = E'.ruleValue h e c)
      (hlist : ∀ c, E.ruleEnumerate h e c = E'.ruleEnumerate h e c) :
      (E.next h).Matches (E'.next h) e := by
    have hnext (c : Context) : (E.next h).Corresponds c (E'.next h) c e :=
      Engine.corresponds_next (hlist c) fun _ => hvalue c
    exact ⟨hvalue, fun c => (hnext c).truth, fun c => (hnext c).number, fun c => (hnext c).text,
      fun c => (hnext c).first, hlist⟩
  refine ⟨fun v _ => hmatches _ (fun _ => rfl) fun c => ?_, fun e hsize => ?_,
    fun e c htwo hsize => hE.ruleEnumerate hsize htwo c⟩
  · cases v <;> rfl
  · have hpos := e.size_pos
    exact hmatches e (hE.ruleValue (by omega) (by omega) fun _ => hsize)
      (hE.ruleEnumerate (by omega) (by omega))

end Engine.AgreesUpTo

/-- An engine agrees with every deeper one where it is deep enough. -/
theorem Host.agreesUpTo_engine (h : Host) (hle : depth ≤ n) :
    (h.engine depth).AgreesUpTo (h.engine n) depth := by
  induction depth generalizing n with
  | zero =>
      exact ⟨fun _ hone => absurd hone (by omega),
        fun e hsize => absurd e.size_pos (by omega), fun _ _ htwo => absurd htwo (by omega)⟩
  | succ depth ih =>
      obtain ⟨m, rfl⟩ := Nat.exists_eq_add_of_lt hle
      exact (ih (by omega)).next

/-- The engine through which every expression comes to what it comes to by itself. -/
def Host.evaluator (h : Host) : Engine where
  value e := e.evaluate h
  truth e := e.evaluateAsBool h
  number e := e.evaluateAsNumber h
  text e := e.evaluateAsText h
  first e := e.selectFirst h
  enumerate e := e.enumerate h

/-- Within an engine that is deep enough an expression comes to what it comes to by itself. -/
theorem Host.agreesUpTo_evaluator (h : Host) (depth : Nat) :
    h.evaluator.AgreesUpTo (h.engine depth) depth := by
  refine ⟨fun v hone => ?_, fun e hsize => ?_, fun e c htwo hsize => ?_⟩
  · have hown : h.evaluator.Matches (h.engine 2) (literal v) := ⟨fun _ => rfl, fun _ => rfl,
      fun _ => rfl, fun _ => rfl, fun _ => rfl, fun _ => rfl⟩
    exact hown.trans (((h.agreesUpTo_engine (by decide : 1 ≤ 2)).constant v le_rfl).symm.trans
      ((h.agreesUpTo_engine hone).constant v le_rfl))
  · have hown : h.evaluator.Matches (h.engine (2 * e.size)) e := ⟨fun _ => rfl, fun _ => rfl,
      fun _ => rfl, fun _ => rfl, fun _ => rfl, fun _ => rfl⟩
    exact hown.trans ((h.agreesUpTo_engine hsize).answers e le_rfl)
  · have hpos := e.size_pos
    have hlist {m : Nat} (hm : max 2 (2 * e.size - 1) ≤ m) :
        (h.engine (max 2 (2 * e.size - 1))).enumerate e c = (h.engine m).enumerate e c :=
      (h.agreesUpTo_engine hm).lists e c (le_max_left _ _) (le_max_right _ _)
    exact (hlist (by omega)).symm.trans (hlist (by omega))

/-- An expression asks its parts as if each stood by itself. -/
theorem Host.matches_evaluator (h : Host) (e : Expr) : (h.evaluator.next h).Matches h.evaluator e := by
  have hnext : (h.evaluator.next h).AgreesUpTo (h.engine (2 * e.size + 1)) (2 * e.size + 1) :=
    (h.agreesUpTo_evaluator (2 * e.size)).next
  exact (hnext.answers e (by omega)).trans
    ((h.agreesUpTo_evaluator (2 * e.size + 1)).answers e (by omega)).symm

namespace Expr

theorem evaluate_eq (e : Expr) (c : Context) : e.evaluate h c = h.evaluator.ruleValue h e c :=
  ((h.matches_evaluator e).value c).symm

theorem evaluateAsBool_eq (e : Expr) (c : Context) :
    e.evaluateAsBool h c = h.evaluator.ruleTruth h e c := ((h.matches_evaluator e).truth c).symm

theorem evaluateAsNumber_eq (e : Expr) (c : Context) :
    e.evaluateAsNumber h c = h.evaluator.ruleNumber h e c := ((h.matches_evaluator e).number c).symm

theorem enumerate_eq (e : Expr) (c : Context) :
    e.enumerate h c = h.evaluator.ruleEnumerate h e c := ((h.matches_evaluator e).enumerate c).symm

theorem enumerate_sorted (selection : Expr) (keys : List SortKey) (c : Context) :
    (sorted selection keys).enumerate h c = h.evaluator.sort h.forest selection keys c :=
  enumerate_eq _ _

end Expr

end XPath
