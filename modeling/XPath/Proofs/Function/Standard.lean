import XPath.Proofs.Evaluation.Operators
import XPath.Proofs.Meaning.Standard

/-!
# Built-in functions, by the standard

A call of a built-in function evaluates its arguments one after the other, lists node-sets and stops
at the first error. With arguments that have come to outcomes it comes to what the standard says of the
function (`Meaning.call_eq`): what a call asks for is what the application has, and from that follows
each function in turn (`Application.run_frame`).
-/

namespace XPath

/-! ## What a call asks for -/

namespace Application

def frame (a : Application) (function : Builtin) : CallFrame :=
  Meaning.frame a.forest function a.args a.binding a.context

variable (a : Application) (function : Builtin) (i : Nat)

theorem arg_frame : (a.frame function).arg i = .literal (a.arg i).value := Meaning.arg_frame i

@[simp] theorem text_frame : (a.frame function).text i = .ok (a.text i) := by
  rw [CallFrame.text, arg_frame]
  exact Engine.text_constants _

@[simp] theorem number_frame : (a.frame function).number i = .ok (a.number i) := by
  rw [CallFrame.number, arg_frame]
  exact Engine.number_constants _

@[simp] theorem truth_frame : (a.frame function).truth i = .ok (a.arg i).holds := by
  rw [CallFrame.truth, arg_frame]
  exact Engine.truth_constants _

@[simp] theorem value_frame : (a.frame function).value i = .ok (a.arg i).value :=
  Meaning.value_frame i

@[simp] theorem nodeSet_frame : ((a.frame function).nodeSet i).toOption =
    (a.nodes? i).map (NodeSet.ofNodes · true) := by
  unfold CallFrame.nodeSet nodes?
  rw [value_frame]
  cases a.arg i <;> rfl

@[simp] theorem texts_frame : (a.frame function).texts i = .ok (a.texts i) := by
  unfold CallFrame.texts texts
  rw [value_frame, ok_bind]
  cases a.arg i with
  | nodes ns =>
      change (do return (← (NodeSet.ofNodes ns true).toList a.forest).map a.forest.stringValue) = _
      rw [toList_value]
      rfl
  | boolean | number | string | object =>
      change (do return [← Value.toText a.forest (Outcome.value _)]) = _
      rw [toText_value]
      rfl

@[simp] theorem mapM_text_frame : ((a.frame function).args.mapM fun e =>
    (a.frame function).engine.text e a.context) = .ok (a.args.map (·.text a.forest)) := by
  rw [mapM_eq_ok]
  unfold frame Meaning.frame
  rw [List.forall₂_map_left_iff, List.forall₂_map_right_iff, List.forall₂_same]
  exact fun w _ => Engine.text_constants w

@[simp] theorem focus_frame : (a.frame function).focus.toOption = a.focus? := by
  unfold CallFrame.focus frame Meaning.frame focus? Context.contextNode
  cases a.binding.node <;> cases a.context.contextNode? <;> rfl

@[simp] theorem controller?_frame : (a.frame function).controller? = a.controller? := rfl

@[simp] theorem controller_frame : (a.frame function).controller.toOption = a.controller? := by
  unfold CallFrame.controller
  rw [controller?_frame]
  cases a.controller? <;> rfl

@[simp] theorem scope_frame : (a.frame function).scope = a.scope := rfl

@[simp] theorem forest_frame : (a.frame function).forest = a.forest := rfl

@[simp] theorem function_frame : (a.frame function).function = function := rfl

@[simp] theorem context_frame : (a.frame function).context = a.context := rfl

@[simp] theorem isEmpty_args_frame : (a.frame function).args.isEmpty = a.args.isEmpty := by
  unfold frame Meaning.frame
  cases a.args <;> rfl

@[simp] theorem length_args_frame : (a.frame function).args.length = a.args.length := by
  simp [frame, Meaning.frame]

/-! ## What the functions come to -/

@[simp] theorem outcome_ofNodes_frame (ns : List Node) :
    ((a.frame function).ofNodes ns).outcome a.forest = .nodes (a.forest.inOrder ns) :=
  outcome_ofNodes a.forest ns

theorem ofTarget_frame (say : Node → String) :
    ((a.frame function).ofTarget say).toOption.map (·.outcome a.forest) = a.ofTarget say := by
  unfold CallFrame.ofTarget CallFrame.target ofTarget
  rw [isEmpty_args_frame]
  split <;> simp [Option.map_eq_bind, Option.bind_assoc, Value.outcome]

theorem textOrFocus_frame : (a.frame function).textOrFocus.toOption = a.textOrFocus := by
  unfold CallFrame.textOrFocus textOrFocus
  rw [isEmpty_args_frame]
  split <;> simp

theorem elementsById_frame :
    (a.frame function).elementsById.toOption.map (·.outcome a.forest) = a.elementsById := by
  unfold CallFrame.elementsById elementsById
  simp [Option.map_bind]

theorem nodesByKey_frame :
    (a.frame function).nodesByKey.toOption.map (·.outcome a.forest) = a.nodesByKey := by
  unfold CallFrame.nodesByKey nodesByKey name?
  simp [Option.map_eq_bind, Option.bind_assoc]

theorem systemProperty_frame :
    (a.frame function).systemProperty.toOption.map (·.outcome a.forest) = a.systemProperty := by
  unfold CallFrame.systemProperty systemProperty name?
  simp only [toOption_bind, text_frame, toOption_ok, Option.bind_some, scope_frame, beq_iff_eq,
    Option.map_bind]
  congr 1
  funext name
  dsimp only [Function.comp_def]
  split
  · simp only [toOption_pure, Option.map_some]
    split <;> simp_all [Value.outcome]
  · rfl

theorem sum_frame : (a.frame function).sum.toOption.map (·.outcome a.forest) =
    (a.nodes? 0).map fun ns => .number (a.sum ns) := by
  unfold CallFrame.sum sum
  simp only [toOption_bind, nodeSet_frame, Option.map_eq_bind, Option.bind_assoc]
  cases a.nodes? 0 with
  | none => rfl
  | some ns =>
      simp [Value.outcome]
      rfl

theorem formatNumber_frame :
    (a.frame function).formatNumber.toOption.map (·.outcome a.forest) = a.formatNumber := by
  unfold CallFrame.formatNumber formatNumber name?
  simp only [length_args_frame, beq_iff_eq, number_frame, text_frame, scope_frame,
    controller?_frame, ok_bind]
  split
  · simp only [toOption_bind, Option.map_bind]
    congr 1
    funext name
    dsimp only [Function.comp_def]
    cases a.controller?.bind fun k => k.decimalFormat? (some name) with
    | none => rfl
    | some format => simp [Option.map_eq_bind, Option.bind_assoc, Value.outcome]
  · simp [Option.map_eq_bind, Option.bind_assoc, Value.outcome]

theorem loadAll_frame (k : Controller) (base : Option Node) (ns : List Node) :
    (CallFrame.documents.loadAll (a.frame function) k base (ns.map .ok)).toOption =
      ns.mapM fun n => (k.loadDocument (a.forest.stringValue n) (base.or (some n))).toOption := by
  induction ns with
  | nil => rfl
  | cons n ns ih =>
      rw [List.map_cons, CallFrame.documents.loadAll, List.mapM_cons]
      simp only [toOption_bind, ih, forest_frame, toOption_pure]
      rfl

theorem documentsFrom_frame (k : Controller) (base : Option Node) :
    ((a.frame function).documentsFrom a.forest k base).toOption.map (·.outcome a.forest) =
      (a.roots k base).map fun roots => .nodes (a.forest.inOrder roots) := by
  unfold CallFrame.documentsFrom roots
  rw [value_frame, ok_bind]
  cases a.arg 0 with
  | nodes ns =>
      change Option.map _ (do
        let enumeration ← (NodeSet.ofNodes ns true).enumerate a.forest
        return (a.frame function).ofNodes (← CallFrame.documents.loadAll (a.frame function) k base
          enumeration.items)).toOption = _
      rw [enumerate_value, ok_bind]
      simp [loadAll_frame, Option.map_eq_bind, Option.bind_assoc, Enumeration.ofNodes]
  | boolean | number | string | object =>
      change Option.map _ (do
        return (a.frame function).ofNodes
          [← k.loadDocument (← (Outcome.value _).toText a.forest) base]).toOption = _
      rw [toText_value, ok_bind]
      simp [Option.map_eq_bind, Option.bind_assoc]

theorem documents_frame :
    (a.frame function).documents.toOption.map (·.outcome a.forest) = a.documents := by
  unfold CallFrame.documents documents
  simp only [length_args_frame, beq_iff_eq, forest_frame, toOption_bind, controller_frame,
    Option.map_bind]
  congr 1
  funext k
  dsimp only [Function.comp_def]
  split
  · change Option.map _ ((a.frame function).nodeSet 1 >>= fun s => s.first? a.forest >>= fun base =>
      (a.frame function).documentsFrom a.forest k base).toOption = _
    rw [toOption_bind, nodeSet_frame]
    cases a.nodes? 1 with
    | none => rfl
    | some ns =>
        rw [Option.map_some, Option.bind_some, first?_value, ok_bind, documentsFrom_frame,
          Option.map_eq_bind]
        rfl
  · change Option.map _ ((a.frame function).documentsFrom a.forest k none).toOption = _
    rw [documentsFrom_frame, Option.map_eq_bind]
    rfl

theorem run_frame :
    (a.frame function).run.toOption.map (·.outcome a.forest) = a.result function := by
  unfold CallFrame.run
  rw [function_frame]
  cases function with
  | last =>
      dsimp only [result]
      rw [context_frame]
      unfold Context.last
      cases a.context.lastPosition <;> rfl
  | position => rfl
  | count => simp [result, Option.map_eq_bind, Option.bind_assoc, Value.outcome]
  | current =>
      dsimp only [result]
      rw [context_frame]
      unfold Context.currentNode
      cases a.context.currentNode? with
      | none => rfl
      | some n =>
          exact congrArg (fun ns => some (Outcome.nodes ns))
            (Forest.inOrder_of_ascending (Forest.ascending_singleton a.forest n))
  | id => exact elementsById_frame ..
  | key => exact nodesByKey_frame ..
  | document => exact documents_frame ..
  | localName | namespaceUri | name | generateId => exact ofTarget_frame ..
  | true | false => rfl
  | not | boolean => simp [result, Value.outcome]
  | lang | unparsedEntityUri => simp [result, Value.outcome, Function.comp_def]
  | number =>
      dsimp only [result]
      rw [isEmpty_args_frame]
      split <;> simp [Value.outcome, Function.comp_def, Forest.numberValue]
  | floor | ceiling | round => simp [result, Value.outcome]
  | sum => exact sum_frame ..
  | string | stringLength | normalizeSpace =>
      simp [result, Value.outcome, Function.comp_def, textOrFocus_frame]
  | startsWith | contains | substringBefore | substringAfter | translate =>
      simp [result, Value.outcome]
  | substring =>
      dsimp only [result]
      simp only [length_args_frame, beq_iff_eq]
      split <;> simp [Value.outcome, Except.map]
  | concat => simp [result, Value.outcome]
  | formatNumber => exact formatNumber_frame ..
  | systemProperty => exact systemProperty_frame ..
  | functionAvailable | elementAvailable => simp [result, Value.outcome, name?, Function.comp_def]

end Application

theorem Meaning.call_eq (F : Forest) (function : Builtin) (As : List Meaning) (b : CallBinding) :
    call F function As b = apply F function As b := by
  funext σ
  have hrun := Application.run_frame ⟨F, As.map fun A => A σ, b, σ⟩ function
  rw [apply, ← hrun]
  unfold call Application.frame
  cases (frame F function (As.map fun A => A σ) b σ).run <;> rfl

end XPath
