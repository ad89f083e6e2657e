import XPath.Proofs.Policy.Engine

/-!
# Contexts that agree

Two contexts agree on a mask if the facets of the mask are the same in both. An operator, a call, a
filter, a path and a sort come to the same in contexts that agree on what they read, if their parts
do. That holds of two engines, one for each context, as it does of one engine in both.
-/

namespace XPath

variable {E E' : Engine} {F : Forest} {c c' : Context} {d m : Dependencies} {e lhs rhs : Expr}
  {n : Node} {k : Nat} {l : LastPosition} {op : BinaryOperator} {predicate : Expr}

/-- The facets of the mask are the same in both contexts. -/
structure Context.AgreeOn (d : Dependencies) (c c' : Context) : Prop where
  valueOf : d.bit 0 = true → ∀ name, c.valueOf name = c'.valueOf name
  currentNode : d.bit 2 = true → c.currentNode? = c'.currentNode?
  contextNode : d.bit 3 = true → c.contextNode? = c'.contextNode?
  position : d.bit 4 = true → c.position = c'.position
  last : d.bit 5 = true → c.lastPosition = c'.lastPosition
  controller : d.bit 6 = true → c.controller? = c'.controller?

namespace Context.AgreeOn

theorem refl (d : Dependencies) (c : Context) : c.AgreeOn d c :=
  ⟨fun _ _ => rfl, fun _ => rfl, fun _ => rfl, fun _ => rfl, fun _ => rfl, fun _ => rfl⟩

theorem mono (h : c.AgreeOn d c') (hm : ∀ i, m.bit i = true → d.bit i = true) : c.AgreeOn m c' where
  valueOf hi := h.valueOf (hm 0 hi)
  currentNode hi := h.currentNode (hm 2 hi)
  contextNode hi := h.contextNode (hm 3 hi)
  position hi := h.position (hm 4 hi)
  last hi := h.last (hm 5 hi)
  controller hi := h.controller (hm 6 hi)

theorem left {a b : Dependencies} (h : c.AgreeOn (a ||| b) c') : c.AgreeOn a c' :=
  h.mono fun i hi => by rw [Dependencies.bit_or, hi, Bool.true_or]

theorem right {a b : Dependencies} (h : c.AgreeOn (a ||| b) c') : c.AgreeOn b c' :=
  h.mono fun i hi => by rw [Dependencies.bit_or, hi, Bool.or_true]

theorem left_and {a b : Dependencies} (h : c.AgreeOn ((a ||| b) &&& m) c') :
    c.AgreeOn (a &&& m) c' :=
  h.mono fun i hi => by
    simp only [Dependencies.bit_and, Dependencies.bit_or, Bool.and_eq_true] at hi ⊢
    simp [hi]

theorem right_and {a b : Dependencies} (h : c.AgreeOn ((a ||| b) &&& m) c') :
    c.AgreeOn (b &&& m) c' :=
  h.mono fun i hi => by
    simp only [Dependencies.bit_and, Dependencies.bit_or, Bool.and_eq_true] at hi ⊢
    simp [hi]

theorem and_outer {a : Dependencies} (h : c.AgreeOn ((a &&& .outer) &&& m) c') :
    c.AgreeOn (a &&& (m &&& .outer)) c' :=
  h.mono fun i hi => by
    simp only [Dependencies.bit_and, Bool.and_eq_true] at hi ⊢
    exact ⟨⟨hi.1, hi.2.2⟩, hi.2.1⟩

/-- Contexts that agree outside the focus agree on everything once it is the same. -/
theorem forItem (h : c.AgreeOn (d &&& .outer) c') :
    (c.forItem n k l).AgreeOn d (c'.forItem n k l) where
  valueOf hi := h.valueOf (by simp [hi])
  currentNode hi := h.currentNode (by simp [hi])
  contextNode _ := rfl
  position _ := rfl
  last _ := rfl
  controller hi := h.controller (by simp [hi])

theorem contextNode_eq (h : c.AgreeOn d c') (hd : d.bit 3 = true) : c.contextNode = c'.contextNode := by
  unfold Context.contextNode
  rw [h.contextNode hd]

theorem currentNode_eq (h : c.AgreeOn d c') (hd : d.bit 2 = true) : c.currentNode = c'.currentNode := by
  unfold Context.currentNode
  rw [h.currentNode hd]

theorem last_eq (h : c.AgreeOn d c') (hd : d.bit 5 = true) : c.last = c'.last := by
  unfold Context.last
  rw [h.last hd]

end Context.AgreeOn

/-- The engine answers about the expression alike in both contexts, apart from its value. -/
structure Engine.Answers (E : Engine) (e : Expr) (c c' : Context) : Prop where
  truth : E.truth e c = E.truth e c'
  number : E.number e c = E.number e c'
  text : E.text e c = E.text e c'
  first : E.first e c = E.first e c'
  enumerate : E.enumerate e c = E.enumerate e c'

/-- The engine answers about the expression alike in both contexts, and the nodes of its value are the
same in both. -/
structure Engine.Alike (E : Engine) (e : Expr) (c c' : Context) : Prop
    extends E.Answers e c c' where
  value : E.value e c = E.value e c'
  nodes : ∀ v, E.value e c = .ok v → v.toNodeSet c = v.toNodeSet c'

/-- What one engine answers about the expression in the one context, the other engine answers in the
other context, apart from the value. -/
structure Engine.Corresponds (E : Engine) (c : Context) (E' : Engine) (c' : Context) (e : Expr) :
    Prop where
  truth : E.truth e c = E'.truth e c'
  number : E.number e c = E'.number e c'
  text : E.text e c = E'.text e c'
  first : E.first e c = E'.first e c'
  enumerate : E.enumerate e c = E'.enumerate e c'

namespace Engine

theorem Answers.corresponds (h : E.Answers e c c') : E.Corresponds c E c' e :=
  ⟨h.truth, h.number, h.text, h.first, h.enumerate⟩

theorem Corresponds.answers (h : E.Corresponds c E c' e) : E.Answers e c c' :=
  ⟨h.truth, h.number, h.text, h.first, h.enumerate⟩

/-! ## Operators -/

/-- A comparison asks for the values of its operands, another operator does not. -/
theorem binary_congr (hl : E.Corresponds c E' c' lhs) (hr : E.Corresponds c E' c' rhs)
    (hvalues : op.isComparison = true → E.value lhs c = E'.value lhs c' ∧
      E.value rhs c = E'.value rhs c') :
    E.binary F op lhs rhs c = E'.binary F op lhs rhs c' := by
  unfold Engine.binary
  cases op <;> simp only [hl.truth, hr.truth, hl.number, hr.number] <;>
    rw [(hvalues rfl).1, (hvalues rfl).2]

theorem compareNode_congr {v : Value} (he : E.Corresponds c E' c' e) :
    E.compareNode F e op v c = E'.compareNode F e op v c' := by
  unfold Engine.compareNode
  rw [he.first]

/-! ## Filters, steps and paths -/

/-- A predicate is asked for its value only if that may be a number or not. -/
theorem passes_congr (hp : E.Corresponds c E' c' predicate)
    (hvalue : predicate.predicateKind = .either → E.value predicate c = E'.value predicate c')
    (hposition : c.position = c'.position) :
    E.passes F predicate c = E'.passes F predicate c' := by
  unfold Engine.passes
  cases hkind : predicate.predicateKind with
  | constant x => simp only [hposition]
  | positional => simp only [hp.number, hposition]
  | boolean => exact hp.truth
  | either => simp only [hvalue hkind, hposition]

theorem Alike.passes (hp : E.Alike predicate c c') (hposition : c.position = c'.position) :
    E.passes F predicate c = E.passes F predicate c' :=
  passes_congr hp.corresponds (fun _ => hp.value) hposition

variable (hp : ∀ n k l, E.passes F predicate (c.forItem n k l) =
  E'.passes F predicate (c'.forItem n k l))

include hp

theorem filterItems_congr {size : ListSize} (items : List Item) (position : Nat) (skipped : Bool) :
    filterItems E F predicate c size position skipped items =
      filterItems E' F predicate c' size position skipped items := by
  induction items generalizing position skipped with
  | nil => rw [filterItems, filterItems]
  | cons item items ih =>
      cases item with
      | error e => cases skipped <;> simp only [filterItems, ih]
      | ok n =>
          cases skipped with
          | true => simp only [filterItems, ih]
          | false =>
              unfold filterItems
              simp only [hp, ih]

theorem readsToEnd_congr (items : List Item) (position : Nat) (skipped : Bool) :
    readsToEnd E F predicate c position skipped items =
      readsToEnd E' F predicate c' position skipped items := by
  induction items generalizing position skipped with
  | nil => rw [readsToEnd, readsToEnd]
  | cons item items ih =>
      cases item with
      | error e => simp only [readsToEnd, ih]
      | ok n =>
          cases skipped with
          | true => simp only [readsToEnd, ih]
          | false =>
              unfold readsToEnd
              simp only [hp, ih]

theorem filter_congr (base : Enumeration) :
    E.filter F base predicate c = E'.filter F base predicate c' := by
  unfold Engine.filter
  simp only [filterItems_congr hp, readsToEnd_congr hp]

omit hp

variable {predicates : List Expr}
  (hps : ∀ p ∈ predicates, ∀ n k l, E.passes F p (c.forItem n k l) =
    E'.passes F p (c'.forItem n k l))

include hps

theorem step_congr (axis : Axis) (test : NodeTest) (n : Node) :
    E.step F axis test predicates c n = E'.step F axis test predicates c' n := by
  unfold Engine.step
  generalize axisEnumeration F axis n (some test) = base
  induction predicates generalizing base with
  | nil => rfl
  | cons p predicates ih =>
      rw [List.foldl_cons, List.foldl_cons, filter_congr (hps p List.mem_cons_self)]
      exact ih (fun q hq => hps q (List.mem_cons_of_mem _ hq)) _

theorem path_congr (base : Enumeration) (axis : Axis) (test : NodeTest) (one : Bool) :
    E.path F base axis test predicates c one = E'.path F base axis test predicates c' one := by
  unfold Engine.path
  simp only [step_congr hps]

omit hps

/-! ## Sorts -/

/-- What one engine answers about the parts of a sort key in the one context, the other engine answers
in the other context. -/
structure KeysCorrespond (E : Engine) (c : Context) (E' : Engine) (c' : Context) (s : SortKey) :
    Prop where
  key : ∀ n k l, E.text s.key (c.forItem n k l) = E'.text s.key (c'.forItem n k l)
  order : ∀ e, s.order = some e → E.text e c = E'.text e c'
  dataType : ∀ e, s.dataType = some e → E.text e c = E'.text e c'
  caseOrder : ∀ e, s.caseOrder = some e → E.text e c = E'.text e c'
  lang : ∀ e, s.lang = some e → E.text e c = E'.text e c'

theorem sortAttribute_congr {a : Option Expr} (ha : ∀ e, a = some e → E.text e c = E'.text e c')
    (default : String) : E.sortAttribute c a default = E'.sortAttribute c' a default := by
  cases a with
  | none => rfl
  | some e => exact ha e rfl

theorem comparer_congr {s : SortKey} (hs : E.KeysCorrespond c E' c' s) :
    E.comparer c s = E'.comparer c' s := by
  have hcomparer (lowerFirst : Option Bool) :
      E.textComparer c s.lang lowerFirst = E'.textComparer c' s.lang lowerFirst := by
    unfold Engine.textComparer
    cases hlang : s.lang with
    | none => cases lowerFirst <;> rfl
    | some e => simp only [hs.lang e hlang]
  unfold Engine.comparer
  simp only [sortAttribute_congr hs.order, sortAttribute_congr hs.caseOrder,
    sortAttribute_congr hs.dataType, hcomparer]

theorem sortValues_congr {ks : List (SortKey × Comparer)}
    (hks : ∀ k ∈ ks, E.text k.1.key c = E'.text k.1.key c') :
    E.sortValues c ks = E'.sortValues c' ks := by
  induction ks with
  | nil => rfl
  | cons k ks ih =>
      rw [Engine.sortValues, Engine.sortValues, hks k List.mem_cons_self,
        ih fun k hk => hks k (List.mem_cons_of_mem _ hk)]

theorem sort_congr {ks : List SortKey} (he : E.enumerate e c = E'.enumerate e c')
    (hks : ∀ s ∈ ks, E.KeysCorrespond c E' c' s) : E.sort F e ks c = E'.sort F e ks c' := by
  have hcomparers : ks.mapM (E.comparer c) = ks.mapM (E'.comparer c') :=
    mapM_congr fun s hs => comparer_congr (hks s hs)
  have hvalues (n : Node) (k : Nat) (l : LastPosition) (comparers : List Comparer) :
      E.sortValues (c.forItem n k l) (ks.zip comparers) =
        E'.sortValues (c'.forItem n k l) (ks.zip comparers) :=
    sortValues_congr fun s hs => (hks s.1 (List.of_mem_zip hs).1).key n k l
  unfold Engine.sort
  simp only [hcomparers, he, hvalues]

/-! ## Templates -/

theorem texts_congr {parts : List TemplatePart}
    (hparts : ∀ e, .expr e ∈ parts → E.text e c = E'.text e c') :
    parts.mapM (ruleValue.text E · c) = parts.mapM (ruleValue.text E' · c') := by
  refine mapM_congr fun p hp => ?_
  cases p with
  | text text => rfl
  | expr e => exact hparts e hp

/-! ## The next level -/

/-- All ways to ask for an expression but that for its value are by its nodes or by its value. -/
theorem corresponds_next {h : Host} (hlist : E.ruleEnumerate h e c = E'.ruleEnumerate h e c')
    (hvalue : e.isNodeSetExpression = false → E.ruleValue h e c = E'.ruleValue h e c') :
    (E.next h).Corresponds c (E'.next h) c' e := by
  have hfirst : E.ruleFirst h e c = E'.ruleFirst h e c' := by
    rw [ruleFirst, ruleFirst, hlist]
  refine ⟨?_, ?_, ?_, hfirst, hlist⟩
  · show E.ruleTruth h e c = E'.ruleTruth h e c'
    unfold ruleTruth
    split
    · rw [hlist]
    · rw [hvalue (Bool.not_eq_true _ ▸ by assumption)]
  · show E.ruleNumber h e c = E'.ruleNumber h e c'
    unfold ruleNumber
    split
    · rw [hfirst]
    · rw [hvalue (Bool.not_eq_true _ ▸ by assumption)]
  · show E.ruleText h e c = E'.ruleText h e c'
    unfold ruleText
    split
    · rw [hfirst]
    · rw [hvalue (Bool.not_eq_true _ ▸ by assumption)]

end Engine

/-! ## Calls -/

/-- Functions that ask for the value of an argument, and not for a text, a number or a truth value
only. -/
def Builtin.readsValues : Builtin → Bool
  | count | id | key | document | localName | namespaceUri | name | generateId | sum => Bool.true
  | _ => Bool.false

/-- Two frames of one call, in contexts that agree on what the function reads, and through engines that
answer alike about the arguments. -/
structure CallFrame.AgreesWith (f : CallFrame) (E' : Engine) (c' : Context) : Prop where
  context : f.context.AgreeOn (intrinsicDependencies f.function f.args.length f.binding) c'
  arg : ∀ i, f.engine.Corresponds f.context E' c' (f.arg i)
  args : ∀ e ∈ f.args, f.engine.Corresponds f.context E' c' e
  values : f.function.readsValues = true → ∀ i,
    f.engine.value (f.arg i) f.context = E'.value (f.arg i) c' ∧
      ∀ v, f.engine.value (f.arg i) f.context = .ok v → v.toNodeSet f.context = v.toNodeSet c'

namespace CallFrame.AgreesWith

variable {f : CallFrame} (h : f.AgreesWith E' c')

abbrev other (f : CallFrame) (E' : Engine) (c' : Context) : CallFrame :=
  { f with engine := E', context := c' }

include h

theorem text (i : Nat) : f.text i = (other f E' c').text i := (h.arg i).text

theorem number (i : Nat) : f.number i = (other f E' c').number i := (h.arg i).number

theorem truth (i : Nat) : f.truth i = (other f E' c').truth i := (h.arg i).truth

section Values

variable (hreads : f.function.readsValues = true)

include hreads

theorem value (i : Nat) : f.value i = (other f E' c').value i := (h.values hreads i).1

theorem texts (i : Nat) : f.texts i = (other f E' c').texts i := by
  unfold CallFrame.texts
  rw [h.value hreads]

theorem nodeSet (i : Nat) : f.nodeSet i = (other f E' c').nodeSet i := by
  have hnodes := (h.values hreads i).2
  unfold CallFrame.nodeSet
  rw [← h.value hreads]
  refine bind_congr_of_ok rfl fun v hv => ?_
  match v with
  | .fragment x => exact hnodes _ hv
  | .nodeSet _ | .boolean _ | .number _ | .string _ | .object _ => rfl

end Values

/-- The context node is read only if no node was captured. -/
theorem focus (hr : (intrinsicDependencies f.function f.args.length .free).bit 3 = true) :
    f.focus = (other f E' c').focus := by
  unfold CallFrame.focus
  cases hb : f.binding.node with
  | some n => rfl
  | none =>
      refine h.context.contextNode_eq ?_
      rw [Meaning.bit_contextNode_intrinsic, hr, hb]
      rfl

theorem controller? (hr : (intrinsicDependencies f.function f.args.length .free).bit 6 = true) :
    f.controller? = (other f E' c').controller? := by
  unfold CallFrame.controller?
  cases hb : f.binding.controller with
  | bound k => rfl
  | unbound =>
      refine h.context.controller ?_
      rw [Meaning.bit_controller_intrinsic, hr, hb]
      rfl

theorem controller (hr : (intrinsicDependencies f.function f.args.length .free).bit 6 = true) :
    f.controller = (other f E' c').controller := by
  unfold CallFrame.controller
  rw [h.controller? hr]

/-- Functions that work on the context node read it when they are called without arguments. -/
theorem focus_of_default (hd : f.function.defaultsToContextNode = true)
    (hargs : f.args.isEmpty = true) : f.focus = (other f E' c').focus := by
  refine h.focus ?_
  rw [List.isEmpty_iff] at hargs
  rw [hargs]
  cases hf : f.function <;> rw [hf] at hd <;>
    first
    | cases hd; done
    | simp [intrinsicDependencies, CallBinding.free, Builtin.defaultsToContextNode]

theorem target (hd : f.function.defaultsToContextNode = true)
    (hreads : f.function.readsValues = true) : f.target = (other f E' c').target := by
  unfold CallFrame.target
  rw [← h.nodeSet hreads 0]
  split
  · rw [h.focus_of_default hd (by assumption)]
  · rfl

theorem ofTarget (hd : f.function.defaultsToContextNode = true)
    (hreads : f.function.readsValues = true) (name : Node → String) :
    f.ofTarget name = (other f E' c').ofTarget name := by
  unfold CallFrame.ofTarget
  rw [h.target hd hreads]

theorem textOrFocus (hd : f.function.defaultsToContextNode = true) :
    f.textOrFocus = (other f E' c').textOrFocus := by
  unfold CallFrame.textOrFocus
  rw [← h.text 0]
  split
  · rw [h.focus_of_default hd (by assumption)]
  · rfl

omit h in
theorem loadAll (k : Controller) (base : Option Node) (items : List Item) :
    CallFrame.documents.loadAll (other f E' c') k base items =
      CallFrame.documents.loadAll f k base items := by
  induction items with
  | nil => rfl
  | cons item items ih =>
      cases item with
      | error e => rfl
      | ok n => rw [CallFrame.documents.loadAll, CallFrame.documents.loadAll, ih]

theorem documents (hr : (intrinsicDependencies f.function f.args.length .free).bit 6 = true)
    (hreads : f.function.readsValues = true) : f.documents = (other f E' c').documents := by
  unfold CallFrame.documents
  simp only [h.controller hr, h.nodeSet hreads, h.value hreads, loadAll]
  rfl

theorem formatNumber (hr : (intrinsicDependencies f.function f.args.length .free).bit 6 = true) :
    f.formatNumber = (other f E' c').formatNumber := by
  unfold CallFrame.formatNumber
  simp only [h.controller? hr, h.number, h.text]
  rfl

theorem systemProperty (hr : (intrinsicDependencies f.function f.args.length .free).bit 6 = true) :
    f.systemProperty = (other f E' c').systemProperty := by
  unfold CallFrame.systemProperty
  simp only [h.controller? hr, h.text]
  rfl

theorem run : f.run = (other f E' c').run := by
  have hreads := h.context
  have htexts : f.args.mapM (fun e => f.engine.text e f.context) =
      f.args.mapM (fun e => E'.text e c') := mapM_congr fun e he => (h.args e he).text
  unfold CallFrame.run
  dsimp only
  cases hf : f.function with
  | last =>
      rw [hf] at hreads
      rw [hreads.last_eq (by simp [intrinsicDependencies])]
  | position =>
      rw [hf] at hreads
      rw [hreads.position (by simp [intrinsicDependencies])]
  | current =>
      rw [hf] at hreads
      rw [hreads.currentNode_eq (by simp [intrinsicDependencies])]
  | count => rw [h.nodeSet (by rw [hf]; rfl)]
  | id =>
      dsimp only
      unfold CallFrame.elementsById
      rw [h.focus (by simp [hf, intrinsicDependencies, CallBinding.free]),
        h.texts (by rw [hf]; rfl)]
      rfl
  | key =>
      dsimp only
      unfold CallFrame.nodesByKey
      rw [h.focus (by simp [hf, intrinsicDependencies, CallBinding.free]),
        h.texts (by rw [hf]; rfl), h.text,
        h.controller (by simp [hf, intrinsicDependencies, CallBinding.free])]
      rfl
  | document =>
      exact h.documents (by simp [hf, intrinsicDependencies, CallBinding.free]) (by rw [hf]; rfl)
  | localName | namespaceUri | name | generateId => exact h.ofTarget (by rw [hf]; rfl) (by rw [hf]; rfl) _
  | not | boolean => rw [h.truth]
  | true | false => rfl
  | lang | unparsedEntityUri =>
      rw [h.text, h.focus (by simp [hf, intrinsicDependencies, CallBinding.free])]
  | number =>
      dsimp only
      rw [← h.number 0]
      split
      · rw [h.focus_of_default (by rw [hf]; rfl) (by assumption)]
      · rfl
  | floor | ceiling | round => rw [h.number]
  | sum =>
      dsimp only
      unfold CallFrame.sum
      rw [h.nodeSet (by rw [hf]; rfl)]
  | string | stringLength | normalizeSpace => rw [h.textOrFocus (by rw [hf]; rfl)]
  | startsWith | contains | substringBefore | substringAfter => rw [h.text, h.text]
  | substring => simp only [h.text, h.number]
  | translate => rw [h.text, h.text, h.text]
  | concat => rw [htexts]
  | formatNumber => exact h.formatNumber (by simp [hf, intrinsicDependencies, CallBinding.free])
  | systemProperty =>
      exact h.systemProperty (by simp [hf, intrinsicDependencies, CallBinding.free])
  | functionAvailable | elementAvailable => rw [h.text]; rfl

end CallFrame.AgreesWith

end XPath
