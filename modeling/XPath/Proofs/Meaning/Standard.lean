import XPath.Proofs.Meaning.Reading
import XPath.Proofs.NodeSet.Comparison

/-!
# The reading of the standard

What XPath 1.0 says that an expression comes to, written down on its own: a comparison asks for a pair
of items that is in the relation, and a function is what it makes of the outcomes of its arguments.
Nothing here compares extremes, and nothing is listed, sorted or stopped early.

An expression comes to that (`Expr.standard`) where the comparisons that it makes of two node-sets are
decided by their pairs (`Expr.ComparesPairs`), in the context and in those in which its predicates are
tested.
-/

namespace XPath

variable {F : Forest} {w : Outcome} {A B : Meaning} {σ : Context} {ns : List Node}

/-! ## Comparisons -/

namespace Outcome

/-- What is compared of an operand beside another one: whether it has nodes beside a truth value, or
else the string value of one node after the other. Any other operand is its own item. -/
def items (F : Forest) : Outcome → Outcome → List Outcome
  | nodes ns, boolean _ => [boolean !ns.isEmpty]
  | nodes ns, _ => ns.map fun n => string (F.stringValue n)
  | w, _ => [w]

/-- Equality of two items: as truth values if one is a truth value, else as numbers if one is a
number, else as texts. -/
def equals (F : Forest) (a b : Outcome) : Bool :=
  match a, b with
  | boolean _, _ | _, boolean _ => a.holds == b.holds
  | number _, _ | _, number _ => a.toNumber F == b.toNumber F
  | _, _ => a.text F == b.text F

def relates (F : Forest) (op : BinaryOperator) (a b : Outcome) : Bool :=
  match op with
  | .equals => a.equals F b
  | .notEquals => !a.equals F b
  | op => op.compareNumbers (a.toNumber F) (b.toNumber F)

/-- The comparison of two operands: some item of the one is in the relation with some item of the
other. -/
def compareAny (F : Forest) (op : BinaryOperator) (a b : Outcome) : Bool :=
  (a.items F b).any fun x => (b.items F a).any fun y => x.relates F op y

def operate (F : Forest) (op : BinaryOperator) (a b : Outcome) : Outcome :=
  if op.isComparison then boolean (a.compareAny F op b) else a.binary F op b

/-- If both operands are node-sets, then a pair of nodes decides whether they are in the relation. -/
def ComparesPairs (F : Forest) (op : BinaryOperator) (a b : Outcome) : Prop :=
  ∀ as bs, a = nodes as → b = nodes bs → ¬op.OpenEnded F as bs

end Outcome

/-! ## Functions -/

/-- A built-in function applied to outcomes. -/
structure Application where
  forest : Forest
  args : List Outcome
  binding : CallBinding
  context : Context

namespace Application

variable (a : Application)

def arg (i : Nat) : Outcome := a.args[i]?.getD (.string "")

def text (i : Nat) : String := (a.arg i).text a.forest

def number (i : Nat) : Float := (a.arg i).toNumber a.forest

def nodes? (i : Nat) : Option (List Node) :=
  match a.arg i with
  | .nodes ns => some ns
  | _ => none

def texts (i : Nat) : List String :=
  match a.arg i with
  | .nodes ns => ns.map a.forest.stringValue
  | w => [w.text a.forest]

def scope : NameScope := a.binding.scope.getD .empty

def name? (i : Nat) : Option ExpandedName := (a.scope.resolve (a.text i)).toOption

def focus? : Option Node := a.binding.node.or a.context.contextNode?

def controller? : Option Controller :=
  match a.binding.controller with
  | .bound k => k
  | .unbound => a.context.controller?

def ofTarget (say : Node → String) : Option Outcome := do
  let target ← if a.args.isEmpty then a.focus?.map some else (a.nodes? 0).map List.head?
  return .string ((target.map say).getD "")

def textOrFocus : Option String :=
  if a.args.isEmpty then a.focus?.map a.forest.stringValue else some (a.text 0)

def elementsById : Option Outcome := do
  let document := a.forest.documentRoot (← a.focus?)
  let words := (a.texts 0).flatMap Text.words
  return .nodes (a.forest.inOrder (words.filterMap (a.forest.elementById? document)))

def nodesByKey : Option Outcome := do
  let name ← a.name? 0
  let document := a.forest.documentRoot (← a.focus?)
  let k ← a.controller?
  let found ← (a.texts 1).mapM fun value => (k.selectByKey name value document).toOption
  return .nodes (a.forest.inOrder found.flatten)

def roots (k : Controller) (base : Option Node) : Option (List Node) :=
  match a.arg 0 with
  | .nodes ns =>
    ns.mapM fun n => (k.loadDocument (a.forest.stringValue n) (base.or (some n))).toOption
  | w => (k.loadDocument (w.text a.forest) base).toOption.map ([·])

def documents : Option Outcome := do
  let k ← a.controller?
  let base ← if a.args.length = 2 then (a.nodes? 1).map List.head? else some none
  return .nodes (a.forest.inOrder (← a.roots k base))

def formatNumber : Option Outcome := do
  let format ← if a.args.length = 3 then do
      (a.controller?.bind (·.decimalFormat? (some (← a.name? 2))))
    else some ((a.controller?.bind (·.decimalFormat? none)).getD {})
  return .string (← (format.format (a.number 0) (a.text 1)).toOption)

def systemProperty : Option Outcome := do
  let name ← a.name? 0
  if name.uri = stylesheetNamespace then
    return match name.localPart with
      | "version" => .number 1
      | "vendor" => .string vendor
      | "vendor-url" => .string vendorAddress
      | _ => .string ""
  return .string ((a.controller?.bind (·.systemProperty? name)).getD "")

def sum (ns : List Node) : Float := ns.foldl (fun total n => total + a.forest.numberValue n) 0

/-- What the function comes to, unless there is an error. -/
def result : Builtin → Option Outcome
  | .last =>
    match a.context.lastPosition with
    | .known k => some (.number (Float.ofNat k))
    | .unknown | .pending => none
  | .position => some (.number (Float.ofNat a.context.position))
  | .count => (a.nodes? 0).map fun ns => .number (Float.ofNat ns.length)
  | .current => a.context.currentNode?.map fun n => .nodes [n]
  | .id => a.elementsById
  | .key => a.nodesByKey
  | .document => a.documents
  | .localName => a.ofTarget fun n => ((a.forest.name? n).map (·.localPart)).getD ""
  | .namespaceUri => a.ofTarget fun n => ((a.forest.name? n).map (·.namespaceUri)).getD ""
  | .name => a.ofTarget fun n => ((a.forest.name? n).map (·.display)).getD ""
  | .generateId => a.ofTarget fun n =>
    "d" ++ toString (a.forest.orderKey n).document ++ "n" ++ toString (a.forest.orderKey n).sequence
  | .not => some (.boolean !(a.arg 0).holds)
  | .true => some (.boolean true)
  | .false => some (.boolean false)
  | .boolean => some (.boolean (a.arg 0).holds)
  | .lang => a.focus?.map fun n => .boolean (a.forest.isInLanguage (a.text 0) n)
  | .number =>
    if a.args.isEmpty then a.focus?.map fun n => .number (a.forest.numberValue n)
    else some (.number (a.number 0))
  | .floor => some (.number (Number.floor (a.number 0)))
  | .ceiling => some (.number (Number.ceiling (a.number 0)))
  | .round => some (.number (Number.round (a.number 0)))
  | .sum => (a.nodes? 0).map fun ns => .number (a.sum ns)
  | .string => a.textOrFocus.map .string
  | .startsWith => some (.boolean (Text.startsWith (a.text 0) (a.text 1)))
  | .stringLength => a.textOrFocus.map fun s => .number (Float.ofNat s.length)
  | .substring =>
    let length := if a.args.length = 3 then some (a.number 2) else none
    some (.string (Text.substring (a.text 0) (a.number 1) length))
  | .contains => some (.boolean (Text.contains (a.text 0) (a.text 1)))
  | .substringBefore => some (.string (Text.before (a.text 0) (a.text 1)))
  | .substringAfter => some (.string (Text.after (a.text 0) (a.text 1)))
  | .normalizeSpace => a.textOrFocus.map fun s => .string (Text.normalizeSpace s)
  | .translate => some (.string (Text.translate (a.text 0) (a.text 1) (a.text 2)))
  | .concat => some (.string (String.join (a.args.map (·.text a.forest))))
  | .formatNumber => a.formatNumber
  | .systemProperty => a.systemProperty
  | .functionAvailable => (a.name? 0).map fun name => .boolean (a.scope.functionAvailable name)
  | .elementAvailable => (a.name? 0).map fun name => .boolean (a.scope.elementAvailable name)
  | .unparsedEntityUri => a.focus?.map fun _ => .string ""

end Application

/-! ## Expressions -/

namespace Meaning

def apply (F : Forest) (function : Builtin) (As : List Meaning) (binding : CallBinding) : Meaning :=
  fun σ => (Application.result ⟨F, As.map fun A => A σ, binding, σ⟩ function).getD
    (.ofType function.dataType)

/-- The attributes of a name on a bound node or else on the context node. -/
def attributesNamed (F : Forest) (name : ExpandedName) (bound : Option Node) : Meaning := fun σ =>
  .nodes ((bound.or σ.contextNode?).toList.flatMap fun n =>
    (F.attributes n).filter (NodeTest.accepts ⟨.attributeNode, .named name⟩ F))

end Meaning

namespace Expr

variable (F)

mutual

/-- What the expression comes to by the standard. A sort changes the order of nodes only, and an
error comes to nothing. -/
def standard : Expr → Meaning
  | literal v => fun _ => v.outcome F
  | reference _ _ (some v) => fun _ => v.outcome F
  | reference name _ none => .binding F name
  | binary op lhs rhs => fun σ => (lhs.standard σ).operate F op (rhs.standard σ)
  | negate e => fun σ => .number (-(e.standard σ).toNumber F)
  | nodeComparison node op v => fun σ => .boolean ((node.standard σ).compareAny F op (v.outcome F))
  | contextNode => .oneNode none some
  | parentNode => .oneNode none F.parent?
  | root => .oneNode none fun n => some (F.documentRoot n)
  | attributeNamed name _ parent => .attributesNamed F name parent
  | path start axis test predicates => .path F start.standard axis test (standards predicates)
  | filter base predicate => .filter base.standard predicate.standard
  | setOperation op lhs rhs => fun σ => .combine F op (lhs.standard σ) (rhs.standard σ)
  | call function args binding => .apply F function (standards args) binding
  | extension .. => fun _ => .nodes []
  | sorted selection _ => selection.standard
  | template parts => .template F (standardsOfParts parts)
  | failure _ => fun _ => .nodes []

def standards : List Expr → List Meaning
  | [] => []
  | e :: rest => e.standard :: standards rest

def standardsOfParts : List TemplatePart → List Meaning
  | [] => []
  | .text text :: rest => (fun _ => .string text) :: standardsOfParts rest
  | .expr e :: rest => e.standard :: standardsOfParts rest

end

end Expr

/-- The contexts in which a predicate sees the items of an outcome. -/
def Outcome.focuses (σ : Context) : Outcome → List Context
  | nodes ns => (ns.zipIdx 1).map fun (n, k) => σ.forItem n k (.known ns.length)
  | _ => [σ.forItem default 1 (.known 1)]

namespace Expr

variable (F)

mutual

/-- The comparisons that the expression makes in a context are decided by pairs of nodes. -/
def ComparesPairs : Expr → Context → Prop
  | binary op lhs rhs, σ => lhs.ComparesPairs σ ∧ rhs.ComparesPairs σ ∧
      (lhs.standard F σ).ComparesPairs F op (rhs.standard F σ)
  | nodeComparison node op v, σ => node.ComparesPairs σ ∧
      (node.standard F σ).ComparesPairs F op (v.outcome F)
  | negate e, σ => e.ComparesPairs σ
  | path start axis test predicates, σ => start.ComparesPairs σ ∧
      match start.standard F σ with
      | .nodes ns => ∀ n ∈ ns, ComparePairsOn predicates σ
          (.nodes ((F.onAxis axis n).filter (test.accepts F)))
      | w => ComparePairsOn predicates σ w
  | filter base predicate, σ => base.ComparesPairs σ ∧
      ∀ τ ∈ (base.standard F σ).focuses σ, predicate.ComparesPairs τ
  | setOperation _ lhs rhs, σ => lhs.ComparesPairs σ ∧ rhs.ComparesPairs σ
  | call _ args _, σ => ComparePairs args σ
  | sorted selection _, σ => selection.ComparesPairs σ
  | template parts, σ => ComparePairsInParts parts σ
  | literal _, _ | reference .., _ | contextNode, _ | parentNode, _ | root, _
  | attributeNamed .., _ | extension .., _ | failure _, _ => True

def ComparePairs : List Expr → Context → Prop
  | [], _ => True
  | e :: rest, σ => e.ComparesPairs σ ∧ ComparePairs rest σ

/-- The comparisons of predicates in turn, each tested on what the ones before it leave. -/
def ComparePairsOn : List Expr → Context → Outcome → Prop
  | [], _, _ => True
  | e :: rest, σ, w => (∀ τ ∈ w.focuses σ, e.ComparesPairs τ) ∧
      ComparePairsOn rest σ ((e.standard F).select σ w)

def ComparePairsInParts : List TemplatePart → Context → Prop
  | [], _ => True
  | .text _ :: rest, σ => ComparePairsInParts rest σ
  | .expr e :: rest, σ => e.ComparesPairs σ ∧ ComparePairsInParts rest σ

end

end Expr

end XPath
