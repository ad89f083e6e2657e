import XPath.Function.Apply
import XPath.Proofs.Meaning.Context

/-!
# Meanings of expressions

The meaning of an expression is its outcome in every context. It is built from the meanings of the
parts, without enumerations, flags or partial evaluation: a predicate sees each node with its
position and the length of the list, a path takes its steps from one node after the other, and
node-sets are ascending lists.

`Expr.Means e D` says that `D` is a meaning of `e`. A constant may be listed only in part, so it can
have several. A value that is filtered although it is no node-set counts as the one item of its
own list, and two lists are combined only if they are lists.
-/

namespace XPath

/-- The outcome in every context. -/
abbrev Meaning := Context → Outcome

variable {F : Forest}

/-! ## Outcomes -/

namespace Outcome

/-- The outcome that stands in where there is no result of a type. -/
def ofType : DataType → Outcome
  | .boolean => .boolean false
  | .number => .number (0.0 / 0.0)
  | .string | .any => .string ""
  | .nodeSet => .nodes []
  | .object => .object .null

def selects (w : Outcome) (k : Nat) : Bool :=
  match w with
  | number x => x == Float.ofNat k
  | w => w.holds

def binary (F : Forest) (op : BinaryOperator) (a b : Outcome) : Outcome :=
  match op with
  | .or => boolean (a.holds || b.holds)
  | .and => boolean (a.holds && b.holds)
  | .plus => number (a.toNumber F + b.toNumber F)
  | .minus => number (a.toNumber F - b.toNumber F)
  | .multiply => number (a.toNumber F * b.toNumber F)
  | .divide => number (a.toNumber F / b.toNumber F)
  | .modulo => number (Number.remainder (a.toNumber F) (b.toNumber F))
  | op => boolean (a.compare F op b)

/-- The outcome of a set operation. What is no node-set stays if the other side has no nodes. -/
def combine (F : Forest) (op : SetOperator) : Outcome → Outcome → Outcome
  | nodes as, nodes bs => nodes (F.combine op as bs)
  | nodes [], b => if op = .union then b else nodes []
  | a, nodes [] => if op = .intersect then nodes [] else a
  | _, _ => nodes []

end Outcome

/-! ## Meanings -/

namespace Meaning

def binding (F : Forest) (name : ExpandedName) : Meaning := fun σ =>
  match σ.valueOf name with
  | .ok v => v.outcome F
  | .error _ => .nodes []

def oneNode (bound : Option Node) (find : Node → Option Node) : Meaning := fun σ =>
  .nodes ((bound.or σ.contextNode?).bind find).toList

/-- The nodes of a list that pass a predicate, each tested at its position in the list. -/
def keep (B : Meaning) (σ : Context) (ns : List Node) : List Node :=
  ((ns.zipIdx 1).filter fun (n, k) =>
    (B (σ.forItem n k (.known ns.length))).selects k).map (·.1)

def select (B : Meaning) (σ : Context) : Outcome → Outcome
  | .nodes ns => .nodes (B.keep σ ns)
  | w => if (B (σ.forItem default 1 (.known 1))).selects 1 then w else .nodes []

/-- The nodes that a step selects from one node: the axis, then each predicate in turn. -/
def stepNodes (F : Forest) (axis : Axis) (test : NodeTest) (Bs : List Meaning) (σ : Context)
    (n : Node) : List Node :=
  Bs.foldl (fun ns B => B.keep σ ns) ((F.onAxis axis n).filter (test.accepts F))

/-- A filter expression numbers the nodes of its base in document order. -/
def filter (A B : Meaning) : Meaning := fun σ => B.select σ (A σ)

/-- A path takes its step from every node of the start. -/
def path (F : Forest) (A : Meaning) (axis : Axis) (test : NodeTest) (Bs : List Meaning) :
    Meaning := fun σ =>
  match A σ with
  | .nodes ns => .nodes (F.inOrder (ns.flatMap (stepNodes F axis test Bs σ)))
  | w =>
    if axis = .selfAxis ∧ test.kind = .node then Bs.foldl (fun w B => B.select σ w) w
    else .nodes []

def frame (F : Forest) (function : Builtin) (ws : List Outcome) (binding : CallBinding)
    (σ : Context) : CallFrame :=
  ⟨.constants F, F, function, ws.map fun w => .literal w.value, binding, σ⟩

def call (F : Forest) (function : Builtin) (As : List Meaning) (binding : CallBinding) :
    Meaning := fun σ =>
  match (frame F function (As.map fun A => A σ) binding σ).run with
  | .ok v => v.outcome F
  | .error _ => .ofType function.dataType

def template (F : Forest) (As : List Meaning) : Meaning := fun σ =>
  .string (String.join (As.map fun A => (A σ).text F))

end Meaning

structure KeyMeaning where
  key : Meaning
  order : Option Meaning
  dataType : Option Meaning
  caseOrder : Option Meaning
  lang : Option Meaning

def Forest.attributeNamed? (F : Forest) (name : ExpandedName) (n : Node) : Option Node :=
  (F.attributes n).find? fun a => (F.name? a).any (·.expanded == name)

/-! ## Functions of the host -/

/-- The answers of a function of the host: they depend on the outcomes of its arguments and on the
facets that it declares, and are of the type that it declares. -/
structure ExtensionFunction.Answers (F : Forest) (f : ExtensionFunction)
    (answer : List Outcome → Meaning) : Prop where
  reads : ∀ (m : Dependencies) (ws : List Outcome) (σ τ : Context),
    f.dependencies.intersects m = false → answer ws (σ.rebind m τ) = answer ws σ
  type : f.dataType ≠ .any → ∀ ws σ, (answer ws σ).dataType = f.dataType
  ascending : ∀ ws σ ns, answer ws σ = .nodes ns → F.Ascending ns

/-- The functions that are known and their answers. -/
structure Calls (F : Forest) where
  known : ExtensionFunction → Prop
  answer : ExtensionFunction → List Outcome → Meaning
  answers : ∀ {f}, known f → f.Answers F (answer f)

def Calls.none (F : Forest) : Calls F where
  known _ := False
  answer _ _ _ := .nodes []
  answers hknown := hknown.elim

/-- What the host returns from a call denotes the answer. -/
structure Host.Returns (h : Host) (Γ : Typing) (f : ExtensionFunction)
    (answer : List Outcome → Meaning) : Prop where
  denotes : ∀ {vs ws c σ v}, List.Forall₂ (Value.Denotes h.forest) vs ws → σ.Extends c →
    σ.Sound h.forest Γ → h.apply f.identity vs c = .ok v → v.Denotes h.forest (answer ws σ)

/-- The host returns the answers of the known functions. -/
class Host.Realizes (h : Host) (Φ : Calls h.forest) (Γ : Typing) : Prop where
  returns : ∀ {f}, Φ.known f → h.Returns Γ f (Φ.answer f)

instance (h : Host) (Γ : Typing) : h.Realizes (.none h.forest) Γ where
  returns hknown := hknown.elim

/-- A call inside a predicate or a sort key that may be answered in the context of the whole list:
the function reads none of the facets that stay fixed there, or the call comes to the same for every
item. -/
def Meaning.Settled (D : Meaning) (f : ExtensionFunction) : Prop :=
  f.dependencies.intersects .outer = false ∨ ∀ σ τ : Context, D (σ.rebind .outer τ) = D τ

/-! ## Expressions -/

/-- The tests that are written for the axis: attributes and namespace nodes are sought on their own
axes, and any node has any name. -/
def NodeTest.Fits (t : NodeTest) (axis : Axis) : Prop :=
  (t.kind = .attributeNode → axis = .attributeAxis) ∧
    (t.kind = .namespaceNode → axis = .namespaceAxis) ∧ (t.kind = .node → t.name = .any)

structure CallBinding.Sound (F : Forest) (b : CallBinding) : Prop where
  node : ∀ n, b.node = some n → F.Has n
  controller : ∀ k, b.controller = .bound (some k) → k.Sound F

def BinaryOperator.isRelational (op : BinaryOperator) : Bool :=
  op.isComparison && op != .equals && op != .notEquals

namespace Expr

/-- Expressions whose value lists its nodes only when it is asked for them. -/
def isLazy : Expr → Bool
  | path .. | filter .. | setOperation .. | sorted .. => true
  | _ => false

/-- A comparison by order does not list a lazy right side if the set on the left is empty: then it
must be false. -/
def Compares (F : Forest) (Γ : Typing) (op : BinaryOperator) (rhs : Expr) (A B : Meaning) : Prop :=
  op.isRelational = true → rhs.isLazy = true → ∀ σ : Context, σ.Sound F Γ → A σ = .nodes [] →
    (A σ).compare F op (B σ) = false

/-- What is listed only when it is asked for its nodes comes to nodes. -/
def Lists (F : Forest) (Γ : Typing) (e : Expr) (A : Meaning) : Prop :=
  e.isLazy = true → ∀ σ : Context, σ.Sound F Γ → (A σ).dataType = .nodeSet

mutual

/-- `D` is a meaning of the expression. Inside predicates and sort keys a call of a function of the
host must be settled. -/
def Means (F : Forest) (Φ : Calls F) (Γ : Typing) (inner : Bool) : Expr → Meaning → Prop
  | literal v, D => ∃ w, v.Denotes F w ∧ D = fun _ => w
  | reference _ _ (some v), D => ∃ w, v.Denotes F w ∧ D = fun _ => w
  | reference name _ none, D => (Γ name).isSome = true ∧ D = .binding F name
  | binary op lhs rhs, D => ∃ A B, lhs.Means F Φ Γ inner A ∧ rhs.Means F Φ Γ inner B ∧
      Compares F Γ op rhs A B ∧ D = fun σ => (A σ).binary F op (B σ)
  | negate e, D => ∃ A, e.Means F Φ Γ inner A ∧ D = fun σ => .number (-(A σ).toNumber F)
  | nodeComparison node op v, D => node.isSingleton = true ∧
      (v.dataType = .string ∨ v.dataType = .number) ∧
      ∃ A, node.Means F Φ Γ inner A ∧ D = fun σ => .boolean ((A σ).compare F op (v.outcome F))
  | contextNode, D => D = .oneNode none some
  | parentNode, D => D = .oneNode none F.parent?
  | root, D => D = .oneNode none fun n => some (F.documentRoot n)
  | attributeNamed name _ parent, D =>
      (∀ n, parent = some n → F.Has n) ∧ D = .oneNode parent (F.attributeNamed? name)
  | path start axis test predicates, D => test.Fits axis ∧
      ∃ A Bs, start.Means F Φ Γ inner A ∧ MeansList F Φ Γ true predicates Bs ∧
        D = .path F A axis test Bs
  | filter base predicate, D => ∃ A B, base.Means F Φ Γ inner A ∧ predicate.Means F Φ Γ true B ∧
      D = .filter A B
  | setOperation op lhs rhs, D => ∃ A B, lhs.Means F Φ Γ inner A ∧ rhs.Means F Φ Γ inner B ∧
      D = fun σ => .combine F op (A σ) (B σ)
  | call function args binding, D => binding.Sound F ∧
      ∃ As, MeansList F Φ Γ inner args As ∧ D = .call F function As binding
  | extension _ _ function args, D => Φ.known function ∧
      (inner = true → D.Settled function) ∧ ∃ As, MeansList F Φ Γ inner args As ∧
        List.Forall₂ (Lists F Γ) args As ∧ D = fun σ => Φ.answer function (As.map fun A => A σ) σ
  | sorted selection keys, D => selection.Means F Φ Γ inner D ∧
      ∃ Ks, MeansKeys F Φ Γ inner keys Ks
  | template parts, D => ∃ As, MeansParts F Φ Γ inner parts As ∧ D = .template F As
  | failure _, D => D = fun _ => .nodes []

def MeansList (F : Forest) (Φ : Calls F) (Γ : Typing) (inner : Bool) :
    List Expr → List Meaning → Prop
  | [], Ds => Ds = []
  | e :: rest, Ds => ∃ D Ds', e.Means F Φ Γ inner D ∧ MeansList F Φ Γ inner rest Ds' ∧
      Ds = D :: Ds'

def MeansOption (F : Forest) (Φ : Calls F) (Γ : Typing) (inner : Bool) :
    Option Expr → Option Meaning → Prop
  | none, D => D = none
  | some e, D => ∃ D', e.Means F Φ Γ inner D' ∧ D = some D'

def MeansKey (F : Forest) (Φ : Calls F) (Γ : Typing) (inner : Bool) : SortKey → KeyMeaning → Prop
  | .mk key order dataType caseOrder lang, K => key.Means F Φ Γ true K.key ∧
      MeansOption F Φ Γ inner order K.order ∧ MeansOption F Φ Γ inner dataType K.dataType ∧
      MeansOption F Φ Γ inner caseOrder K.caseOrder ∧ MeansOption F Φ Γ inner lang K.lang

def MeansKeys (F : Forest) (Φ : Calls F) (Γ : Typing) (inner : Bool) :
    List SortKey → List KeyMeaning → Prop
  | [], Ks => Ks = []
  | k :: rest, Ks => ∃ K Ks', MeansKey F Φ Γ inner k K ∧ MeansKeys F Φ Γ inner rest Ks' ∧
      Ks = K :: Ks'

def MeansPart (F : Forest) (Φ : Calls F) (Γ : Typing) (inner : Bool) : TemplatePart → Meaning → Prop
  | .text text, D => D = fun _ => .string text
  | .expr e, D => e.Means F Φ Γ inner D

def MeansParts (F : Forest) (Φ : Calls F) (Γ : Typing) (inner : Bool) :
    List TemplatePart → List Meaning → Prop
  | [], Ds => Ds = []
  | p :: rest, Ds => ∃ D Ds', MeansPart F Φ Γ inner p D ∧ MeansParts F Φ Γ inner rest Ds' ∧
      Ds = D :: Ds'

end

end Expr

end XPath
