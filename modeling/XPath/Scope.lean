import XPath.Dependencies
import XPath.Function.Builtin
import XPath.Value

/-!
# The static context

What is known where an expression is written: namespaces, declared variables (with a value if
that is fixed), functions of the stylesheet and of the host, extension elements and the options
of the parser.
-/

namespace XPath

/-- A function of the host. Its `identity` names it among the functions of the host; calls with
`least` to `most` arguments are accepted. -/
structure ExtensionFunction where
  identity : Nat
  name : String
  least : Nat
  most : Nat
  dependencies : Dependencies
  dataType : DataType
  deriving DecidableEq, Repr, Inhabited

def ExtensionFunction.acceptsArity (f : ExtensionFunction) (count : Nat) : Bool :=
  f.least ≤ count && count ≤ f.most

def stylesheetInstructions : List String :=
  ["apply-imports", "apply-templates", "attribute", "call-template", "choose", "comment", "copy",
    "copy-of", "element", "fallback", "for-each", "if", "message", "number",
    "processing-instruction", "text", "value-of", "variable"]

/-- The names in scope where an expression was written, for functions that resolve names at
evaluation time. Each list is in order and without repeats, so equal scopes are equal values. -/
structure NameScope where
  namespaces : List (String × String)
  functions : List ExpandedName
  elements : List ExpandedName
  deriving DecidableEq, Repr, Inhabited

def boundUri? (namespaces : List (String × String)) (boundPrefix : String) : Option String :=
  (namespaces.find? (·.1 == boundPrefix)).map (·.2)

namespace NameScope

def empty : NameScope := ⟨[], [], []⟩

/-- The name that `prefix:local` or `local` stands for. Names without a prefix are in no
namespace. -/
def resolve (s : NameScope) (name : String) : Except Error ExpandedName :=
  match splitColon name with
  | none => .ok (.unprefixed name)
  | some (before, after) =>
    if before == "xml" then .ok ⟨xmlNamespace, after⟩
    else match boundUri? s.namespaces before with
      | some uri => .ok ⟨uri, after⟩
      | none => .error (.unresolvedName (.undeclaredPrefix before))

def functionAvailable (s : NameScope) (name : ExpandedName) : Bool :=
  if name.uri.isEmpty then (Builtin.ofName? name.localPart).isSome
  else s.functions.contains name

def elementAvailable (s : NameScope) (name : ExpandedName) : Bool :=
  if name.uri == stylesheetNamespace then stylesheetInstructions.contains name.localPart
  else s.elements.contains name

end NameScope

structure ParseOptions where
  /-- Put off errors of the text until the expression is evaluated. -/
  forwardsCompatible : Bool := false
  /-- Look up prefixed function names among the functions of the host. -/
  allowExtensionFunctions : Bool := true
  /-- The namespace of unprefixed element names. -/
  defaultElementNamespace : Option String := none
  deriving DecidableEq, Repr, Inhabited

structure VariableBinding where
  name : ExpandedName
  display : String
  constant : Option Value
  deriving Inhabited

/-- A static context. Declarations come latest first, so that the latest of one name counts;
functions of the host come in the order of registration. -/
structure StaticScope where
  options : ParseOptions := {}
  namespaces : List (String × String) := []
  declarations : List (ExpandedName × Option Value) := []
  stylesheetFunctions : List (ExpandedName × ExtensionFunction) := []
  extensions : List (String × ExtensionFunction) := []
  elements : List ExpandedName := []
  deriving Inhabited

/-- Puts `x` into a list that is in order, unless it is there. -/
def insertSorted {α : Type} [BEq α] (before : α → α → Bool) (x : α) : List α → List α
  | [] => [x]
  | y :: rest =>
    if x == y then y :: rest
    else if before x y then x :: y :: rest
    else y :: insertSorted before x rest

namespace StaticScope

variable (s : StaticScope)

/-- The URI bound to a prefix; `xml` is always bound. -/
def namespaceUri (boundPrefix : String) : Except Error String :=
  if boundPrefix == "xml" then .ok xmlNamespace
  else match boundUri? s.namespaces boundPrefix with
    | some uri => .ok uri
    | none => .error (.unresolvedName (.undeclaredPrefix boundPrefix))

/-- The name that a lexical name stands for. With `useDefault` a name without prefix takes the
default element namespace. -/
def resolve (name : String) (useDefault : Bool) : Except Error ExpandedName :=
  match splitColon name with
  | some (before, after) => (s.namespaceUri before).map (⟨·, after⟩)
  | none =>
    .ok ⟨if useDefault then s.options.defaultElementNamespace.getD "" else "", name⟩

def bindVariable (name : ExpandedName) (display : String) : Except Error VariableBinding :=
  match s.declarations.find? (·.1 == name) with
  | some (_, constant) => .ok ⟨name, display, constant⟩
  | none => .error (.unresolvedName (.undeclaredVariable display))

def stylesheetFunction? (name : ExpandedName) : Option ExtensionFunction :=
  (s.stylesheetFunctions.find? (·.1 == name)).map (·.2)

/-- The first function of the host with this name that accepts so many arguments. -/
def extensionFunction? (name : ExpandedName) (count : Nat) : Option ExtensionFunction :=
  if s.options.allowExtensionFunctions then
    (s.extensions.find? fun (uri, f) =>
      uri == name.uri && f.name == name.localPart && f.acceptsArity count).map (·.2)
  else none

/-- The function that a call with `count` arguments means: one of the stylesheet if it accepts
them, else one of the host. -/
def function? (name : ExpandedName) (count : Nat) : Option ExtensionFunction :=
  ((s.stylesheetFunction? name).filter (·.acceptsArity count)).or
    (s.extensionFunction? name count)

def nameScope : NameScope :=
  let host := if s.options.allowExtensionFunctions then
    s.extensions.map fun (uri, f) => (⟨uri, f.name⟩ : ExpandedName) else []
  { namespaces := s.namespaces.reverse.foldl declare []
    functions := sortNames (s.stylesheetFunctions.map (·.1) ++ host)
    elements := sortNames s.elements }
where
  declare (known : List (String × String)) (d : String × String) : List (String × String) :=
    insertSorted (fun a b => decide (a.1 < b.1)) d (known.filter (·.1 != d.1))
  sortNames (names : List ExpandedName) : List ExpandedName :=
    names.foldl (fun known n => insertSorted ExpandedName.before n known) []

end StaticScope

end XPath
