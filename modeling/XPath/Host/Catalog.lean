import XPath.Context

/-!
# A controller made from tables

Keys that look at one attribute of the elements of one name, documents by address, decimal formats
and system properties by name, and one document that stands for every fragment.
-/

namespace XPath

/-- A key: the elements with a local name, found by the value of an attribute. -/
structure KeyDeclaration where
  name : ExpandedName
  element : String
  attributeName : String
  deriving DecidableEq, Repr, Inhabited

/-- The tables of a controller. The default decimal format is the one without a name. -/
structure Catalog where
  keys : List KeyDeclaration
  documents : List (String × Nat)
  formats : List (Option ExpandedName × DecimalFormat)
  properties : List (ExpandedName × String)
  fragmentDocument : Option Nat
  deriving Inhabited

namespace Catalog

variable (k : Catalog) (F : Forest)

/-- The elements below a node, and the node itself, whose key has the value, the last one of the
walk first. -/
def keyed (d : KeyDeclaration) (value : String) (n : Node) : List Node :=
  ((F.subtree n).filter fun e =>
    F.type e == .element && (F.name? e).any (·.localPart == d.element)
      && F.attributeValue? e (.unprefixed d.attributeName) == some value).reverse

/-- The address that is looked up: below an element called `alt` addresses are different. -/
def address (href : String) (base : Option Node) : String :=
  if base.any fun n => (F.name? n).any (·.localPart == "alt") then "alt-" ++ href else href

def controller (identity : Nat) : Controller where
  identity
  selectByKey name value document :=
    match k.keys.find? (·.name == name) with
    | some d => .ok (keyed F d value document)
    | none => .error (.evaluation (.undefinedKey name))
  loadDocument href base :=
    let href := address F href base
    match k.documents.find? (·.1 == href) with
    | some (_, d) => .ok ⟨d, 0⟩
    | none => .error (.evaluation (.unavailableDocument href))
  systemProperty? name := (k.properties.find? (·.1 == name)).map (·.2)
  decimalFormat? name := (k.formats.find? (·.1 == name)).map (·.2)
  materialize _ :=
    match k.fragmentDocument with
    | some d => .ok ⟨d, 0⟩
    | none => .error (.evaluation .noFragmentTree)

end Catalog

end XPath
