import XPath.Xml.Name
import XPath.Name

/-!
# Namespaces in scope

The declarations in scope at an element are a list: its own in the order in which they are
written, then those of its parent that it does not repeat. A name is resolved by the first
declaration of its prefix, and is shown with the first prefix declared for its URI.
-/

namespace XPath.Xml

def declarationNamespace : String := "http://www.w3.org/2000/xmlns/"

/-- A namespace declaration; without a prefix it is the default for elements. -/
structure Binding where
  boundPrefix : Option String
  uri : String
  deriving DecidableEq, Repr, Inhabited

namespace Binding

def keyOf (written : String) : Option String := if written.isEmpty then none else some written

def repeats (declared : List Binding) (b : Binding) : Bool :=
  declared.any (·.boundPrefix == b.boundPrefix)

/-- The declarations in scope at an element, from its own and those of its parent. -/
def extend (own inherited : List Binding) : List Binding :=
  if own.isEmpty then inherited
  else inherited.foldl (fun found b => if repeats found b then found else found ++ [b]) own

/-- The namespace of a name: none without a prefix and a default, and no answer for a prefix that
is not declared. -/
def resolve? (scope : List Binding) (written : String) : Option (Option String) :=
  match scope.find? (·.boundPrefix == keyOf written) with
  | some b => some (some b.uri)
  | none => if written.isEmpty then some none else none

def shownPrefix (scope : List Binding) (uri : String) : Option String :=
  if uri == xmlNamespace then some "xml" else (scope.find? (·.uri == uri)).bind (·.boundPrefix)

def qName (scope : List Binding) (uri : Option String) (localPart : String) : QName :=
  ⟨uri.bind (shownPrefix scope), uri, localPart⟩

def elementName? (scope : List Binding) (written : WrittenName) : Option QName := do
  return qName scope (← resolve? scope written.namePrefix) written.localPart

/-- The name of an attribute. The default does not apply to it, and the prefix `xml` needs no
declaration. -/
def attributeName? (scope : List Binding) (written : WrittenName) : Option QName := do
  let uri ←
    if written.namePrefix == "xml" then pure (some xmlNamespace)
    else if written.namePrefix.isEmpty then pure none
    else resolve? scope written.namePrefix
  return qName scope uri written.localPart

/-- The declaration that an attribute makes, for a list of those before it at the same element:
`none` if the attribute is not a declaration, and no answer if it is one that is not allowed.
The prefix `xml` and its namespace belong together and need not be declared. -/
def ofAttribute? (declared : List Binding) (written : WrittenName) (value : String) :
    Option (Option (List Binding)) :=
  if written.namePrefix == "xmlns" then
    let reserved := value == xmlNamespace
    let b : Binding := ⟨some written.localPart, value⟩
    if value == declarationNamespace || (written.localPart == "xml") != reserved
        || repeats declared b then none
    else some (some (if reserved then declared else declared ++ [b]))
  else if written.localPart == "xmlns" then
    if value == declarationNamespace || value == xmlNamespace then none
    else some (some (declared ++ [⟨none, value⟩]))
  else some none

end Binding

end XPath.Xml
