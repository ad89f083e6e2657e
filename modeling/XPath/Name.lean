/-!
# Names

Expanded names, which expressions hold, and qualified names as nodes report them. A name in no
namespace has the empty URI in both.
-/

namespace XPath

def xmlNamespace : String := "http://www.w3.org/XML/1998/namespace"

def stylesheetNamespace : String := "http://www.w3.org/1999/XSL/Transform"

/-- A name with its prefix resolved to a namespace URI. -/
structure ExpandedName where
  uri : String
  localPart : String
  deriving DecidableEq, Repr, Inhabited

/-- A name as a node reports it: the prefix is for display only. -/
structure QName where
  namePrefix : Option String
  uri : Option String
  localPart : String
  deriving DecidableEq, Repr, Inhabited

namespace ExpandedName

def unprefixed (name : String) : ExpandedName := ⟨"", name⟩

/-- The local part, with the URI in braces before it for a name in a namespace. -/
def display (n : ExpandedName) : String :=
  if n.uri.isEmpty then n.localPart else "\x7b" ++ n.uri ++ "\x7d" ++ n.localPart

def before (a b : ExpandedName) : Bool :=
  decide (a.uri < b.uri) || (a.uri == b.uri && decide (a.localPart < b.localPart))

end ExpandedName

namespace QName

def namespaceUri (n : QName) : String := n.uri.getD ""

/-- The lexical form, `prefix:local` or just `local`. -/
def display (n : QName) : String :=
  match n.namePrefix with
  | some p => if p.isEmpty then n.localPart else p ++ ":" ++ n.localPart
  | none => n.localPart

def expanded (n : QName) : ExpandedName := ⟨n.namespaceUri, n.localPart⟩

end QName

def splitColon (name : String) : Option (String × String) :=
  let front := name.toList.takeWhile (· != ':')
  match name.toList.dropWhile (· != ':') with
  | [] => none
  | _ :: rest => some (String.ofList front, String.ofList rest)

end XPath
