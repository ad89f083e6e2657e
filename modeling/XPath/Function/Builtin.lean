import XPath.Error

/-!
# The built-in functions

The names of the built-in functions with the number of arguments each accepts, the static type of
its result and whether it resolves names given as strings.
-/

namespace XPath

inductive Builtin
  | last
  | position
  | count
  | current
  | id
  | key
  | document
  | localName
  | namespaceUri
  | name
  | generateId
  | not
  | true
  | false
  | boolean
  | lang
  | number
  | floor
  | ceiling
  | round
  | sum
  | string
  | startsWith
  | stringLength
  | substring
  | contains
  | substringBefore
  | substringAfter
  | normalizeSpace
  | translate
  | concat
  | formatNumber
  | systemProperty
  | functionAvailable
  | elementAvailable
  | unparsedEntityUri
  deriving DecidableEq, Repr, Inhabited

namespace Builtin

def table : List (Builtin × String) :=
  [(last, "last"), (position, "position"), (count, "count"), (current, "current"), (id, "id"),
    (key, "key"), (document, "document"), (localName, "local-name"),
    (namespaceUri, "namespace-uri"), (name, "name"), (generateId, "generate-id"), (not, "not"),
    (true, "true"), (false, "false"), (boolean, "boolean"), (lang, "lang"), (number, "number"),
    (floor, "floor"), (ceiling, "ceiling"), (round, "round"), (sum, "sum"), (string, "string"),
    (startsWith, "starts-with"), (stringLength, "string-length"), (substring, "substring"),
    (contains, "contains"), (substringBefore, "substring-before"),
    (substringAfter, "substring-after"), (normalizeSpace, "normalize-space"),
    (translate, "translate"), (concat, "concat"), (formatNumber, "format-number"),
    (systemProperty, "system-property"), (functionAvailable, "function-available"),
    (elementAvailable, "element-available"), (unparsedEntityUri, "unparsed-entity-uri")]

def label (f : Builtin) : String := ((table.find? (·.1 == f)).map (·.2)).getD ""

def ofName? (name : String) : Option Builtin := (table.find? (·.2 == name)).map (·.1)

theorem ofName?_label (f : Builtin) : ofName? f.label = some f := by
  cases f <;> decide

/-- The least number of arguments, and the greatest if there is one. -/
def arity : Builtin → Nat × Option Nat
  | last | position | current | true | false => (0, some 0)
  | count | id | not | boolean | lang | floor | ceiling | round | sum | systemProperty
  | functionAvailable | elementAvailable | unparsedEntityUri => (1, some 1)
  | key | startsWith | contains | substringBefore | substringAfter => (2, some 2)
  | document => (1, some 2)
  | localName | namespaceUri | name | generateId | number | string | stringLength
  | normalizeSpace => (0, some 1)
  | substring | formatNumber => (2, some 3)
  | translate => (3, some 3)
  | concat => (2, none)

def arityFault? (f : Builtin) (count : Nat) : Option ArityFault :=
  match f.arity with
  | (least, some most) =>
    if least == most && count != least then some (.exactly least)
    else if count < least then some (.atLeast least)
    else if count > most then some (.atMost most)
    else none
  | (least, none) => if count < least then some (.atLeast least) else none

def checkArity (f : Builtin) (count : Nat) : Except Error Unit :=
  match f.arityFault? count with
  | some fault => .error (.arity f.label fault)
  | none => .ok ()

def dataType : Builtin → DataType
  | last | position | count | number | floor | ceiling | round | sum | stringLength => .number
  | current | id | key | document => .nodeSet
  | not | true | false | boolean | lang | startsWith | contains | functionAvailable
  | elementAvailable => .boolean
  | systemProperty => .any
  | _ => .string

/-- Functions that resolve lexical names given as arguments, with the namespaces in scope where
the call is written. -/
def needsNameScope : Builtin → Bool
  | key | formatNumber | systemProperty | functionAvailable | elementAvailable => Bool.true
  | _ => Bool.false

/-- Functions that work on the context node when they are called without arguments. -/
def defaultsToContextNode : Builtin → Bool
  | localName | namespaceUri | name | generateId | number | string | stringLength
  | normalizeSpace => Bool.true
  | _ => Bool.false

end Builtin

end XPath
