import XPath.Name
import XPath.Operator
import XPath.Token

/-!
# Errors

Every way in which compiling or evaluating an expression can fail, as a cause with the data that
its message shows. The wording is in `Error.message` alone.
-/

namespace XPath

/-- What is wrong with the text of an expression, template or pattern. -/
inductive SyntaxFault
  | lonelyExclamation
  | invalidCharacter (c : Char)
  | invalidNumber (text : String)
  | unmatchedQuote
  | expected (kind : TokenKind) (found : Token)
  | expectedArgumentEnd (found : Token)
  | beyondEnd (found : Token)
  | notAStep (found : Token)
  | notAnOperand (found : Token)
  | unknownAxis (name : String)
  | unionOperand (display : String)
  | unclosedBrace
  | singleClosingBrace
  | functionInsidePattern
  | functionOfPattern
  | axisOfPattern
  | currentInPattern
  deriving DecidableEq, Repr, Inhabited

def SyntaxFault.message : SyntaxFault → String
  | lonelyExclamation => "'!' must be followed by '='"
  | invalidCharacter c => "Invalid character '" ++ c.toString ++ "' in expression"
  | invalidNumber text => "Invalid number '" ++ text ++ "'"
  | unmatchedQuote => "Unmatched quote in expression"
  | expected kind found => "expected \"" ++ kind.describe ++ "\", found " ++ found.describe
  | expectedArgumentEnd found =>
    "expected \")\" or \",\" in function call, found " ++ found.describe
  | beyondEnd found => "Unexpected " ++ found.describe ++ " beyond end of expression"
  | notAStep found => "Unexpected " ++ found.describe ++ " in path expression"
  | notAnOperand found => "Unexpected " ++ found.describe ++ " at start of expression"
  | unknownAxis name => "Unknown axis name '" ++ name ++ "'"
  | unionOperand display => "Operand of '|' must be a node-set: " ++ display
  | unclosedBrace => "Missing '\x7d' in attribute value template"
  | singleClosingBrace => "Closing curly brace in attribute value template must be doubled"
  | functionInsidePattern => "Function may appear only at the start of a pattern"
  | functionOfPattern => "The only functions allowed in a pattern are id() and key()"
  | axisOfPattern => "Axis in pattern must be child or attribute"
  | currentInPattern => "The current() function may not be used in a pattern"

/-- What is wrong with the number of arguments of a call. -/
inductive ArityFault
  | exactly (count : Nat)
  | atLeast (count : Nat)
  | atMost (count : Nat)
  deriving DecidableEq, Repr, Inhabited

def ArityFault.message (function : String) : ArityFault → String
  | exactly n => "Function " ++ function ++ " must have " ++ arguments n
  | atLeast n => "Function " ++ function ++ " must have at least " ++ arguments n
  | atMost n => "Function " ++ function ++ " must have no more than " ++ arguments n
where
  arguments (n : Nat) : String :=
    toString n ++ (if n == 1 then " argument" else " arguments")

inductive PictureFault
  | noDigits
  | twoDecimalSeparators
  | groupingInFraction
  | tooManyParts
  deriving DecidableEq, Repr, Inhabited

def PictureFault.message : PictureFault → String
  | noDigits => "no digits in pattern"
  | twoDecimalSeparators => "more than one decimal separator"
  | groupingInFraction => "grouping separator in fraction"
  | tooManyParts => "too many sub-patterns"

/-- What is missing or wrong when an expression is evaluated. -/
inductive EvaluationFault
  | noContextNode
  | noCurrentNode
  | unknownSize
  | unboundVariable (name : ExpandedName)
  | noController
  | needsController (function : String)
  | undefinedKey (name : ExpandedName)
  | unavailableDocument (href : String)
  | fragmentNotConvertible
  | noFragmentTree
  | unknownFormat (name : ExpandedName)
  | badPicture (picture : String) (fault : PictureFault)
  | sortOrder
  | sortCaseOrder
  | sortDataType
  | reported (text : String)
  deriving DecidableEq, Repr, Inhabited

def EvaluationFault.message : EvaluationFault → String
  | noContextNode => "The context node is not set"
  | noCurrentNode => "The current node is not set"
  | unknownSize => "The context size is not known"
  | unboundVariable name => "Variable " ++ name.display ++ " has no value"
  | noController => "No controller is available"
  | needsController function => function ++ "() needs a controller, but none is available"
  | undefinedKey name => "Key " ++ name.display ++ " has not been defined"
  | unavailableDocument href => "Failed to load document " ++ href
  | fragmentNotConvertible => "Result tree fragments cannot be converted to node-sets here"
  | noFragmentTree => "no fragment tree"
  | unknownFormat name => "decimal-format " ++ name.display ++ " not registered"
  | badPicture picture fault =>
    "Unable to interpret format pattern " ++ picture ++ " (" ++ fault.message ++ ")"
  | sortOrder => "order must be ascending or descending"
  | sortCaseOrder => "case-order must be lower-first or upper-first"
  | sortDataType => "data-type must be text, number, or a prefixed name"
  | reported text => text

inductive TypeFault
  | notANodeSet (found : DataType)
  | argumentNotANodeSet (function : String) (found : DataType)
  | selectsNoNodes (expression : String) (found : DataType)
  deriving DecidableEq, Repr, Inhabited

def TypeFault.message : TypeFault → String
  | notANodeSet found => "The value is not a node-set: " ++ found.name
  | argumentNotANodeSet function found =>
    "The argument of " ++ function ++ "() must be a node-set, not " ++ found.name
  | selectsNoNodes expression found =>
    "'" ++ expression ++ "' returned " ++ found.name ++ ", not a node-set"

/-- A name that the static context does not know. -/
inductive NameFault
  | undeclaredPrefix (name : String)
  | undeclaredVariable (name : String)
  deriving DecidableEq, Repr, Inhabited

def NameFault.message : NameFault → String
  | undeclaredPrefix name => "Prefix " ++ name ++ " has not been declared"
  | undeclaredVariable name => "Variable " ++ name ++ " has not been declared"

inductive InternalFault
  | contextDependentNodeSet (display : String) (facets : UInt8)
  | depthExceeded
  deriving DecidableEq, Repr, Inhabited

def InternalFault.message : InternalFault → String
  | contextDependentNodeSet display facets =>
    "node-set intent over a context-dependent expression " ++ display ++ " (Dependencies("
      ++ toString facets.toNat ++ "))"
  | depthExceeded => "evaluation depth exceeded"

/-- Why an operation failed. `sizePending` never leaves the library: it stands for the answer of
`last()` while it is still open whether anyone asks for it. -/
inductive Error
  | syntaxFault (source : String) (fault : SyntaxFault)
  | unknownFunction (name : String)
  | arity (function : String) (fault : ArityFault)
  | unresolvedName (fault : NameFault)
  | typeFault (fault : TypeFault)
  | evaluation (fault : EvaluationFault)
  | internalFault (fault : InternalFault)
  | sizePending
  deriving DecidableEq, Repr, Inhabited

namespace Error

def message : Error → String
  | syntaxFault source fault => "XPath syntax error in '" ++ source ++ "': " ++ fault.message
  | unknownFunction name => "Unknown function: " ++ name
  | arity function fault => "Function '" ++ function ++ "': " ++ fault.message function
  | unresolvedName fault => "Unresolved name: " ++ fault.message
  | typeFault fault => "Type error: " ++ fault.message
  | evaluation fault => "Evaluation error: " ++ fault.message
  | internalFault fault => "Internal error: " ++ fault.message
  | sizePending => "Evaluation error: " ++ EvaluationFault.unknownSize.message

/-- The errors that the text of an expression and its static context decide. -/
def isStatic : Error → Bool
  | syntaxFault .. | unknownFunction .. | arity .. | unresolvedName .. => true
  | _ => false

def reported (text : String) : Error := evaluation (.reported text)

end Error

end XPath
