import XPath.Expr

/-!
# How expressions are shown

The text of an expression tree, with every abbreviation spelt out and parentheses around the
operands of operators.
-/

namespace XPath

def doubleBraces (text : String) : String :=
  String.ofList (text.toList.flatMap fun c =>
    if c == '\x7b' || c == '\x7d' then [c, c] else [c])

namespace Expr

def variantName : Expr → String
  | literal _ => "Literal"
  | reference .. => "Variable"
  | binary .. => "Binary"
  | negate _ => "Negate"
  | nodeComparison .. => "SingletonComparison"
  | contextNode => "ContextNode"
  | parentNode => "ParentNode"
  | root => "Root"
  | attributeNamed .. => "Attribute"
  | path .. => "Path"
  | filter .. => "Filter"
  | setOperation .. => "SetOperation"
  | call .. => "Function"
  | extension .. => "Extension"
  | sorted .. => "Sorted"
  | template _ => "Template"
  | failure _ => "Error"

mutual

def display : Expr → String
  | literal v => v.display
  | reference _ display _ => "$" ++ display
  | binary op lhs rhs => "(" ++ lhs.display ++ " " ++ op.symbol ++ " " ++ rhs.display ++ ")"
  | negate e => "-(" ++ e.display ++ ")"
  | nodeComparison e op v => "(" ++ e.display ++ " " ++ op.symbol ++ " " ++ v.display ++ ")"
  | contextNode => "."
  | parentNode => ".."
  | root => "/"
  | attributeNamed _ display _ => "@" ++ display
  | path start axis test predicates =>
    (match start with
      | root => "/"
      | start => start.display ++ "/")
    ++ axis.name ++ "::" ++ test.display ++ displayPredicates predicates
  | filter base predicate => base.display ++ "[" ++ predicate.display ++ "]"
  | setOperation op lhs rhs =>
    "(" ++ lhs.display ++ " " ++ op.symbol ++ " " ++ rhs.display ++ ")"
  | call function args _ => function.label ++ "(" ++ displayArguments args ++ ")"
  | extension _ display _ args => display ++ "(" ++ displayArguments args ++ ")"
  | sorted selection _ => "sort(" ++ selection.display ++ ")"
  | template parts => displayParts parts
  | failure error => "error(" ++ Value.display.quote error.message ++ ")"

def displayPredicates : List Expr → String
  | [] => ""
  | e :: rest => "[" ++ e.display ++ "]" ++ displayPredicates rest

def displayArguments : List Expr → String
  | [] => ""
  | e :: rest => e.display ++ displayMoreArguments rest

def displayMoreArguments : List Expr → String
  | [] => ""
  | e :: rest => ", " ++ e.display ++ displayMoreArguments rest

def displayPart : TemplatePart → String
  | .text text => doubleBraces text
  | .expr e => "\x7b" ++ e.display ++ "\x7d"

def displayParts : List TemplatePart → String
  | [] => ""
  | p :: rest => displayPart p ++ displayParts rest

end

end Expr

end XPath
