/-!
# Tokens

The words of the expression language. Where the same spelling can be two words (`*` as a name
test or as a multiplication, `div` as a name or as an operator) the token already says which
one it is, so a parser needs no further look at the text.
-/

namespace XPath

/-- The kinds of token. A function name, a node type and an axis include the punctuation that
tells them from an element name. -/
inductive TokenKind
  | eof
  | name
  | functionName
  | nodeType
  | axis
  | namespaceWildcard
  | literal
  | number
  | star
  | slash
  | slashSlash
  | union
  | equals
  | notEquals
  | lessThan
  | lessThanOrEqual
  | greaterThan
  | greaterThanOrEqual
  | plus
  | minus
  | negate
  | multiply
  | div
  | mod
  | and
  | or
  | leftParen
  | rightParen
  | leftSquare
  | rightSquare
  | comma
  | atSign
  | dot
  | dotDot
  | dollar
  deriving DecidableEq, Repr, Inhabited

namespace TokenKind

/-- The operators that stand between two operands, `/` and `//` among them. -/
def isBinaryOperator : TokenKind → Bool
  | slash | slashSlash | union | equals | notEquals | lessThan | lessThanOrEqual | greaterThan
  | greaterThanOrEqual | plus | minus | multiply | div | mod | and | or => true
  | _ => false

/-- After such a token an operand must follow, so `*` and the operator names are names there. -/
def expectsOperand : TokenKind → Bool
  | negate | atSign | leftParen | leftSquare | functionName | nodeType | axis | comma | dollar => true
  | k => k.isBinaryOperator

def describe : TokenKind → String
  | eof => "end of expression"
  | name => "name"
  | functionName => "function name"
  | nodeType => "node type"
  | axis => "axis name"
  | namespaceWildcard => "namespace wildcard"
  | literal => "literal"
  | number => "number"
  | star => "*"
  | slash => "/"
  | slashSlash => "//"
  | union => "|"
  | equals => "="
  | notEquals => "!="
  | lessThan => "<"
  | lessThanOrEqual => "<="
  | greaterThan => ">"
  | greaterThanOrEqual => ">="
  | plus => "+"
  | minus => "-"
  | negate => "-"
  | multiply => "*"
  | div => "div"
  | mod => "mod"
  | and => "and"
  | or => "or"
  | leftParen => "("
  | rightParen => ")"
  | leftSquare => "["
  | rightSquare => "]"
  | comma => ","
  | atSign => "@"
  | dot => "."
  | dotDot => ".."
  | dollar => "$"

def label : TokenKind → String
  | eof => "Eof"
  | name => "Name"
  | functionName => "FunctionName"
  | nodeType => "NodeType"
  | axis => "Axis"
  | namespaceWildcard => "Prefix"
  | literal => "Literal"
  | number => "Number"
  | star => "Star"
  | slash => "Slash"
  | slashSlash => "SlashSlash"
  | union => "Union"
  | equals => "Equals"
  | notEquals => "NotEquals"
  | lessThan => "LessThan"
  | lessThanOrEqual => "LessThanOrEqual"
  | greaterThan => "GreaterThan"
  | greaterThanOrEqual => "GreaterThanOrEqual"
  | plus => "Plus"
  | minus => "Minus"
  | negate => "Negate"
  | multiply => "Multiply"
  | div => "Div"
  | mod => "Mod"
  | and => "And"
  | or => "Or"
  | leftParen => "LeftParen"
  | rightParen => "RightParen"
  | leftSquare => "LeftSquare"
  | rightSquare => "RightSquare"
  | comma => "Comma"
  | atSign => "At"
  | dot => "Dot"
  | dotDot => "DotDot"
  | dollar => "Dollar"

end TokenKind

/-- A token. `value` is the name, the number as written or the text between the quotes; `offset`
counts the bytes of the source before the token. -/
structure Token where
  kind : TokenKind
  value : String
  offset : Nat
  deriving DecidableEq, Repr, Inhabited

def Token.describe (t : Token) : String :=
  match t.kind with
  | .name | .number => t.kind.describe ++ " '" ++ t.value ++ "'"
  | .functionName | .nodeType => "'" ++ t.value ++ "('"
  | .axis => "'" ++ t.value ++ "::'"
  | .namespaceWildcard => "'" ++ t.value ++ ":*'"
  | .literal => "literal \"" ++ t.value ++ "\""
  | .eof => t.kind.describe
  | kind => "'" ++ kind.describe ++ "'"

end XPath
