import XPath.Error
import XPath.Text.CharClass

/-!
# Reading tokens

`Lexer.next` reads one token from the front of the text that is left. The kind of a token depends
on the text and on the kind of the token before it: after an operator or an opening bracket a
name is a name and `*` is a wildcard, elsewhere `*`, `and`, `or`, `div` and `mod` are operators.
-/

namespace XPath

def utf8Length : List Char → Nat
  | [] => 0
  | c :: rest => c.utf8Size + utf8Length rest

namespace Lexer

def isNameStart (c : Char) : Bool := Text.isAlphabetic c || c == '_'

def isNameChar (c : Char) : Bool :=
  Text.isAlphabetic c || Text.isNumeric c || c == '_' || c == '-' || c == '.' || c == '\u00B7'

/-- The unread text, the bytes already read and the kind of the token read last. -/
structure State where
  source : String
  rest : List Char
  offset : Nat
  previous : Option TokenKind
  deriving Repr, Inhabited

def start (source : String) : State := ⟨source, source.toList, 0, none⟩

/-- Whether the next token must be an operand rather than an operator. -/
def State.operandExpected (s : State) : Bool :=
  match s.previous with
  | none => true
  | some kind => kind.expectsOperand

def ncName? : List Char → Option (List Char × List Char)
  | c :: cs =>
    if isNameStart c then some (c :: cs.takeWhile isNameChar, cs.dropWhile isNameChar) else none
  | [] => none

/-- A name with an optional prefix at the front of the text, and what follows it. -/
def qName? (cs : List Char) : Option (List Char × List Char) :=
  match ncName? cs with
  | none => none
  | some (front, ':' :: after) =>
    match ncName? after with
    | some (back, rest) => some (front ++ ':' :: back, rest)
    | none => some (front, ':' :: after)
  | some found => some found

/-- The digits of a number, with at most one decimal point. The text starts with a digit, or with
a point and a digit. -/
def numeral (cs : List Char) : List Char × List Char :=
  let whole := cs.takeWhile Char.isDigit
  match cs.dropWhile Char.isDigit with
  | '.' :: after => (whole ++ '.' :: after.takeWhile Char.isDigit, after.dropWhile Char.isDigit)
  | rest => (whole, rest)

/-- A number may not be followed by a second decimal point that ends the text or has a digit
behind it. -/
def strayPoint : List Char → Bool
  | '.' :: [] => true
  | '.' :: c :: _ => c.isDigit
  | _ => false

def operatorName? (name : String) : Option TokenKind :=
  if name == "and" then some .and
  else if name == "or" then some .or
  else if name == "div" then some .div
  else if name == "mod" then some .mod
  else none

def isNodeTypeName (name : String) : Bool :=
  name == "node" || name == "text" || name == "comment" || name == "processing-instruction"

/-- The kind of the name `name` before `after`, with the characters of `after` that belong to
the token: the white space and the punctuation that tell functions and axes from names. -/
def classifyName (operandExpected : Bool) (name : List Char) (after : List Char) :
    TokenKind × List Char :=
  let text := String.ofList name
  match if operandExpected then none else operatorName? text with
  | some kind => (kind, [])
  | none =>
    match after with
    | ':' :: '*' :: _ =>
      if name.contains ':' then afterSpace text after else (.namespaceWildcard, [':', '*'])
    | _ => afterSpace text after
where
  afterSpace (text : String) (after : List Char) : TokenKind × List Char :=
    let gap := after.takeWhile isSpace
    match after.dropWhile isSpace with
    | ':' :: ':' :: _ => (.axis, gap ++ [':', ':'])
    | '(' :: _ => (if isNodeTypeName text then .nodeType else .functionName, gap ++ ['('])
    | _ => (.name, [])

/-- The token that ends the read: `spelling` is dropped from the front of the text. -/
def State.take (s : State) (kind : TokenKind) (spelling : List Char) (value : String) :
    Token × State :=
  (⟨kind, value, s.offset⟩,
    { s with
      rest := s.rest.drop spelling.length
      offset := s.offset + utf8Length spelling
      previous := some kind })

private def State.symbol (s : State) (kind : TokenKind) (spelling : List Char) : Token × State :=
  s.take kind spelling (String.ofList spelling)

private def State.fail (s : State) (fault : SyntaxFault) : Except Error (Token × State) :=
  .error (.syntaxFault s.source fault)

private def State.number (s : State) : Except Error (Token × State) :=
  let (text, rest) := numeral s.rest
  if strayPoint rest then s.fail (.invalidNumber (String.ofList (text ++ ['.'])))
  else .ok (s.take .number text (String.ofList text))

private def State.literal (s : State) (quote : Char) (body : List Char) :
    Except Error (Token × State) :=
  let text := body.takeWhile (· != quote)
  match body.dropWhile (· != quote) with
  | [] => s.fail .unmatchedQuote
  | _ :: _ => .ok (s.take .literal (quote :: text ++ [quote]) (String.ofList text))

private def State.name (s : State) (name after : List Char) : Token × State :=
  let (kind, absorbed) := classifyName s.operandExpected name after
  s.take kind (name ++ absorbed) (String.ofList name)

def State.skipSpace (s : State) : State :=
  let gap := s.rest.takeWhile isSpace
  { s with rest := s.rest.dropWhile isSpace, offset := s.offset + utf8Length gap }

/-- Reads the token at the front of a text that does not start with white space. -/
def State.token (s : State) : Except Error (Token × State) :=
  match s.rest with
  | [] => .ok (s.take .eof [] "")
  | '(' :: _ => .ok (s.symbol .leftParen ['('])
  | ')' :: _ => .ok (s.symbol .rightParen [')'])
  | '[' :: _ => .ok (s.symbol .leftSquare ['['])
  | ']' :: _ => .ok (s.symbol .rightSquare [']'])
  | ',' :: _ => .ok (s.symbol .comma [','])
  | '@' :: _ => .ok (s.symbol .atSign ['@'])
  | '$' :: _ => .ok (s.symbol .dollar ['$'])
  | '|' :: _ => .ok (s.symbol .union ['|'])
  | '+' :: _ => .ok (s.symbol .plus ['+'])
  | '=' :: _ => .ok (s.symbol .equals ['='])
  | '!' :: '=' :: _ => .ok (s.symbol .notEquals ['!', '='])
  | '!' :: _ => s.fail .lonelyExclamation
  | '<' :: '=' :: _ => .ok (s.symbol .lessThanOrEqual ['<', '='])
  | '<' :: _ => .ok (s.symbol .lessThan ['<'])
  | '>' :: '=' :: _ => .ok (s.symbol .greaterThanOrEqual ['>', '='])
  | '>' :: _ => .ok (s.symbol .greaterThan ['>'])
  | '/' :: '/' :: _ => .ok (s.symbol .slashSlash ['/', '/'])
  | '/' :: _ => .ok (s.symbol .slash ['/'])
  | '-' :: _ => .ok (s.symbol (if s.operandExpected then .negate else .minus) ['-'])
  | '*' :: _ => .ok (s.symbol (if s.operandExpected then .star else .multiply) ['*'])
  | '.' :: '.' :: _ => .ok (s.symbol .dotDot ['.', '.'])
  | '.' :: c :: _ => if c.isDigit then s.number else .ok (s.symbol .dot ['.'])
  | '.' :: [] => .ok (s.symbol .dot ['.'])
  | '"' :: body => s.literal '"' body
  | '\'' :: body => s.literal '\'' body
  | c :: _ =>
    if c.isDigit then s.number
    else match qName? s.rest with
      | some (name, after) => .ok (s.name name after)
      | none => s.fail (.invalidCharacter c)

/-- The next token. At the end of the text this is the token `eof`, however often it is read. -/
def next (s : State) : Except Error (Token × State) := s.skipSpace.token

/-- Up to `fuel` tokens, ending with `eof` or with the first error. -/
def tokensWith : Nat → State → List Token × Option Error
  | 0, _ => ([], none)
  | fuel + 1, s =>
    match next s with
    | .error e => ([], some e)
    | .ok (token, after) =>
      if token.kind = .eof then ([token], none)
      else
        let (rest, failure) := tokensWith fuel after
        (token :: rest, failure)

/-- All tokens of `source` up to and including `eof`, or up to the first error. Every token but
the last takes at least one character. -/
def tokens (source : String) : List Token × Option Error :=
  tokensWith (source.toList.length + 1) (start source)

end Lexer

end XPath
