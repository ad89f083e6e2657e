import XPath.Lexer

/-!
# Reading a list of tokens

A cursor stands on a token with the rest of the tokens behind it. A text that breaks off in an
error yields the tokens before the error; the error is met by stepping over the last of them, so
it does not hide a fault of the tokens before it.
-/

namespace XPath

/-- The token under the cursor, the tokens behind it and the error, if any, behind those. -/
structure Cursor where
  source : String
  current : Token
  rest : List Token
  failure : Option Error
  deriving Inhabited

/-- A reader takes tokens from the front and yields a result, or fails. -/
abbrev Reader (α : Type) := StateT Cursor (Except Error) α

namespace Cursor

def start (source : String) : Except Error Cursor :=
  match Lexer.tokens source with
  | (current :: rest, failure) => .ok ⟨source, current, rest, failure⟩
  | ([], some e) => .error e
  | ([], none) => .ok ⟨source, ⟨.eof, "", 0⟩, [], none⟩

/-- Steps to the next token. The last token of a text without errors stays. -/
def step (c : Cursor) : Except Error Cursor :=
  match c.rest, c.failure with
  | next :: rest, _ => .ok { c with current := next, rest }
  | [], some e => .error e
  | [], none => .ok c

end Cursor

namespace Reader

def kind : Reader TokenKind := do return (← get).current.kind

def sees (k : TokenKind) : Reader Bool := do return (← kind) == k

def remaining : Reader Nat := do return (← get).rest.length

def fault {α : Type} (f : SyntaxFault) : Reader α := do throw (.syntaxFault (← get).source f)

def faultHere {α : Type} (f : Token → SyntaxFault) : Reader α := do fault (f (← get).current)

def advance : Reader Token := do
  let c ← get
  set (← c.step)
  return c.current

/-- Steps over a token of the kind `k`, which must be the current one. -/
def expect (k : TokenKind) : Reader Token := do
  if ← sees k then advance else faultHere (.expected k)

def run {α : Type} (reader : Reader α) (source : String) : Except Error α := do
  let (result, c) ← StateT.run reader (← Cursor.start source)
  if c.current.kind = .eof then return result
  else throw (.syntaxFault source (.beyondEnd c.current))

end Reader

end XPath
