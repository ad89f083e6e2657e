import XPath.Expr.Parser

/-!
# Attribute value templates

A template is a text with expressions in braces; a doubled brace stands for one. A brace between
the quotes of a string in an expression does not end the expression.
-/

namespace XPath

/-- A stretch of a template: text with its braces undoubled, or the text of an expression. -/
inductive TemplateStretch
  | text (cs : List Char)
  | code (cs : List Char)
  deriving DecidableEq, Repr

namespace TemplateStretch

/-- Where a scan stands: in text or in an expression, with the characters of the stretch so far,
latest first, and the open quote. -/
inductive Mode
  | text (latest : List Char)
  | code (latest : List Char) (quote : Option Char)

def quoteAfter (quote : Option Char) (c : Char) : Option Char :=
  match quote with
  | some q => if c == q then none else some q
  | none => if c == '"' || c == '\'' then some c else none

def ofText (latest : List Char) : List TemplateStretch :=
  if latest.isEmpty then [] else [.text latest.reverse]

def scan : Mode → List Char → List TemplateStretch × Option SyntaxFault
  | .text latest, [] => (ofText latest, none)
  | .text latest, '\x7b' :: '\x7b' :: cs => scan (.text ('\x7b' :: latest)) cs
  | .text latest, '\x7b' :: cs =>
    let (stretches, fault) := scan (.code [] none) cs
    (ofText latest ++ stretches, fault)
  | .text latest, '\x7d' :: '\x7d' :: cs => scan (.text ('\x7d' :: latest)) cs
  | .text _, '\x7d' :: _ => ([], some .singleClosingBrace)
  | .text latest, c :: cs => scan (.text (c :: latest)) cs
  | .code _ _, [] => ([], some .unclosedBrace)
  | .code latest quote, c :: cs =>
    if c == '\x7d' && quote.isNone then
      let (stretches, fault) := scan (.text []) cs
      (.code latest.reverse :: stretches, fault)
    else scan (.code (c :: latest) (quoteAfter quote c)) cs

def read (s : StaticScope) : TemplateStretch → Except Error TemplatePart
  | .text cs => .ok (.text (String.ofList cs))
  | .code cs => do return .expr (← Expr.read s (String.ofList cs))

end TemplateStretch

namespace Expr

def readTemplate (s : StaticScope) (source : String) : Except Error Expr := do
  let (stretches, fault) := TemplateStretch.scan (.text []) source.toList
  let parts ← stretches.mapM (TemplateStretch.read s)
  match fault with
  | some f => throw (.syntaxFault source f)
  | none => return template parts

def parseTemplate (s : StaticScope) (F : Forest) (source : String) : Except Error Expr :=
  deferIn s (do (← readTemplate s source).simplify F)

end Expr

end XPath
