import XPath.Evaluation
import XPath.Expr.Parser
import XPath.Host.Routine
import XPath.Xml.Assembly

/-!
# Queries on one document

An expression without variables, prefixes and functions of its own is evaluated at the root of a
single document.
-/

namespace XPath

namespace Document

def alone (d : Document) : Forest := ⟨#[d]⟩

def evaluate (d : Document) (expression : String) : Except Error Value := do
  let e ← Expr.parse {} d.alone expression
  e.evaluate (.ofRoutines d.alone []) (.ofNode ⟨0, 0⟩)

def evaluateText (d : Document) (expression : String) : Except Error String := do
  (← d.evaluate expression).toText d.alone

def select (d : Document) (expression : String) : Except Error (List Node) := do
  match ← d.evaluate expression with
  | .nodeSet s => s.toList d.alone
  | other => throw (.typeFault (.selectsNoNodes expression other.dataType))

def find? (d : Document) (localPart : String) : Option Node := d.alone.elementNamed? 0 localPart

end Document

end XPath
