import XPath.Text.CharClass

/-!
# Characters and names of XML

The characters that a document may hold, those of its names, and names as a document writes them.
-/

namespace XPath.Xml

def isLegal (c : Char) : Bool :=
  if c.toNat < 0x20 then isSpace c else c.toNat != 0xFFFE && c.toNat != 0xFFFF

/-- The code points beyond ASCII that may start a name, as first and last of each run. -/
def nameStartRuns : List (Nat × Nat) := [
  (0xC0, 0xD6), (0xD8, 0xF6), (0xF8, 0x2FF), (0x370, 0x37D), (0x37F, 0x1FFF), (0x200C, 0x200D),
  (0x2070, 0x218F), (0x2C00, 0x2FEF), (0x3001, 0xD7FF), (0xF900, 0xFDCF), (0xFDF0, 0xFFFD),
  (0x10000, 0xEFFFF)]

def nameOnlyRuns : List (Nat × Nat) := [(0xB7, 0xB7), (0x300, 0x36F), (0x203F, 0x2040)]

def isIn (runs : List (Nat × Nat)) (c : Char) : Bool :=
  runs.any fun (first, last) => first ≤ c.toNat && c.toNat ≤ last

def isNameStart (c : Char) : Bool :=
  c.isAlpha || c == '_' || c == ':' || isIn nameStartRuns c

def isNameChar (c : Char) : Bool :=
  isNameStart c || c.isDigit || c == '-' || c == '.' || isIn nameOnlyRuns c

/-- A name as it is written: the prefix is empty if there is none. -/
structure WrittenName where
  namePrefix : String
  localPart : String
  deriving DecidableEq, Repr, Inhabited

end XPath.Xml
