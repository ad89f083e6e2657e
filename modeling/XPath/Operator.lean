/-!
# Operators and static types

The binary operators with their spelling, the operators on node-sets, and the static types that
an expression can have.
-/

namespace XPath

inductive DataType
  | boolean
  | number
  | string
  | nodeSet
  | object
  | any
  deriving DecidableEq, Repr, Inhabited

def DataType.name : DataType → String
  | boolean => "Boolean"
  | number => "Number"
  | string => "String"
  | nodeSet => "NodeSet"
  | object => "Object"
  | any => "Any"

/-- The operators between two operands, loosest first. -/
inductive BinaryOperator
  | or
  | and
  | equals
  | notEquals
  | lessThan
  | lessThanOrEqual
  | greaterThan
  | greaterThanOrEqual
  | plus
  | minus
  | multiply
  | divide
  | modulo
  deriving DecidableEq, Repr, Inhabited

namespace BinaryOperator

def symbol : BinaryOperator → String
  | or => "or"
  | and => "and"
  | equals => "="
  | notEquals => "!="
  | lessThan => "<"
  | lessThanOrEqual => "<="
  | greaterThan => ">"
  | greaterThanOrEqual => ">="
  | plus => "+"
  | minus => "-"
  | multiply => "*"
  | divide => "div"
  | modulo => "mod"

def isBoolean : BinaryOperator → Bool
  | or | and => true
  | _ => false

/-- The six operators `=`, `!=`, `<`, `<=`, `>` and `>=`. -/
def isComparison : BinaryOperator → Bool
  | equals | notEquals | lessThan | lessThanOrEqual | greaterThan | greaterThanOrEqual => true
  | _ => false

def isArithmetic : BinaryOperator → Bool
  | plus | minus | multiply | divide | modulo => true
  | _ => false

/-- The operator for swapped operands: `a < b` says the same as `b > a`. -/
def inverse : BinaryOperator → BinaryOperator
  | lessThan => greaterThan
  | lessThanOrEqual => greaterThanOrEqual
  | greaterThan => lessThan
  | greaterThanOrEqual => lessThanOrEqual
  | op => op

@[simp] theorem inverse_inverse (op : BinaryOperator) : op.inverse.inverse = op := by
  cases op <;> rfl

@[simp] theorem isComparison_inverse (op : BinaryOperator) :
    op.inverse.isComparison = op.isComparison := by
  cases op <;> rfl

/-- A comparison of two numbers; any comparison but `!=` with a NaN is false. -/
def compareNumbers (op : BinaryOperator) (x y : Float) : Bool :=
  match op with
  | equals => x == y
  | notEquals => x != y
  | lessThan => decide (x < y)
  | lessThanOrEqual => decide (x ≤ y)
  | greaterThan => decide (y < x)
  | greaterThanOrEqual => decide (y ≤ x)
  | _ => false

end BinaryOperator

inductive SetOperator
  | union
  | intersect
  | except
  deriving DecidableEq, Repr, Inhabited

namespace SetOperator

def symbol : SetOperator → String
  | union => "|"
  | intersect => "intersect"
  | except => "except"

def ofName? (name : String) : Option SetOperator :=
  [("union", union), ("intersect", intersect), ("except", except)].lookup name

end SetOperator

end XPath
