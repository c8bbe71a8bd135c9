/-! Operators and their spelling. An operator is a run of operator characters; a prefix sign is an
application of a variable of its own. -/
namespace Formula

def operatorChars : List Char := "+-*/%^=<>&|!".toList

def isOperatorChar (c : Char) : Bool := operatorChars.contains c

/-- A name made of operator characters alone can only be written after `op` or between operands. -/
def isOperatorName (name : String) : Bool :=
  !name.toList.isEmpty && name.toList.all isOperatorChar

/-- The operators that may stand between two operands. -/
inductive Operator where
  | index | power | times | divide | remainder | plus | minus
deriving DecidableEq, Repr

namespace Operator

def symbol : Operator → String
  | .index => "!"
  | .power => "**"
  | .times => "*"
  | .divide => "/"
  | .remainder => "%"
  | .plus => "+"
  | .minus => "-"

/-- How tightly an operator binds. -/
def level : Operator → Nat
  | .plus | .minus => 0
  | .times | .divide | .remainder => 1
  | .power => 2
  | .index => 3

/-- The levels from the tightest to the loosest. -/
def levels : List Nat := [3, 2, 1, 0]

/-- Reads a whole run of operator characters. -/
def ofSymbol? : List Char → Option Operator
  | ['!'] => some .index
  | ['*', '*'] => some .power
  | ['*'] => some .times
  | ['/'] => some .divide
  | ['%'] => some .remainder
  | ['+'] => some .plus
  | ['-'] => some .minus
  | _ => none

theorem ofSymbol?_symbol (op : Operator) : ofSymbol? op.symbol.toList = some op := by
  cases op <;> decide

end Operator

/-- The operators that may stand before an operand. -/
inductive Sign where
  | plus | minus
deriving DecidableEq, Repr

namespace Sign

def symbol : Sign → String
  | .plus => "+"
  | .minus => "-"

/-- The variable that a sign applies. -/
def name : Sign → String
  | .plus => "+_"
  | .minus => "-_"

def ofSymbol? : List Char → Option Sign
  | ['+'] => some .plus
  | ['-'] => some .minus
  | _ => none

/-- The sign that applies the variable `name`. -/
def ofName? (name : String) : Option Sign :=
  if name = Sign.plus.name then some .plus
  else if name = Sign.minus.name then some .minus
  else none

end Sign

end Formula
