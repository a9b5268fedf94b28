/-!
# Operators of the source program
-/

namespace Backend386.Source

/-- The binary operators. -/
inductive BinaryOp where
  | add
  | sub
  | mul
  | div
  | mod
  | bitAnd
  | bitOr
  | bitXor
  | shl
  | shr
  | eq
  | ne
  | lt
  | le
  | gt
  | ge
deriving DecidableEq, Inhabited, Repr

namespace BinaryOp

/-- The sign of the operator. -/
def render : BinaryOp → String
  | add => "+"
  | sub => "-"
  | mul => "*"
  | div => "/"
  | mod => "%"
  | bitAnd => "&"
  | bitOr => "|"
  | bitXor => "^"
  | shl => "<<"
  | shr => ">>"
  | eq => "=="
  | ne => "!="
  | lt => "<"
  | le => "<="
  | gt => ">"
  | ge => ">="

/-- The spelling in program units. -/
def tag : BinaryOp → String
  | add => "add"
  | sub => "sub"
  | mul => "mul"
  | div => "div"
  | mod => "mod"
  | bitAnd => "bit_and"
  | bitOr => "bit_or"
  | bitXor => "bit_xor"
  | shl => "shl"
  | shr => "shr"
  | eq => "eq"
  | ne => "ne"
  | lt => "lt"
  | le => "le"
  | gt => "gt"
  | ge => "ge"

/-- All binary operators. -/
def all : List BinaryOp :=
  [add, sub, mul, div, mod, bitAnd, bitOr, bitXor, shl, shr, eq, ne, lt, le, gt, ge]

/-- Whether the operator orders its operands, so that its meaning depends on their signedness. -/
def isOrdering : BinaryOp → Bool
  | lt | le | gt | ge => true
  | _ => false

end BinaryOp

/-- The unary operators. -/
inductive UnaryOp where
  | plus
  | minus
  | bitNot
  | not
deriving DecidableEq, Inhabited, Repr

namespace UnaryOp

/-- The spelling in program units. -/
def tag : UnaryOp → String
  | plus => "plus"
  | minus => "minus"
  | bitNot => "bit_not"
  | not => "not"

/-- All unary operators. -/
def all : List UnaryOp :=
  [plus, minus, bitNot, not]

end UnaryOp

/-- The operators that do not always evaluate their right operand. -/
inductive LogicalOp where
  | and
  | or
deriving DecidableEq, Inhabited, Repr

namespace LogicalOp

/-- The spelling in program units. -/
def tag : LogicalOp → String
  | and => "and"
  | or => "or"

/-- Both logical operators. -/
def all : List LogicalOp :=
  [and, or]

end LogicalOp

/-- Increment or decrement. -/
inductive StepOp where
  | inc
  | dec
deriving DecidableEq, Inhabited, Repr

namespace StepOp

/-- The spelling in program units. -/
def tag : StepOp → String
  | inc => "inc"
  | dec => "dec"

/-- Both steps. -/
def all : List StepOp :=
  [inc, dec]

end StepOp

end Backend386.Source
