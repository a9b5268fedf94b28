import Backend386.Fault
import Backend386.Source.Operator

/-!
# Operators of the intermediate code

Where the meaning of an operator depends on signedness there is one operator for signed and one for
unsigned operands.

* `Op.ofBinary`, `Op.ofUnary` — the operator that a source operator stands for;
* `Op.isCompare`, `Op.isUnary`, `Op.isSigned` — classes of operators.
-/

namespace Backend386.Ir

/-- The operators of intermediate expressions. -/
inductive Op where
  | add
  | sub
  | mul
  | sDiv
  | uDiv
  | sMod
  | uMod
  | bitAnd
  | bitOr
  | bitXor
  | shl
  /-- right shift that fills with zeros -/
  | shr
  /-- right shift that fills with the sign -/
  | sar
  | eq
  | ne
  | sGt
  | sGe
  | sLt
  | sLe
  | uGt
  | uGe
  | uLt
  | uLe
  | neg
  | bitNot
  | not
  /-- conversion of a signed value -/
  | sCast
  /-- conversion of an unsigned value -/
  | uCast
deriving DecidableEq, Inhabited, Repr

namespace Op

/-- The spelling in the text of intermediate code. -/
def render : Op → String
  | add => "ADD"
  | sub => "SUB"
  | mul => "MUL"
  | sDiv => "S_DIV"
  | uDiv => "U_DIV"
  | sMod => "S_MOD"
  | uMod => "U_MOD"
  | bitAnd => "BIT_AND"
  | bitOr => "BIT_OR"
  | bitXor => "BIT_XOR"
  | shl => "BIT_LSHIFT"
  | shr => "BIT_RSHIFT"
  | sar => "ARITH_RSHIFT"
  | eq => "EQ"
  | ne => "NEQ"
  | sGt => "S_GT"
  | sGe => "S_GTEQ"
  | sLt => "S_LT"
  | sLe => "S_LTEQ"
  | uGt => "U_GT"
  | uGe => "U_GTEQ"
  | uLt => "U_LT"
  | uLe => "U_LTEQ"
  | neg => "UMINUS"
  | bitNot => "BIT_NOT"
  | not => "NOT"
  | sCast => "S_CAST"
  | uCast => "U_CAST"

/-- The spelling in dumps. -/
def tag : Op → String
  | add => "Add"
  | sub => "Sub"
  | mul => "Mul"
  | sDiv => "SDiv"
  | uDiv => "UDiv"
  | sMod => "SMod"
  | uMod => "UMod"
  | bitAnd => "BitAnd"
  | bitOr => "BitOr"
  | bitXor => "BitXor"
  | shl => "BitLShift"
  | shr => "BitRShift"
  | sar => "ArithRShift"
  | eq => "Eq"
  | ne => "Neq"
  | sGt => "SGt"
  | sGe => "SGteq"
  | sLt => "SLt"
  | sLe => "SLteq"
  | uGt => "UGt"
  | uGe => "UGteq"
  | uLt => "ULt"
  | uLe => "ULteq"
  | neg => "UMinus"
  | bitNot => "BitNot"
  | not => "Not"
  | sCast => "SCast"
  | uCast => "UCast"

/-- All operators. -/
def all : List Op :=
  [add, sub, mul, sDiv, uDiv, sMod, uMod, bitAnd, bitOr, bitXor, shl, shr, sar, eq, ne, sGt, sGe,
    sLt, sLe, uGt, uGe, uLt, uLe, neg, bitNot, not, sCast, uCast]

/-- The operator that a binary source operator stands for. -/
def ofBinary (op : Source.BinaryOp) (signed : Bool) : Op :=
  match op with
  | .add => add
  | .sub => sub
  | .mul => mul
  | .div => if signed then sDiv else uDiv
  | .mod => if signed then sMod else uMod
  | .bitAnd => bitAnd
  | .bitOr => bitOr
  | .bitXor => bitXor
  | .shl => shl
  | .shr => if signed then sar else shr
  | .eq => eq
  | .ne => ne
  | .lt => if signed then sLt else uLt
  | .le => if signed then sLe else uLe
  | .gt => if signed then sGt else uGt
  | .ge => if signed then sGe else uGe

/-- The operator that a unary source operator stands for; plus is none. -/
def ofUnary : Source.UnaryOp → Except Fault Op
  | .plus => .error .unaryPlus
  | .minus => .ok neg
  | .bitNot => .ok bitNot
  | .not => .ok not

/-- The operator of an increment or a decrement. -/
def ofStep : Source.StepOp → Op
  | .inc => add
  | .dec => sub

/-- Comparisons, whose value is 0 or 1. -/
def isCompare : Op → Bool
  | eq | ne | sGt | sGe | sLt | sLe | uGt | uGe | uLt | uLe => true
  | _ => false

/-- Operators of one operand. -/
def isUnary : Op → Bool
  | neg | bitNot | not | sCast | uCast => true
  | _ => false

/-- Binary operators that read their operands as signed numbers. -/
def isSigned : Op → Bool
  | sDiv | sMod | sar | sGt | sGe | sLt | sLe => true
  | _ => false

end Op

end Backend386.Ir
