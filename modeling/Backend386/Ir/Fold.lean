import Backend386.Ir.Expr

/-!
# Constant folding

Operations on integer literals are replaced by their value; static variables are emitted as data,
so their initializers have to come out as literals or addresses. Arithmetic is done in 64 bits and
cut back to the width of the node; operations without a value, such as a division by zero, stay.

* `Width.signExtend`, `Width.zeroExtend` — the two readings of the low bits of a literal;
* `Ir.Op.evaluate?` — the value of a binary operator on two literals;
* `Ir.Expr.fold` — folds an expression.
-/

namespace Backend386

/-- The low bits of `v`, read as a signed number. -/
def Width.signExtend (w : Width) (v : Int64) : Int64 :=
  match w with
  | .w8 => v.toInt8.toInt64
  | .w16 => v.toInt16.toInt64
  | .w32 => v.toInt32.toInt64
  | .w64 => v

/-- The low bits of `v`, read as an unsigned number. -/
def Width.zeroExtend (w : Width) (v : Int64) : UInt64 :=
  match w with
  | .w8 => v.toUInt64.toUInt8.toUInt64
  | .w16 => v.toUInt64.toUInt16.toUInt64
  | .w32 => v.toUInt64.toUInt32.toUInt64
  | .w64 => v.toUInt64

namespace Ir

/-- The number that a truth value is. -/
def truthValue (p : Prop) [Decidable p] : Int64 :=
  if p then 1 else 0

/-- A shift count within 64 bits. -/
def shiftCount? (count : Int64) : Option Int64 :=
  if 0 ≤ count ∧ count < 64 then some count else none

/-- The value of a binary operator on two literals, the unsigned operators reading `w` bits of
each. Division by zero, the one quotient that does not fit, and shifts by 64 or more have none. -/
def Op.evaluate? (op : Op) (w : Width) (a b : Int64) : Option Int64 :=
  -- unsigned operations see their operands in the width of the operation
  let ua := w.zeroExtend a
  let ub := w.zeroExtend b
  -- a quotient that does not fit is left alone, as a division by zero is
  let quotientFits := b ≠ 0 ∧ ¬ (a = Int64.minValue ∧ b = -1)
  match op with
  | .add => some (a + b)
  | .sub => some (a - b)
  | .mul => some (a * b)
  | .sDiv => if quotientFits then some (a / b) else none
  | .uDiv => if ub ≠ 0 then some (ua / ub).toInt64 else none
  | .sMod => if quotientFits then some (a % b) else none
  | .uMod => if ub ≠ 0 then some (ua % ub).toInt64 else none
  | .bitAnd => some (a &&& b)
  | .bitOr => some (a ||| b)
  | .bitXor => some (a ^^^ b)
  | .shl => (shiftCount? b).map (a <<< ·)
  | .sar => (shiftCount? b).map (a >>> ·)
  | .shr => (shiftCount? b).map fun n => (ua >>> n.toUInt64).toInt64
  -- equality compares the literals as they are written
  | .eq => some (truthValue (a = b))
  | .ne => some (truthValue (a ≠ b))
  | .sGt => some (truthValue (b < a))
  | .sGe => some (truthValue (b ≤ a))
  | .sLt => some (truthValue (a < b))
  | .sLe => some (truthValue (a ≤ b))
  | .uGt => some (truthValue (ub < ua))
  | .uGe => some (truthValue (ub ≤ ua))
  | .uLt => some (truthValue (ua < ub))
  | .uLe => some (truthValue (ua ≤ ub))
  -- these have one operand
  | .neg | .bitNot | .not | .sCast | .uCast => none

namespace Expr

/-- Folds a unary operation whose operand is folded already. -/
def foldUni (w : Width) (op : Op) : Expr → Expr
  | int w' v =>
    match op with
    | .neg => int w (w.signExtend (-v))
    | .bitNot => int w (w.signExtend (~~~v))
    | .not => int w (truthValue (v = 0))
    | .sCast => int w (w.signExtend v)
    | .uCast => int w (w.signExtend (w'.zeroExtend v).toInt64)
    | _ => uni w op (int w' v)
  | e => uni w op e

/-- Folds a binary operation whose operands are folded already. -/
def foldBin (w : Width) (op : Op) : Expr → Expr → Expr
  | int wl a, int wr b =>
    match op.evaluate? wl a b with
    | some v => int w (w.signExtend v)
    | none => bin w op (int wl a) (int wr b)
  | l, r => bin w op l r

/-- Replaces the operations on integer literals by their values. Addresses, loads and calls are
left as they are, with all that is in them. -/
def fold : Expr → Expr
  | uni w op e => foldUni w op (fold e)
  | bin w op l r => foldBin w op (fold l) (fold r)
  | e => e

end Expr

end Ir

end Backend386
