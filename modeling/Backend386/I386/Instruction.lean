import Backend386.I386.Operand

/-!
# Instructions

The part of the i386 instruction set that the generator uses. Instructions of two operands name the
source first and the destination second.

* `Instruction` — the instructions;
* `Instruction.mnemonic` — the assembler's name with its width letter, which is taken from the last
  register among the operands;
* `Instruction.render` — a line of a listing.
-/

namespace Backend386

/-- The conditions of conditional jumps and sets. -/
inductive Condition where
  | e
  | ne
  | l
  | le
  | g
  | ge
  | b
  | be
  | a
  | ae
deriving DecidableEq, Inhabited, Repr

namespace Condition

/-- The assembler's spelling. -/
def render : Condition → String
  | e => "e"
  | ne => "ne"
  | l => "l"
  | le => "le"
  | g => "g"
  | ge => "ge"
  | b => "b"
  | be => "be"
  | a => "a"
  | ae => "ae"

/-- The spelling in dumps. -/
def tag : Condition → String
  | e => "E"
  | ne => "Ne"
  | l => "L"
  | le => "Le"
  | g => "G"
  | ge => "Ge"
  | b => "B"
  | be => "Be"
  | a => "A"
  | ae => "Ae"

/-- All conditions. -/
def all : List Condition :=
  [e, ne, l, le, g, ge, b, be, a, ae]

end Condition

/-- Operations on one operand. -/
inductive UnaryInst where
  | idiv
  | div
  | neg
  | not
deriving DecidableEq, Inhabited, Repr

namespace UnaryInst

/-- The mnemonic without its width letter. -/
def render : UnaryInst → String
  | idiv => "idiv"
  | div => "div"
  | neg => "neg"
  | not => "not"

/-- The spelling in dumps. -/
def tag : UnaryInst → String
  | idiv => "Idiv"
  | div => "Div"
  | neg => "Neg"
  | not => "Not"

/-- All operations on one operand. -/
def all : List UnaryInst :=
  [idiv, div, neg, not]

end UnaryInst

/-- Operations on a source and a destination. -/
inductive BinaryInst where
  | mov
  | add
  | sub
  | imul
  | and
  | or
  | xor
  | sal
  | sar
  | shr
  | cmp
  | test
deriving DecidableEq, Inhabited, Repr

namespace BinaryInst

/-- The mnemonic without its width letter. -/
def render : BinaryInst → String
  | mov => "mov"
  | add => "add"
  | sub => "sub"
  | imul => "imul"
  | and => "and"
  | or => "or"
  | xor => "xor"
  | sal => "sal"
  | sar => "sar"
  | shr => "shr"
  | cmp => "cmp"
  | test => "test"

/-- The spelling in dumps. -/
def tag : BinaryInst → String
  | mov => "Mov"
  | add => "Add"
  | sub => "Sub"
  | imul => "Imul"
  | and => "And"
  | or => "Or"
  | xor => "Xor"
  | sal => "Sal"
  | sar => "Sar"
  | shr => "Shr"
  | cmp => "Cmp"
  | test => "Test"

/-- All operations on a source and a destination. -/
def all : List BinaryInst :=
  [mov, add, sub, imul, and, or, xor, sal, sar, shr, cmp, test]

end BinaryInst

/-- An instruction. -/
inductive Instruction where
  | jmp (target : Operand)
  | jcc (condition : Condition) (target : Operand)
  | call (target : Operand)
  | ret
  /-- extends `eax` with its sign into `edx` -/
  | cltd
  | push (a : Operand)
  | pop (a : Operand)
  | lea (src dst : Operand)
  /-- a move from a value of width `narrow` that fills with the sign or with zeros -/
  | extend (signed : Bool) (narrow : Width) (src dst : Operand)
  | unary (op : UnaryInst) (a : Operand)
  | binary (op : BinaryInst) (src dst : Operand)
  /-- sets a byte to 0 or 1 -/
  | set (condition : Condition) (dst : Operand)
deriving DecidableEq

namespace Instruction

/-- The operands, in the order they are written. -/
def operands : Instruction → List Operand
  | ret | cltd => []
  | jmp a | jcc _ a | call a | push a | pop a | unary _ a | set _ a => [a]
  | lea a b | extend _ _ a b | binary _ a b => [a, b]

/-- The width letter: that of the last register among the operands, and `l` without any. -/
def suffix (i : Instruction) : String :=
  match i.operands.reverse.findSome? Operand.register? with
  | some r => r.size.suffix
  | none => Width.w32.suffix

/-- The mnemonic with its width letter. -/
def mnemonic (i : Instruction) : String :=
  match i with
  | jmp _ => "jmp"
  | jcc c _ => "j" ++ c.render
  | call _ => "call"
  | ret => "ret"
  | cltd => "cltd"
  | push _ => "pushl"
  | pop _ => "popl"
  | lea .. => "leal"
  -- an extension has two suffixes, that of what is read and that of what is written
  | extend true narrow _ _ => "movs" ++ narrow.suffix ++ i.suffix
  | extend false narrow _ _ => "movz" ++ narrow.suffix ++ i.suffix
  | unary op _ => op.render ++ i.suffix
  | binary op _ _ => op.render ++ i.suffix
  | set c _ => "set" ++ c.render

/-- The line of an instruction, without its end. Jumps and calls through a register have a star. -/
def render (i : Instruction) : String :=
  match i with
  | jmp (.reg r) | call (.reg r) => "\t" ++ i.mnemonic ++ "\t*" ++ r.render
  | _ =>
    let operands := i.operands.map (·.render)
    "\t" ++ i.mnemonic ++ (if operands.isEmpty then "" else "\t" ++ ", ".intercalate operands)

end Instruction

end Backend386
