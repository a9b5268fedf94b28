import Backend386.Checked
import Backend386.Text.Escapes

/-!
# Operands

What an instruction works on: an immediate, a register, a memory reference
`symbol+offset(base,index,scale)` or the target of a jump or call.

* `MemRef.moveBy` — the same reference some bytes further on;
* `Operand.render` — the assembler's spelling;
* `Storage` — where the value of an entity lives, once it has been placed.
-/

namespace Backend386

/-- A constant known to the assembler: a number or the address of a symbol. -/
inductive Immediate where
  | int (value : Int64)
  | symbol (name : String)
deriving DecidableEq

namespace Immediate

/-- The text after the dollar sign. -/
def render : Immediate → String
  | int v => v.toInt.repr
  | symbol s => s

/-- The long form, used inside fault messages. -/
def inspect : Immediate → String
  | int v => "Int(" ++ v.toInt.repr ++ ")"
  | symbol s => "Symbol(" ++ Quoted.render s ++ ")"

end Immediate

/-- A reference to memory, every part of which is optional. -/
structure MemRef where
  base : Option Register := none
  /-- the index register and its scale -/
  index : Option (Register × UInt8) := none
  offset : Int64 := 0
  symbol : Option String := none
deriving DecidableEq

namespace MemRef

/-- The memory `offset` bytes from where `base` points. -/
def based (base : Register) (offset : Int64) : MemRef :=
  { base := some base, offset }

/-- The memory labelled `symbol`. -/
def labelled (symbol : String) : MemRef :=
  { symbol := some symbol }

/-- The same reference, `delta` bytes further on. -/
def moveBy (m : MemRef) (delta : Int64) : Except Fault MemRef := do
  return { m with offset := ← Checked.addInt m.offset delta }

/-- The part in front of the parentheses. -/
def renderDisplacement (m : MemRef) : String :=
  match m.symbol with
  | some s =>
    if m.offset = 0 then s
    else if 0 < m.offset then s ++ "+" ++ m.offset.toInt.repr
    else s ++ m.offset.toInt.repr
  | none => if m.offset = 0 ∧ m.base.isSome then "" else m.offset.toInt.repr

/-- The base and the index, in parentheses. -/
def renderRegisters (m : MemRef) : String :=
  match m.base, m.index with
  | some b, some (i, scale) => "(" ++ b.render ++ "," ++ i.render ++ "," ++ scale.toNat.repr ++ ")"
  | some b, none => "(" ++ b.render ++ ")"
  | none, some (i, scale) => "(," ++ i.render ++ "," ++ scale.toNat.repr ++ ")"
  | none, none => ""

/-- The assembler's spelling. -/
def render (m : MemRef) : String :=
  m.renderDisplacement ++ m.renderRegisters

/-- The long form, used inside fault messages. -/
def inspect (m : MemRef) : String :=
  let base := match m.base with
    | some r => "Some(" ++ r.inspect ++ ")"
    | none => "None"
  let index := match m.index with
    | some (r, scale) => "Some((" ++ r.inspect ++ ", " ++ scale.toNat.repr ++ "))"
    | none => "None"
  let symbol := match m.symbol with
    | some s => "Some(" ++ Quoted.render s ++ ")"
    | none => "None"
  "MemRef \x7b base: " ++ base ++ ", index: " ++ index ++ ", offset: " ++ m.offset.toInt.repr ++
    ", symbol: " ++ symbol ++ " \x7d"

end MemRef

/-- One operand of an instruction. -/
inductive Operand where
  | imm (value : Immediate)
  | reg (register : Register)
  | mem (reference : MemRef)
  /-- the target of a jump or a call -/
  | target (symbol : String)
deriving DecidableEq

namespace Operand

/-- An immediate number. -/
def int (value : Int64) : Operand :=
  imm (.int value)

/-- The register, if the operand is one. -/
def register? : Operand → Option Register
  | reg r => some r
  | _ => none

/-- The assembler's spelling. -/
def render : Operand → String
  | imm i => "$" ++ i.render
  | reg r => r.render
  | mem m => m.render
  | target s => s

end Operand

/-- Where the value of an entity lives. -/
inductive Storage where
  | register (r : Register)
  /-- a stack slot or labelled data -/
  | memory (m : MemRef)
  /-- a constant: the address of a function, or the value of a named constant -/
  | immediate (i : Immediate)
deriving DecidableEq

namespace Storage

/-- The operand that reads the stored value. -/
def operand : Storage → Operand
  | register r => .reg r
  | memory m => .mem m
  | immediate i => .imm i

/-- The long form, used inside fault messages. -/
def inspect : Storage → String
  | register r => "Register(" ++ r.inspect ++ ")"
  | memory m => "Memory(" ++ m.inspect ++ ")"
  | immediate i => "Immediate(" ++ i.inspect ++ ")"

end Storage

end Backend386
