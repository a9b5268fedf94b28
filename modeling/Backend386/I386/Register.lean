import Backend386.Width

/-!
# Registers of the i386

A register class is one of the eight general purpose registers; a register is a view of a class at
a width. Only four classes have a byte view and none has a 64 bit view, so a `Register` carries the
proof that its view exists.

* `RegisterClass.hasView` — which views exist;
* `Register.name`, `Register.render` — the assembler's spelling.
-/

namespace Backend386

/-- A general purpose register, whatever part of it is in use. -/
inductive RegisterClass where
  | ax
  | bx
  | cx
  | dx
  | si
  | di
  | sp
  | bp
deriving DecidableEq, Inhabited, Repr

namespace RegisterClass

/-- The two letters of the 16 bit view, one by one. -/
def letters : RegisterClass → String × String
  | ax => ("a", "x")
  | bx => ("b", "x")
  | cx => ("c", "x")
  | dx => ("d", "x")
  | si => ("s", "i")
  | di => ("d", "i")
  | sp => ("s", "p")
  | bp => ("b", "p")

/-- The spelling in dumps and fault messages. -/
def tag : RegisterClass → String
  | ax => "Ax"
  | bx => "Bx"
  | cx => "Cx"
  | dx => "Dx"
  | si => "Si"
  | di => "Di"
  | sp => "Sp"
  | bp => "Bp"

/-- Whether the i386 has a view of this register of width `w`. -/
def hasView : RegisterClass → Width → Bool
  | _, .w64 => false
  | ax, .w8 | bx, .w8 | cx, .w8 | dx, .w8 => true
  | _, .w8 => false
  | _, _ => true

end RegisterClass

/-- A view of a register that exists on the i386. -/
structure Register where
  cls : RegisterClass
  size : Width
  exists_view : cls.hasView size = true := by rfl
deriving DecidableEq

namespace Register

/-- The accumulator, which receives the value of every expression. -/
def eax : Register := { cls := .ax, size := .w32 }

/-- The second operand of binary operations. -/
def ecx : Register := { cls := .cx, size := .w32 }

/-- The high half of a dividend, and the remainder. -/
def edx : Register := { cls := .dx, size := .w32 }

/-- The stack pointer. -/
def esp : Register := { cls := .sp, size := .w32 }

/-- The frame base. -/
def ebp : Register := { cls := .bp, size := .w32 }

/-- The low byte of the accumulator. -/
def al : Register := { cls := .ax, size := .w8 }

/-- The low byte of `ecx`, the only register that can hold a shift count. -/
def cl : Register := { cls := .cx, size := .w8 }

/-- The name without the percent sign. -/
def name (r : Register) : String :=
  let (first, second) := r.cls.letters
  match r.size with
  | .w8 => first ++ "l"
  | .w16 => first ++ second
  | .w32 => "e" ++ first ++ second
  | .w64 => "r" ++ first ++ second

/-- The assembler's spelling. -/
def render (r : Register) : String :=
  "%" ++ r.name

/-- The long form, used inside fault messages. -/
def inspect (r : Register) : String :=
  "Reg \x7b class: " ++ r.cls.tag ++ ", size: " ++ r.size.tag ++ " \x7d"

end Register

end Backend386
