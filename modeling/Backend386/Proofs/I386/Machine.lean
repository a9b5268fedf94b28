import Mathlib.Data.BitVec
import Backend386.I386.Listing
import Backend386.Width

/-!
# The i386 machine

What the instructions of a listing do, one after another. Jumps, calls and returns are left to the
layer above: here they have no next state. Neither has an instruction that the processor or the
assembler refuses, such as a division by zero or a move from memory to memory.

Memory has a byte at each of the `2 ^ 32` addresses. Addresses wrap round, and values of several
bytes have their low byte first.

* `Memory.load`, `Memory.store` — values of so many bytes at an address;
* `Below` — the bytes under a stack pointer, which the code of an expression writes to. Everything
  that a proof needs to know of a push or a pop is that it stays in such an area;
* `Machine` — registers, memory and flags. The flags are absent while the manual leaves one of them
  undefined, so code that looks at such a flag is stuck;
* `Machine.read`, `Machine.write` — operands at a width;
* `Machine.exec`, `Machine.run` — an instruction, and the items of a listing first to last.
-/

namespace Backend386

/-- An address of the i386, and also what fits in a register. -/
abbrev Address := BitVec 32

/-- A byte at each address. -/
abbrev Memory := Address → BitVec 8

namespace Memory

/-- The value of `n` bytes at an address, the low byte first. -/
def load (m : Memory) (a : Address) : (n : Nat) → BitVec (8 * n)
  | 0 => 0#0
  | n + 1 => m.load (a + 1) n ++ m a

/-- The memory once a value of `n` bytes is stored at an address. -/
def store (m : Memory) (a : Address) (n : Nat) (v : BitVec (8 * n)) : Memory := fun b =>
  if (b - a).toNat < n then v.extractLsb' (8 * (b - a).toNat) 8 else m b

theorem next_add (a : Address) (i : Nat) :
    a + 1 + BitVec.ofNat 32 i = a + BitVec.ofNat 32 (i + 1) := by
  rw [BitVec.ofNat_add, BitVec.add_assoc, BitVec.add_comm (BitVec.ofNat 32 i)]
  rfl

/-- A value depends on its bytes only. -/
theorem load_congr {m m' : Memory} {n : Nat} :
    ∀ {a : Address}, (∀ i < n, m' (a + BitVec.ofNat 32 i) = m (a + BitVec.ofNat 32 i)) →
      m'.load a n = m.load a n := by
  induction n with
  | zero => intro a _; rfl
  | succ n ih =>
    intro a h
    have h₀ : m' a = m a := by simpa using h 0 (by omega)
    have hs : m'.load (a + 1) n = m.load (a + 1) n := by
      refine ih fun i hi => ?_
      rw [next_add]
      exact h (i + 1) (by omega)
    rw [load, load, h₀, hs]

/-- The bits of a value are the bits of its bytes. -/
theorem getLsbD_load {m : Memory} {n : Nat} :
    ∀ {a : Address} {i : Nat}, i < 8 * n →
      (m.load a n).getLsbD i = (m (a + BitVec.ofNat 32 (i / 8))).getLsbD (i % 8) := by
  induction n with
  | zero => intro a i hi; omega
  | succ n ih =>
    intro a i hi
    rw [load, BitVec.getLsbD_append]
    by_cases h8 : i < 8
    · have hd : i / 8 = 0 := by omega
      have hm : i % 8 = i := by omega
      simp [h8, hd, hm]
    · have hd : i / 8 = (i - 8) / 8 + 1 := by omega
      have hm : i % 8 = (i - 8) % 8 := by omega
      rw [if_neg h8, ih (by omega), hd, hm, next_add]

/-- What was stored is read back. -/
theorem load_store_same {m : Memory} {a : Address} {n : Nat} {v : BitVec (8 * n)}
    (hn : n ≤ 2 ^ 32) : (m.store a n v).load a n = v := by
  refine BitVec.eq_of_getLsbD_eq fun i hi => ?_
  have hoff : (a + BitVec.ofNat 32 (i / 8) - a).toNat = i / 8 := by
    rw [BitVec.add_comm, BitVec.add_sub_cancel, BitVec.toNat_ofNat, Nat.mod_eq_of_lt (by omega)]
  rw [getLsbD_load hi, store, hoff, if_pos (by omega), BitVec.getLsbD_extractLsb',
    Nat.div_add_mod]
  simp [Nat.mod_lt]

/-- A store leaves the other bytes alone. -/
theorem store_other {m : Memory} {a b : Address} {n : Nat} {v : BitVec (8 * n)}
    (h : ¬ (b - a).toNat < n) : m.store a n v b = m b := by
  rw [store, if_neg h]

end Memory

/-! ## The area under a stack pointer -/

/-- The `n` bytes under `sp`. -/
def Below (sp : Address) (n : Nat) (a : Address) : Prop :=
  (sp - 1 - a).toNat < n

instance (sp : Address) (n : Nat) (a : Address) : Decidable (Below sp n a) :=
  inferInstanceAs (Decidable (_ < _))

namespace Below

theorem mono {sp : Address} {m n : Nat} {a : Address} (h : Below sp m a) (hmn : m ≤ n) :
    Below sp n a :=
  Nat.lt_of_lt_of_le h hmn

/-- An area that fills the memory holds every address. -/
theorem le_of_not {sp a : Address} {n : Nat} (h : ¬ Below sp n a) : n ≤ 2 ^ 32 :=
  (not_lt.1 h).trans (BitVec.isLt _).le

/-- An area under a lower stack pointer lies in a larger area under a higher one. -/
theorem of_sub {sp a : Address} {k n : Nat} (hn : k + n ≤ 2 ^ 32)
    (h : Below (sp - BitVec.ofNat 32 k) n a) : Below sp (k + n) a := by
  unfold Below at *
  bv_omega

/-- The `k` bytes that were just pushed are part of the area under the old stack pointer. -/
theorem of_pushed {sp a : Address} {k n : Nat} (hk : k ≤ n)
    (h : (a - (sp - BitVec.ofNat 32 k)).toNat < k) : Below sp n a := by
  unfold Below at *
  bv_omega

/-- What was pushed is above the area under the new stack pointer. -/
theorem not_pushed {sp a : Address} {k n : Nat} (hn : k + n ≤ 2 ^ 32)
    (h : (a - (sp - BitVec.ofNat 32 k)).toNat < k) : ¬ Below (sp - BitVec.ofNat 32 k) n a := by
  unfold Below at *
  bv_omega

/-- What is above the stack pointer is not under it. -/
theorem not_above {sp : Address} {i k n : Nat} (hn : k + n ≤ 2 ^ 32) (hi : i < k) :
    ¬ Below sp n (sp + BitVec.ofNat 32 i) := by
  unfold Below
  bv_omega

/-- When the area does not reach past address 0, nothing at or above the stack pointer is in it. -/
theorem not_of_le {sp a : Address} {n : Nat} (hn : n ≤ sp.toNat) (h : sp ≤ a) :
    ¬ Below sp n a := by
  unfold Below
  bv_omega

end Below

/-! ## Machines -/

/-- The address of each symbol. -/
abbrev Symbols := String → Address

/-- The flags that conditions look at. -/
structure Flags where
  zero : Bool
  sign : Bool
  carry : Bool
  overflow : Bool
deriving DecidableEq

namespace Flags

variable {n : Nat}

/-- The flags of `a + b`. -/
def ofAdd (a b : BitVec n) : Flags where
  zero := a + b == 0
  sign := (a + b).msb
  carry := a.uaddOverflow b
  overflow := a.saddOverflow b

/-- The flags of `a - b`. -/
def ofSub (a b : BitVec n) : Flags where
  zero := a - b == 0
  sign := (a - b).msb
  carry := a.ult b
  overflow := a.ssubOverflow b

/-- The flags of the result of a bitwise operation. -/
def ofLogic (v : BitVec n) : Flags where
  zero := v == 0
  sign := v.msb
  carry := false
  overflow := false

end Flags

/-- Whether a condition holds. -/
def Condition.holds (f : Flags) : Condition → Bool
  | e => f.zero
  | ne => !f.zero
  | l => f.sign != f.overflow
  | le => f.zero || f.sign != f.overflow
  | g => !f.zero && f.sign == f.overflow
  | ge => f.sign == f.overflow
  | b => f.carry
  | be => f.carry || f.zero
  | a => !f.carry && !f.zero
  | ae => !f.carry

/-- The state of the processor and its memory. -/
structure Machine where
  regs : RegisterClass → Address
  memory : Memory
  flags : Option Flags

/-- The value of a constant of the assembler. -/
def Immediate.value (σ : Symbols) : Immediate → BitVec 64
  | int v => v.toBitVec
  | symbol s => (σ s).setWidth 64

/-- The width that an instruction works at: that of the last register among its operands. -/
def Instruction.width (i : Instruction) : Width :=
  match i.operands.reverse.findSome? Operand.register? with
  | some r => r.size
  | none => .w32

/-- The result of an operation on two operands, and the flags it leaves. -/
def BinaryInst.result? {n : Nat} (op : BinaryInst) (a b : BitVec n) :
    Option (BitVec n × Option Flags) :=
  match op with
  | add => some (a + b, some (.ofAdd a b))
  | sub => some (a - b, some (.ofSub a b))
  | imul => some (a * b, none)
  | and => some (a &&& b, some (.ofLogic (a &&& b)))
  | or => some (a ||| b, some (.ofLogic (a ||| b)))
  | xor => some (a ^^^ b, some (.ofLogic (a ^^^ b)))
  | _ => none

/-- The result of a shift. -/
def BinaryInst.shift? {n : Nat} (op : BinaryInst) (a : BitVec n) (count : Nat) :
    Option (BitVec n) :=
  match op with
  | sal => some (a <<< count)
  | shr => some (a >>> count)
  | sar => some (a.sshiftRight count)
  | _ => none

namespace Machine

/-! ## Registers and operands -/

/-- The view of a register at a width. -/
def view (s : Machine) (c : RegisterClass) (w : Width) : BitVec w.bits :=
  (s.regs c).setWidth w.bits

/-- Writes to the view of a register. The rest of the register stays. -/
def setView (s : Machine) (c : RegisterClass) (w : Width) (v : BitVec w.bits) : Machine :=
  { s with regs := fun c' =>
      if c' = c then (s.regs c >>> w.bits) <<< w.bits ||| v.setWidth 32 else s.regs c' }

/-- The address of a memory reference. -/
def address (σ : Symbols) (s : Machine) (m : MemRef) : Address :=
  m.base.elim 0 (fun r => s.regs r.cls) +
    m.index.elim 0 (fun i => s.regs i.1.cls * BitVec.ofNat 32 i.2.toNat) +
    m.offset.toBitVec.setWidth 32 + m.symbol.elim 0 σ

/-- The value of an operand. -/
def read (σ : Symbols) (s : Machine) (w : Width) : Operand → Option (BitVec w.bits)
  | .imm i => some ((i.value σ).setWidth w.bits)
  | .reg r => if r.size = w then some (s.view r.cls w) else none
  | .mem m => some (s.memory.load (s.address σ m) w.bytes)
  | .target _ => none

/-- Writes to an operand. -/
def write (σ : Symbols) (s : Machine) (w : Width) (v : BitVec w.bits) : Operand → Option Machine
  | .reg r => if r.size = w then some (s.setView r.cls w v) else none
  | .mem m => some { s with memory := s.memory.store (s.address σ m) w.bytes v }
  | _ => none

/-- The count of a shift, of which the processor looks at five bits. -/
def count? (σ : Symbols) (s : Machine) : Operand → Option Nat
  | .imm i => some ((i.value σ).toNat % 32)
  | .reg r => if r = .cl then some ((s.view .cx .w8).toNat % 32) else none
  | _ => none

/-! ## Instructions -/

/-- Pushes a word. -/
def push (s : Machine) (v : Address) : Machine :=
  let sp := s.regs .sp - 4
  { s with
    regs := fun c => if c = .sp then sp else s.regs c
    memory := s.memory.store sp 4 v }

/-- The word on top of the stack. -/
def top (s : Machine) : Address :=
  s.memory.load (s.regs .sp) 4

/-- Takes the word on top off the stack. -/
def drop (s : Machine) : Machine :=
  { s with regs := fun c => if c = .sp then s.regs .sp + 4 else s.regs c }

/-- Leaves a quotient in `eax` and a remainder in `edx`. -/
def setQuotient (s : Machine) (q r : Int) : Machine where
  regs c := if c = .ax then BitVec.ofInt 32 q else if c = .dx then BitVec.ofInt 32 r else s.regs c
  memory := s.memory
  flags := none

/-- Divides `edx:eax` by a word. There is no next state if the quotient does not fit. -/
def divide (s : Machine) (signed : Bool) (d : Address) : Option Machine :=
  let dividend : BitVec 64 := s.regs .dx ++ s.regs .ax
  if signed then
    let q := dividend.toInt.tdiv d.toInt
    if d ≠ 0 ∧ -2 ^ 31 ≤ q ∧ q < 2 ^ 31 then
      some (s.setQuotient q (dividend.toInt.tmod d.toInt))
    else none
  else
    let q := dividend.toNat / d.toNat
    if d ≠ 0 ∧ q < 2 ^ 32 then some (s.setQuotient q (dividend.toNat % d.toNat : Nat)) else none

/-- An operation on one operand. -/
def execUnary (σ : Symbols) (s : Machine) (w : Width) (op : UnaryInst) (a : Operand) :
    Option Machine := do
  match op with
  | .neg =>
    let v ← s.read σ w a
    { s with flags := some (.ofSub 0 v) }.write σ w (-v) a
  | .not => s.write σ w (~~~ (← s.read σ w a)) a
  | .idiv => s.divide true (← s.read σ .w32 a)
  | .div => s.divide false (← s.read σ .w32 a)

/-- An operation on a source and a destination, which are not both in memory. -/
def execBinary (σ : Symbols) (s : Machine) (w : Width) (op : BinaryInst) (src dst : Operand) :
    Option Machine := do
  if let (.mem _, .mem _) := (src, dst) then
    none
  match op with
  | .mov => s.write σ w (← s.read σ w src) dst
  | .cmp => return { s with flags := some (.ofSub (← s.read σ w dst) (← s.read σ w src)) }
  | .test =>
    return { s with flags := some (.ofLogic ((← s.read σ w dst) &&& (← s.read σ w src))) }
  | .sal | .sar | .shr =>
    let v ← op.shift? (← s.read σ w dst) (← s.count? σ src)
    { s with flags := none }.write σ w v dst
  | op =>
    -- there is no such multiplication of bytes
    if op = .imul ∧ w = .w8 then
      none
    let (v, flags) ← op.result? (← s.read σ w dst) (← s.read σ w src)
    { s with flags }.write σ w v dst

/-- What an instruction does that goes on with the next one. -/
def exec (σ : Symbols) (s : Machine) (i : Instruction) : Option Machine := do
  match i with
  | .jmp _ | .jcc .. | .call _ | .ret => none
  | .cltd =>
    return s.setView .dx .w32 ((s.regs .ax).sshiftRight 31)
  | .push a => return s.push (← s.read σ .w32 a)
  | .pop a => s.drop.write σ .w32 s.top a
  | .lea (.mem m) dst => s.write σ .w32 (s.address σ m) dst
  | .lea .. => none
  | .extend signed narrow src dst =>
    let v ← s.read σ narrow src
    s.write σ i.width (if signed then v.signExtend i.width.bits else v.setWidth i.width.bits) dst
  | .unary op a => s.execUnary σ i.width op a
  | .binary op src dst => s.execBinary σ i.width op src dst
  | .set c dst => s.write σ .w8 (if c.holds (← s.flags) then 1 else 0) dst

/-- Runs the items of a listing, first to last. Labels and comments do nothing. -/
def run (σ : Symbols) : Listing → Machine → Option Machine
  | [], s => some s
  | .inst i :: code, s => (s.exec σ i).bind (run σ code)
  | .comment _ :: code, s | .label _ :: code, s => run σ code s
  | .directive _ :: _, _ => none

/-! ## What the operations do -/

section Lemmas

variable {σ : Symbols} {s s' : Machine} {c c' : RegisterClass} {w : Width}

/-- Code is run in two parts. -/
theorem run_append {a b : Listing} : run σ (a ++ b) s = (run σ a s).bind (run σ b) := by
  induction a generalizing s with
  | nil => rfl
  | cons i a ih =>
    cases i with
    | inst i =>
      rw [List.cons_append, run, run, Option.bind_assoc]
      exact congrArg _ (funext fun _ => ih)
    | comment | label => exact ih
    | directive => rfl

/-- One piece of code after another. -/
theorem run_append_of {a b : Listing} (h : run σ a s = some s') :
    run σ (a ++ b) s = run σ b s' := by
  rw [run_append, h]
  rfl

@[simp] theorem run_nil : run σ [] s = some s := rfl

theorem run_cons_of {i : Instruction} {code : Listing} (h : s.exec σ i = some s') :
    run σ (.inst i :: code) s = run σ code s' := by
  rw [run, h]
  rfl

theorem bits_le (hw : w ≠ .w64) : w.bits ≤ 32 := by
  cases w <;> simp_all [Width.bits, Width.bytes]

theorem bits_le_64 (w : Width) : w.bits ≤ 64 := by
  cases w <;> decide

/-- A register holds what has been written to it. -/
@[simp] theorem view_setView_same {v : BitVec w.bits} (hw : w ≠ .w64) :
    (s.setView c w v).view c w = v := by
  have hle := bits_le hw
  refine BitVec.eq_of_getLsbD_eq fun i hi => ?_
  simp [view, setView, hi]
  omega

@[simp] theorem regs_setView_ne {v : BitVec w.bits} (h : c' ≠ c) :
    (s.setView c w v).regs c' = s.regs c' :=
  if_neg h

@[simp] theorem regs_setView_w32 {v : Address} : (s.setView c .w32 v).regs c = v := by
  have h := view_setView_same (s := s) (c := c) (w := .w32) (v := v) (by decide)
  simpa [view, Width.bits, Width.bytes] using h

@[simp] theorem view_setView_ne {w' : Width} {v : BitVec w.bits} (h : c' ≠ c) :
    (s.setView c w v).view c' w' = s.view c' w' := by
  rw [view, regs_setView_ne h, view]

@[simp] theorem memory_setView {v : BitVec w.bits} : (s.setView c w v).memory = s.memory := rfl

@[simp] theorem flags_setView {v : BitVec w.bits} : (s.setView c w v).flags = s.flags := rfl

/-- A narrower view is part of a wider one. -/
theorem view_of_le {w' : Width} (h : w'.bits ≤ w.bits) :
    s.view c w' = (s.view c w).setWidth w'.bits := by
  rw [view, view, BitVec.setWidth_setWidth_of_le _ h]

@[simp] theorem view_w32 : s.view c .w32 = s.regs c := by
  simp [view, Width.bits, Width.bytes]

end Lemmas

end Machine

end Backend386
