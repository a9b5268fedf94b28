import Backend386.I386.Listing
import Backend386.I386.Placement

/-!
# Code for expressions

An expression is evaluated into `eax`, in the view of the register that matches the width of the
value. The second operand of a binary operation is in `ecx`, and intermediate results are saved on
the stack.

* `Placement.exprCode` — the code of an expression, in both of its uses: for its value, and for the
  memory its value points to;
* `Placement.valueCode`, `Placement.addressCode` — the two uses on their own;
* `Placement.storeCode`, `Placement.branchCode` — stores and conditional jumps.
-/

namespace Backend386

namespace Item

/-- Copies `src` to `dst`. -/
def mov (src dst : Operand) : Item := .inst (.binary .mov src dst)

/-- Saves `eax` on the stack. -/
def pushEax : Item := .inst (.push (.reg .eax))

/-- Takes what was saved last into `ecx`. -/
def popEcx : Item := .inst (.pop (.reg .ecx))

/-- Goes on at a label. -/
def jmp (label : String) : Item := .inst (.jmp (.target label))

end Item

/-- The condition under which a comparison holds. -/
def Ir.Op.condition? : Ir.Op → Option Condition
  | .eq => some .e
  | .ne => some .ne
  | .sGt => some .g
  | .sGe => some .ge
  | .sLt => some .l
  | .sLe => some .le
  | .uGt => some .a
  | .uGe => some .ae
  | .uLt => some .b
  | .uLe => some .be
  | _ => none

/-- Exactly the comparisons have a condition. -/
theorem Ir.Op.isSome_condition? (op : Ir.Op) : op.condition?.isSome = op.isCompare := by
  cases op <;> rfl

/-- The operations of one instruction that take any second operand. -/
def Ir.Op.simpleInst? : Ir.Op → Option BinaryInst
  | .add => some .add
  | .sub => some .sub
  | .bitAnd => some .and
  | .bitOr => some .or
  | .bitXor => some .xor
  | _ => none

/-- The shifts, whose count is an immediate or in `cl`. -/
def Ir.Op.shiftInst? : Ir.Op → Option BinaryInst
  | .shl => some .sal
  | .shr => some .shr
  | .sar => some .sar
  | _ => none

/-- The code of an expression. -/
structure ExprCode where
  /-- leaves the value in `eax` -/
  value : Except Fault Listing
  /-- makes the memory that the value points to reachable by the reference -/
  address : Except Fault (Listing × MemRef)

/-! ## Pieces of code -/

/-- Widens a register. Narrowing needs no code: the narrower view is used. -/
def extendCode (c : RegisterClass) (narrow wide : Width) (signed : Bool) :
    Except Fault Listing := do
  if wide.bytes ≤ narrow.bytes then
    return []
  return [.inst (.extend signed narrow (.reg (← c.view narrow)) (.reg (← c.view wide)))]

/-- Sets `eax`, at a given width, to 1 if a condition holds and to 0 otherwise. -/
def setCode (c : Condition) (w : Width) : Except Fault Listing := do
  return .inst (.set c (.reg .al)) :: (← extendCode .ax .w8 w false)

/-- Evaluates the right operand and then the left one, both widened. The left value is left in
`eax`; the returned operand is the right value, an immediate or a view of `ecx`. A literal on the
right needs no code. -/
def operandsCode (l r : Ir.Expr) (left right : Except Fault Listing) (w : Width) (signed : Bool) :
    Except Fault (Listing × Operand) := do
  match r with
  | .int _ v => return ((← left) ++ (← extendCode .ax l.width w signed), .int v)
  | r =>
    let first ← right
    let widenFirst ← extendCode .ax r.width w signed
    let second ← left
    let widenSecond ← extendCode .ax l.width w signed
    return (first ++ widenFirst ++ [.pushEax] ++ second ++ widenSecond ++ [.popEcx],
      .reg (← RegisterClass.cx.view w))

/-- An operand that may stand in for a register of another width. -/
def Operand.orRegister (o : Operand) (r : Register) : Operand :=
  match o with
  | .reg _ => .reg r
  | o => o

/-- Brings a literal divisor into `ecx`. -/
def loadDivisor : Operand → Listing
  | .imm i => [.mov (.imm i) (.reg .ecx)]
  | _ => []

/-- Divides `eax` by the operand, on 32 bit values. -/
def divideCode (w : Width) (signed remainder : Bool) (rhs : Operand) : Except Fault Listing := do
  let widenLeft ← extendCode .ax w .w32 signed
  let widenRight ← extendCode .cx w .w32 signed
  let divide : Listing :=
    if signed then [.inst .cltd, .inst (.unary .idiv (.reg .ecx))]
    else [.inst (.binary .xor (.reg .edx) (.reg .edx)), .inst (.unary .div (.reg .ecx))]
  return loadDivisor rhs ++ widenLeft ++ widenRight ++ divide ++
    (if remainder then [.mov (.reg .edx) (.reg .eax)] else [])

/-- Applies a binary operator that is no comparison to `eax` and the operand. -/
def applyCode (w : Width) (op : Ir.Op) (rhs : Operand) : Except Fault Listing := do
  let ax ← RegisterClass.ax.view w
  match op with
  -- a multiplication has no byte form, so that it is done in the full width
  | .mul => return [.inst (.binary .imul (rhs.orRegister .ecx) (.reg .eax))]
  | .sDiv => divideCode w true false rhs
  | .sMod => divideCode w true true rhs
  | .uDiv => divideCode w false false rhs
  | .uMod => divideCode w false true rhs
  | op =>
    -- a shift takes its count from `cl`, anything else takes any operand
    match op.simpleInst?, op.shiftInst? with
    | some i, _ => return [.inst (.binary i rhs (.reg ax))]
    | none, some i => return [.inst (.binary i (rhs.orRegister .cl) (.reg ax))]
    | none, none => throw (.notBinary op.render)

/-- Compares the two operands. -/
def compareCode (op : Ir.Op) (l r : Ir.Expr) (left right : Except Fault Listing) :
    Except Fault Listing := do
  let (operands, rhs) ← operandsCode l r left right l.width op.isSigned
  return operands ++ [.inst (.binary .cmp rhs (.reg (← RegisterClass.ax.view l.width)))]

/-- A binary operation. -/
def binaryCode (w : Width) (op : Ir.Op) (l r : Ir.Expr) (left right : Except Fault Listing) :
    Except Fault Listing := do
  match op.condition? with
  | some c => return (← compareCode op l r left right) ++ (← setCode c w)
  | none =>
    let (operands, rhs) ← operandsCode l r left right w op.isSigned
    return operands ++ (← applyCode w op rhs)

/-- A unary operation. -/
def unaryCode (w : Width) (op : Ir.Op) (e : Ir.Expr) (operand : Except Fault Listing) :
    Except Fault Listing := do
  let code ← operand
  let ax ← RegisterClass.ax.view w
  match op with
  | .neg => return code ++ [.inst (.unary .neg (.reg ax))]
  | .bitNot => return code ++ [.inst (.unary .not (.reg ax))]
  | .not =>
    -- the operand is compared in its own width, the answer has that of the operation
    let test := .inst (.binary .cmp (.int 0) (.reg (← RegisterClass.ax.view e.width)))
    return code ++ [test] ++ (← setCode .e w)
  | .sCast => return code ++ (← extendCode .ax e.width w true)
  | .uCast => return code ++ (← extendCode .ax e.width w false)
  | op => throw (.notUnary op.render)

/-- Removes the arguments of a call from the stack. -/
def cleanUp (arguments : Nat) : Listing :=
  if arguments = 0 then []
  else [.inst (.binary .add (.int (Int64.ofNat (arguments * 4))) (.reg .esp))]

namespace Placement

/-- The memory that an address refers to, if a reference can reach it without any code. -/
def direct? (p : Placement) : Ir.Expr → Except Fault (Option MemRef)
  | .addr _ v => do
    -- only storage in memory has an address; a register has none
    match ← (← p.entities.get v).getStorage with
    | .memory m => return some m
    | _ => return none
  | .str _ s => do return some (← p.strings.memory s)
  | .bin _ .add base (.int _ k) => do
    match ← p.direct? base with
    | some m => return some (← m.moveBy k)
    | none => return none
  | .bin _ .sub base (.int _ k) => do
    match ← p.direct? base with
    | some m => return some (← m.moveBy (← Checked.negInt k))
    | none => return none
  -- the address of anything else is computed at run time
  | _ => .ok none

/-- The address of an entity. -/
def entityAddressCode (p : Placement) (v : EntityId) : Except Fault Listing := do
  let e ← p.entities.get v
  let storage ← e.getStorage
  match ← e.address?, storage with
  | some i, _ => return [.mov (.imm i) (.reg .eax)]
  | none, .memory m => return [.inst (.lea (.mem m) (.reg .eax))]
  | none, storage => throw (.unaddressable e.name storage.inspect)

/-- The call itself, once the arguments are on the stack. -/
def transferCode (p : Placement) (callee : Ir.Expr) (target : Except Fault Listing) :
    Except Fault Listing := do
  match ← Ir.Expr.staticTarget? p.entities callee with
  | some f => return [.inst (.call (.target (← p.entitySymbol f)))]
  | none => return (← target) ++ [.inst (.call (.reg .eax))]

/-- The code of an expression from the code of its value; `shifted` is the code for the address
that a constant is added to, when the expression is such a sum. -/
def withAddress (p : Placement) (e : Ir.Expr) (value : Except Fault Listing)
    (shifted : Option (Except Fault (Listing × MemRef) × Int64)) : ExprCode where
  value := value
  address := do
    -- a direct reference needs no code; a shifted one has the code of its base
    match ← p.direct? e with
    | some m => return ([], m)
    | none =>
      match shifted with
      | some (base, k) =>
        let (code, m) ← base
        return (code, ← m.moveBy k)
      | none => return (← value, .based .eax 0)

/-! ## Expressions -/

mutual

/-- The code of an expression. A width without a view of `eax` is a fault, found before anything
else. -/
def exprCode (p : Placement) : Ir.Expr → ExprCode
  | .int w v => p.withAddress (.int w v) (do
      let _ ← RegisterClass.ax.view w
      return [.mov (.int v) (.reg .eax)]) none
  | .str w s => p.withAddress (.str w s) (do
      let _ ← RegisterClass.ax.view w
      return [.mov (.imm (.symbol (← p.stringSymbol s))) (.reg .eax)]) none
  | .var w v => p.withAddress (.var w v) (do
      let ax ← RegisterClass.ax.view w
      let storage ← (← p.entities.get v).getStorage
      return [.mov storage.operand (.reg ax)]) none
  | .addr w v => p.withAddress (.addr w v) (do
      let _ ← RegisterClass.ax.view w
      p.entityAddressCode v) none
  | .mem w a =>
    let inner := p.exprCode a
    p.withAddress (.mem w a) (do
      let ax ← RegisterClass.ax.view w
      let (code, m) ← inner.address
      return code ++ [.mov (.mem m) (.reg ax)]) none
  | .uni w op e =>
    let inner := p.exprCode e
    p.withAddress (.uni w op e) (do
      let _ ← RegisterClass.ax.view w
      unaryCode w op e inner.value) none
  | .bin w op l r =>
    let left := p.exprCode l
    let right := p.exprCode r
    p.withAddress (.bin w op l r) (do
      let _ ← RegisterClass.ax.view w
      binaryCode w op l r left.value right.value)
      -- only a literal that is added on the right shifts the address, as the lowering writes
      -- members
      (match op, r with
      | .add, .int _ k => some (left.address, k)
      | _, _ => none)
  | .call w callee args =>
    let target := p.exprCode callee
    let pushed := p.argumentCode args
    p.withAddress (.call w callee args) (do
      let _ ← RegisterClass.ax.view w
      -- the arguments are pushed before the callee is computed
      let arguments ← pushed
      let transfer ← p.transferCode callee target.value
      return arguments ++ transfer ++ cleanUp args.length) none

/-- Pushes the arguments of a call, the last one first. -/
def argumentCode (p : Placement) : List Ir.Expr → Except Fault Listing
  | [] => .ok []
  | e :: es =>
    let code := (p.exprCode e).value
    do
      let later ← p.argumentCode es
      return later ++ (← code) ++ [.pushEax]

end

/-- Leaves the value of an expression in `eax`. -/
def valueCode (p : Placement) (e : Ir.Expr) : Except Fault Listing :=
  (p.exprCode e).value

/-- Makes the memory that an expression points to reachable. A computed address is left in `eax`
and the reference is based on it. -/
def addressCode (p : Placement) (e : Ir.Expr) : Except Fault (Listing × MemRef) :=
  (p.exprCode e).address

/-! ## Stores and jumps -/

/-- Stores `value` at the address `target`. Where the address takes code, the value waits on the
stack. -/
def storeCode (p : Placement) (target value : Ir.Expr) : Except Fault Listing := do
  match ← p.direct? target with
  | some m =>
    let code ← p.valueCode value
    return code ++ [.mov (.reg (← RegisterClass.ax.view value.width)) (.mem m)]
  | none =>
    let code ← p.valueCode value
    let (addressing, m) ← p.addressCode target
    let cx ← RegisterClass.cx.view value.width
    return code ++ [.pushEax] ++ addressing ++ [.popEcx, .mov (.reg cx) (.mem m)]

/-- Tests a condition, and says which flag makes the jump. -/
def testCode (p : Placement) (test : Ir.Expr) : Except Fault (Listing × Condition) := do
  let plain : Except Fault (Listing × Condition) := do
    let code ← p.valueCode test
    let ax ← RegisterClass.ax.view test.width
    return (code ++ [.inst (.binary .test (.reg ax) (.reg ax))], .ne)
  match test with
  | .bin _ op l r =>
    match op.condition? with
    | some c => return (← compareCode op l r (p.valueCode l) (p.valueCode r), c)
    | none => plain
  | _ => plain

/-- Goes on at `yes` if the condition is not zero, and at `no` otherwise. -/
def branchCode (p : Placement) (test : Ir.Expr) (yes no : Ir.Label) : Except Fault Listing := do
  let (code, c) ← p.testCode test
  return code ++ [.inst (.jcc c (.target yes.render)), .jmp no.render]

/-- The code of an operation is made of the codes of its operands. -/
theorem valueCode_bin (p : Placement) (w : Width) (op : Ir.Op) (l r : Ir.Expr) :
    p.valueCode (.bin w op l r) = (do
      let _ ← RegisterClass.ax.view w
      binaryCode w op l r (p.valueCode l) (p.valueCode r)) := rfl

end Placement

end Backend386
