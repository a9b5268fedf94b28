import Backend386.Ir.Fold
import Backend386.Lowering.State

/-!
# Lowering of expressions

An expression is lowered for its effects only, or for its value. When the value is needed, the
effects become statements in front of the expression that uses the value, which then reads a
temporary.

The right operand is evaluated before the left one, and arguments are evaluated last to first.

* `Demand` — what is asked of an expression;
* `Source.Expr.lowerUsing` — lowers an expression, by recursion on it; what a named constant stands
  for is lowered by a function that is passed in;
* `Source.Expr.lowerWithin` — the same, following named constants to a bounded depth;
* `Source.Expr.lower` — the same, deep enough for every constant that does not refer to itself.
-/

namespace Backend386

/-- What is asked of an expression. -/
inductive Demand where
  /-- only its effects -/
  | effects
  /-- its effects and its value -/
  | value
deriving DecidableEq, Inhabited, Repr

/-- A result that is only given when it is asked for. -/
def Demand.answer (d : Demand) (result : Ir.Expr) : Option Ir.Expr :=
  match d with
  | effects => none
  | value => some result

namespace Lower

/-- The value of an expression that must have one. -/
def needed (place : Option Location) (result : Option Ir.Expr) : Lower Ir.Expr :=
  match result with
  | some v => return v
  | none => throw (.voidValue place)

/-- Evaluates what is left over of an expression whose value is not used. -/
def discard (location : Option Location) (result : Option Ir.Expr) : Lower Unit :=
  match result with
  | some v => emit location (.eval v)
  | none => return ()

/-- The address of the object that a value of a type was read from. -/
def objectAddress (place : Option Location) (type : TypeId) (value : Ir.Expr) : Lower Ir.Expr := do
  if ← isByAddress type then
    return value
  match value.addressOf? (← pointerWidth) with
  | some address => return address
  | none => throw (.noAddress place)

/-- Whether a value is not zero. -/
def truth (w : Width) (e : Ir.Expr) : Ir.Expr :=
  .bin w .ne e (.int e.width 0)

/-! ## Arithmetic -/

/-- A binary operation on two lowered operands. Ordering comparisons take their signedness from the
left operand and all else from the result. Integers are scaled when they are added to or subtracted
from a pointer, and so is the difference of two pointers. -/
def binary (type : TypeId) (op : Source.BinaryOp) (leftType rightType : TypeId)
    (left right : Ir.Expr) : Lower Ir.Expr := do
  -- an ordering is as signed as what it compares, anything else as its result
  let signed ← ask (·.isSigned (if op.isOrdering then leftType else type))
  let mop := Ir.Op.ofBinary op signed
  let w ← width type
  if op = .sub then
    if ← ask (·.isPointerLike leftType) then
      -- a difference of pointers counts elements
      if ← ask (·.isPointerLike rightType) then
        let size ← ask (·.elementSize leftType)
        let difference := .bin w .sub left right
        if size = 1 then
          return difference
        return .bin w .sDiv difference (.int w (Int64.ofNat size))
  if op = .add ∨ op = .sub then
    if ← ask (·.isPointerLike leftType) then
      -- a number that is added to a pointer counts elements
      return .bin w mop left (← scale right (← ask (·.elementSize leftType)))
  if op = .add then
    if ← ask (·.isPointerLike rightType) then
      return .bin w mop (← scale left (← ask (·.elementSize rightType))) right
  return .bin w mop left right

/-- An operation whose result has the type of the left operand; the right operand is scaled when
that is a pointer. -/
def arithmetic (op : Ir.Op) (type : TypeId) (left right : Ir.Expr) : Lower Ir.Expr := do
  if op = .add ∨ op = .sub then
    if ← ask (·.isPointerLike type) then
      return .bin left.width op left (← scale right (← ask (·.elementSize type)))
  return .bin left.width op left right

/-! ## Assignments -/

/-- `target op= right`. An object that is no plain variable is reached through a temporary that
holds its address. -/
def opAssign (d : Demand) (location : Option Location) (op : Ir.Op) (type : TypeId)
    (target right : Ir.Expr) : Lower (Option Ir.Expr) := do
  let ptr ← pointerWidth
  match target with
  -- a variable is read and written in place
  | .var w v =>
    store location (.addr ptr v) (← arithmetic op type (.var w v) right)
    return d.answer (.var w v)
  | target =>
    match target.addressOf? ptr with
    | none => throw (.noAssignmentTarget location)
    | some address =>
      -- the address is computed once, and it waits in a temporary
      let tmp ← storeTemporary location (← pointerTo type) address
      let object := .mem target.width (.var ptr tmp)
      store location (.var ptr tmp) (← arithmetic op type object right)
      return d.answer object

/-- A postfix increment or decrement of an object whose value was read. -/
def postStep (d : Demand) (location : Option Location) (op : Ir.Op) (type : TypeId) (w : Width)
    (target : Ir.Expr) : Lower (Option Ir.Expr) := do
  let one := .int w 1
  let ptr ← pointerWidth
  match d, target with
  | .effects, target => opAssign .effects location op type target one
  | .value, .var w' v =>
    -- the old value waits in a temporary, as the variable has changed when it is used
    let old ← storeTemporary location type (.var w' v)
    store location (.addr ptr v) (← arithmetic op type (.var w old) one)
    return some (.var w old)
  | .value, target =>
    match target.addressOf? ptr with
    | none => throw (.noIncrementTarget location)
    | some address =>
      -- both the address and the old value wait
      let holder ← temporary (← pointerTo type)
      let old ← temporary type
      store location (.addr ptr holder) address
      let object := .mem w (.var ptr holder)
      store location (.addr ptr old) object
      store location (.var ptr holder) (← arithmetic op type object one)
      return some (.var w old)

/-! ## Calls -/

/-- Structs and unions are neither passed nor returned by value. -/
def refuseComposite (type : TypeId) (fault : String → Fault) : Lower Unit := do
  if ← ask (·.isComposite type) then
    throw (fault (← functionName))

/-- A call with lowered callee and arguments. -/
def call (d : Demand) (location : Option Location) (type : TypeId) (callee : Ir.Expr)
    (args : List Ir.Expr) : Lower (Option Ir.Expr) := do
  let w ← width type
  let call := .call w callee args
  if d = .effects || (← ask (·.isVoid type)) then
    emit location (.eval call)
    return none
  let tmp ← storeTemporary location type call
  return some (.var w tmp)

/-- Whether a cast changes the representation. -/
def castChanges (source target : TypeId) : Lower Bool := do
  if ← ask (·.isScalar source) then
    if ← ask (·.isScalar target) then
      return (← ask (·.sizeOf source)) ≠ (← ask (·.sizeOf target))
  return false

end Lower

open Lower

namespace Source.Expr

mutual

/-- Lowers an expression. `inline` lowers the value of a named constant. -/
def lowerUsing (inline : Entity → Source.Expr → Lower Ir.Expr) (d : Demand) :
    Source.Expr → Lower (Option Ir.Expr)
  | .int n v => do
    let type ← typeId n.type
    return some (.int (← width type) v)
  | .str n v => do
    let _ ← typeId n.type
    let id ← stringId v
    return some (.str (← pointerWidth) id)
  | .var n id => do
    let _ ← typeId n.type
    let e ← entity id
    match e.constantValue? with
    -- a constant is lowered where it is used, as if its value had been written there
    | some value => return some (← inline e value)
    | none => return some (← designated (← e.typeId) id)
  | .sizeofType n t => do
    let type ← typeId n.type
    let t ← typeId t
    -- the operand of `sizeof` is not evaluated, so only its type is looked at
    let w ← width type
    return some (.int w (Int64.ofNat (← ask (·.sizeOf t))))
  | .sizeofExpr n e => do
    let type ← typeId n.type
    let t ← typeId e.type
    let w ← width type
    return some (.int w (Int64.ofNat (← ask (·.sizeOf t))))
  | .unary n op e => do
    let type ← typeId n.type
    match op with
    | .plus => lowerUsing inline d e
    | op =>
      let operand ← needed e.location (← lowerUsing inline .value e)
      let w ← width type
      return some (.uni w (← Ir.Op.ofUnary op) operand)
  | .binary n op l r => do
    let type ← typeId n.type
    let leftType ← typeId l.type
    let rightType ← typeId r.type
    -- the right operand is evaluated first
    let right ← needed r.location (← lowerUsing inline .value r)
    let left ← needed l.location (← lowerUsing inline .value l)
    return some (← Lower.binary type op leftType rightType left right)
  | .logical n op l r => do
    let type ← typeId n.type
    let rightLabel ← newLabel
    let endLabel ← newLabel
    let w ← width type
    let ptr ← pointerWidth
    -- one temporary holds both truth values: the left one decides, or the right one replaces it
    let tmp ← temporary type
    let left ← needed l.location (← lowerUsing inline .value l)
    store l.location (.addr ptr tmp) (truth w left)
    match op with
    | .and => branch n.location (.var w tmp) rightLabel endLabel
    | .or => branch n.location (.var w tmp) endLabel rightLabel
    place rightLabel
    let right ← needed r.location (← lowerUsing inline .value r)
    store r.location (.addr ptr tmp) (truth w right)
    place endLabel
    return d.answer (.var w tmp)
  | .assign n l r => do
    let _ ← typeId n.type
    let type ← typeId l.type
    -- an aggregate is worth its address, and its bytes are copied
    if ← ask (·.isAggregate type) then
      let src ← needed r.location (← lowerUsing inline .value r)
      let dst ← needed l.location (← lowerUsing inline .value l)
      return d.answer (← copyAggregate n.location type dst src)
    match d with
    | .effects =>
      let value ← needed r.location (← lowerUsing inline .value r)
      -- a value that nobody reads goes to its object at once
      let target ← needed l.location (← lowerUsing inline .value l)
      store n.location (← objectAddress l.location type target) value
      return none
    | .value =>
      let w ← width type
      let ptr ← pointerWidth
      let tmp ← temporary type
      let value ← needed r.location (← lowerUsing inline .value r)
      store r.location (.addr ptr tmp) value
      let target ← needed l.location (← lowerUsing inline .value l)
      store l.location (← objectAddress l.location type target) (.var w tmp)
      return some (.var w tmp)
  | .opAssign n op l r => do
    let _ ← typeId n.type
    let type ← typeId l.type
    let right ← needed r.location (← lowerUsing inline .value r)
    let left ← needed l.location (← lowerUsing inline .value l)
    let signed ← ask (·.isSigned type)
    Lower.opAssign d n.location (Ir.Op.ofBinary op signed) type left right
  | .preStep n op e => do
    let _ ← typeId n.type
    let type ← typeId e.type
    let w ← width type
    let target ← needed e.location (← lowerUsing inline .value e)
    Lower.opAssign d n.location (Ir.Op.ofStep op) type target (.int w 1)
  | .postStep n op e => do
    let _ ← typeId n.type
    let type ← typeId e.type
    let w ← width type
    let target ← needed e.location (← lowerUsing inline .value e)
    Lower.postStep d n.location (Ir.Op.ofStep op) type w target
  | .cond n test yes no => do
    let type ← typeId n.type
    let yesLabel ← newLabel
    let noLabel ← newLabel
    let endLabel ← newLabel
    let test' ← needed test.location (← lowerUsing inline .value test)
    branch n.location test' yesLabel noLabel
    if ← ask (·.isVoid type) then
      place yesLabel
      discard yes.location (← lowerUsing inline d yes)
      jump none endLabel
      place noLabel
      discard no.location (← lowerUsing inline d no)
      place endLabel
      return none
    -- what is used by its address is carried by that
    let carried ← if ← isByAddress type then pointerTo type else pure type
    let w ← width type
    let ptr ← pointerWidth
    let tmp ← temporary carried
    place yesLabel
    let value ← needed yes.location (← lowerUsing inline .value yes)
    store yes.location (.addr ptr tmp) value
    jump none endLabel
    place noLabel
    let value ← needed no.location (← lowerUsing inline .value no)
    store no.location (.addr ptr tmp) value
    place endLabel
    return d.answer (.var w tmp)
  | .cast n e => do
    let type ← typeId n.type
    if ← ask (·.isVoid type) then
      let result ← lowerUsing inline d e
      -- what the operand has left is evaluated for what it does
      if d = .effects then
        discard e.location result
      return none
    let source ← typeId e.type
    if ← castChanges source type then
      -- the sign is that of the source, as it says how the bits are extended
      let op := if ← ask (·.isSigned source) then Ir.Op.sCast else .uCast
      let w ← width type
      let value ← needed e.location (← lowerUsing inline .value e)
      return some (.uni w op value)
    -- a cast that changes nothing has no code
    lowerUsing inline d e
  | .addr n e => do
    let _ ← typeId n.type
    let type ← typeId e.type
    let value ← needed e.location (← lowerUsing inline .value e)
    return some (← objectAddress e.location type value)
  | .deref n e => do
    let type ← typeId n.type
    let pointer ← needed e.location (← lowerUsing inline .value e)
    return some (← load type pointer)
  | .member n e name => do
    let type ← typeId n.type
    let composite ← typeId e.type
    let base ← needed e.location (← lowerUsing inline .value e)
    return some (← Lower.member type composite base name)
  | .ptrMember n e name => do
    let type ← typeId n.type
    let pointer ← typeId e.type
    let composite ← ask (·.baseType pointer)
    let base ← needed e.location (← lowerUsing inline .value e)
    return some (← Lower.member type composite base name)
  | .index n e i => do
    let type ← typeId n.type
    let baseType ← typeId e.type
    let size ← ask (·.elementSize baseType)
    let count ← needed i.location (← lowerUsing inline .value i)
    let base ← needed e.location (← lowerUsing inline .value e)
    -- an index counts elements of the pointer that is indexed
    let offset ← scale count size
    return some (← load type (.bin (← pointerWidth) .add base offset))
  | .call n callee args => do
    let type ← typeId n.type
    refuseComposite type .compositeResult
    -- the last argument is evaluated first, and the callee behind all of them
    let args ← lowerArgs inline args
    let callee ← needed callee.location (← lowerUsing inline .value callee)
    Lower.call d n.location type callee args

/-- Lowers the arguments of a call, last to first. -/
def lowerArgs (inline : Entity → Source.Expr → Lower Ir.Expr) :
    List Source.Expr → Lower (List Ir.Expr)
  | [] => return []
  | e :: es => do
    let later ← lowerArgs inline es
    let type ← typeId e.type
    refuseComposite type .compositeArgument
    let value ← needed e.location (← lowerUsing inline .value e)
    return value :: later

end

/-- Lowers an expression in which named constants stand for each other to a depth below `depth`. -/
def lowerWithin : Nat → Demand → Source.Expr → Lower (Option Ir.Expr)
  | 0, d, e => lowerUsing (fun c _ => throw (.endlessConstant c.name)) d e
  | depth + 1, d, e =>
    lowerUsing (fun _ value => do needed value.location (← lowerWithin depth .value value)) d e

/-- Lowers an expression. Constants that do not refer to themselves are nested no deeper than there
are entities. -/
def lower (d : Demand) (e : Source.Expr) : Lower (Option Ir.Expr) := do
  e.lowerWithin (← get).entities.size d

/-- Lowers an expression whose value is used. -/
def lowerValue (e : Source.Expr) : Lower Ir.Expr := do
  needed e.location (← e.lower .value)

/-- Lowers an expression that stands as a statement. -/
def lowerEffects (e : Source.Expr) : Lower Unit := do
  discard e.location (← e.lower .effects)

end Source.Expr

end Backend386
