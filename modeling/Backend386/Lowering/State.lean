import Backend386.Ir.Module
import Backend386.Types.Query

/-!
# The state of the lowering

The lowering walks over a function and appends intermediate statements to it. On the way it looks up
types, hands out labels and numbers, makes temporaries and collects problems.

* `LoweringProblem` — what can be wrong with a program whose types are right;
* `LowerState`, `Lower` — the state, and computations on it that may fault;
* `Lower.emit`, `Lower.newLabel`, `Lower.temporary`, … — the steps that change the state;
* `Lower.width`, `Lower.load`, `Lower.scale`, … — pieces of intermediate expressions.

Values of struct, union, array and function type are never held in an expression: such an expression
stands for the address of its value.
-/

namespace Backend386

/-- A problem of the program that the lowering reports. -/
inductive LoweringProblem where
  | breakOutsideLoop
  | continueOutsideLoop
  /-- a label name that stands twice in one function -/
  | duplicatedLabel (function name : String)
  /-- a goto whose label the function does not have -/
  | undefinedLabel (name : String)
  /-- an initializer of static storage that the assembler cannot know -/
  | nonConstantInitializer (name : String)
  /-- a string literal that does not fit its array -/
  | initializerTooLong (bytes : Nat)
deriving DecidableEq

/-- The wording of a problem. -/
def LoweringProblem.message : LoweringProblem → String
  | breakOutsideLoop => "break from out of loop"
  | continueOutsideLoop => "continue from out of loop"
  | duplicatedLabel function name => "duplicated jump labels in " ++ function ++ "(): " ++ name
  | undefinedLabel name => "undefined label: " ++ name
  | nonConstantInitializer name => "initializer of " ++ name ++ " is not a constant"
  | initializerTooLong bytes =>
    "string initializer is too long for an array of " ++ bytes.repr ++ " bytes"

/-- A label of the program and the label that stands for it. -/
structure NamedLabel where
  name : String
  label : Ir.Label
  isPlaced : Bool := false
  /-- where it was placed, or else where it was first used -/
  location : Option Location
deriving DecidableEq, Inhabited

/-- What the lowering has done so far. -/
structure LowerState where
  types : TypeTable
  entities : EntityTable
  strings : StringTable := {}
  labels : Ir.LabelSupply := {}
  diagnostics : Diagnostics := []
  /-- the function whose statements are being made -/
  function : Ir.Function := { entity := ⟨0⟩ }
  /-- the labels that this function names, in the order they were first seen -/
  named : List NamedLabel := []
deriving Inhabited

/-- A computation of the lowering. -/
abbrev Lower := StateT LowerState (Except Fault)

namespace Lower

/-! ## Asking -/

/-- Asks the type table. -/
def ask {α : Type} (question : TypeTable → Except Fault α) : Lower α := do
  question (← get).types

/-- An entity. -/
def entity (id : EntityId) : Lower Entity := do
  (← get).entities.get id

/-- The name of the function being made. -/
def functionName : Lower String := do
  return (← entity (← get).function.entity).name

/-! ## Steps -/

/-- The number of a type. -/
def typeId (ref : TypeRef) : Lower TypeId := do
  let (types, id) ← ask (·.intern ref)
  modify ({ · with types })
  return id

/-- The type of a pointer to a type. -/
def pointerTo (id : TypeId) : Lower TypeId := do
  let (types, id) ← ask (·.pointerTo id)
  modify ({ · with types })
  return id

/-- The number of a string literal. -/
def stringId (value : String) : Lower StringId :=
  modifyGet fun s =>
    let (strings, id) := s.strings.intern value
    (id, { s with strings })

/-- A label that stands nowhere yet. -/
def newLabel : Lower Ir.Label :=
  modifyGet fun s =>
    let (labels, l) := s.labels.take
    (l, { s with labels })

/-- A new temporary of the function. -/
def temporary (type : TypeId) : Lower EntityId := do
  let s ← get
  let (function, entities, id) ← s.function.addTemporary s.entities s.types type
  set { s with function, entities }
  return id

/-- Appends a statement to the function. -/
def emit (location : Option Location) (action : Ir.Action) : Lower Unit :=
  modify fun s => { s with function := s.function.emit action location }

/-- Appends a store. -/
def store (location : Option Location) (target value : Ir.Expr) : Lower Unit :=
  emit location (.assign target value)

/-- Appends a jump. -/
def jump (location : Option Location) (target : Ir.Label) : Lower Unit :=
  emit location (.jump target)

/-- Appends a conditional jump. -/
def branch (location : Option Location) (test : Ir.Expr) (yes no : Ir.Label) : Lower Unit :=
  emit location (.branch test yes no)

/-- Places a label. -/
def place (label : Ir.Label) : Lower Unit :=
  emit none (.label label)

/-- Reports a problem of the program. -/
def report (location : Option Location) (problem : LoweringProblem) : Lower Unit :=
  modify fun s => { s with diagnostics := s.diagnostics.error location problem.message }

/-! ## Widths and addresses -/

/-- The width of a pointer. -/
def pointerWidth : Lower Width := do
  Width.ofBytes (← get).types.profile.pointerSize

/-- Whether values of a type are represented by their address. -/
def isByAddress (type : TypeId) : Lower Bool := do
  return (← ask (·.isAggregate type)) || (← ask (·.isFunction type))

/-- The width of an expression of a type. -/
def width (type : TypeId) : Lower Width := do
  if (← isByAddress type) || (← ask (·.isVoid type)) then
    pointerWidth
  else
    Width.ofBytes (← ask (·.sizeOf type))

/-- Reads a value of a type from an address. -/
def load (type : TypeId) (address : Ir.Expr) : Lower Ir.Expr := do
  if ← isByAddress type then
    return address
  return .mem (← width type) address

/-- The address some bytes further on. -/
def offsetAddress (base : Ir.Expr) (offset : Nat) : Lower Ir.Expr := do
  if offset = 0 then
    return base
  let ptr ← pointerWidth
  return .bin ptr .add base (.int ptr (Int64.ofNat offset))

/-- The distance in bytes of so many elements of a size. -/
def scale (count : Ir.Expr) (size : Nat) : Lower Ir.Expr := do
  if size = 1 then
    return count
  let ptr ← pointerWidth
  return .bin ptr .mul count (.int ptr (Int64.ofNat size))

/-- A member of the struct or union at an address. -/
def member (type composite : TypeId) (base : Ir.Expr) (name : String) : Lower Ir.Expr := do
  match ← ask (·.member? composite name) with
  | some (_, offset) => load type (← offsetAddress base offset)
  | none => throw (.noMember ((← get).types.nameOf composite) name)

/-- The value of a variable, or its address where that stands for the value. -/
def designated (type : TypeId) (id : EntityId) : Lower Ir.Expr := do
  if ← isByAddress type then
    return .addr (← pointerWidth) id
  return .var (← width type) id

/-- Stores a value in a new temporary, at a place. -/
def storeTemporary (location : Option Location) (type : TypeId) (value : Ir.Expr) :
    Lower EntityId := do
  let tmp ← temporary type
  store location (.addr (← pointerWidth) tmp) value
  return tmp

/-- An address that can be evaluated repeatedly: a computed one is kept in a temporary. -/
def stable (location : Option Location) (address : Ir.Expr) : Lower Ir.Expr := do
  match address with
  | .addr .. | .str .. | .var .. => return address
  | _ =>
    let type ← pointerTo (← ask (·.void))
    let tmp ← storeTemporary location type address
    return .var (← pointerWidth) tmp

/-- How many bytes of an object are copied at once. -/
def chunkWidth (alignment : Nat) : Width :=
  if 4 ≤ alignment then .w32 else if alignment = 2 then .w16 else .w8

/-- The offsets of the chunks of an object. -/
def chunkOffsets (size chunk : Nat) : List Nat :=
  (List.range ((size + chunk - 1) / chunk)).map (· * chunk)

/-- Copies an object one aligned chunk at a time. The result is an address of the destination. -/
def copyAggregate (location : Option Location) (type : TypeId) (dst src : Ir.Expr) :
    Lower Ir.Expr := do
  let dst ← stable location dst
  let src ← stable location src
  let size ← ask (·.sizeOf type)
  let w := chunkWidth (← ask (·.alignmentOf type))
  (chunkOffsets size w.bytes).forM fun offset => do
    let target ← offsetAddress dst offset
    let source ← offsetAddress src offset
    store location target (.mem w source)
  return dst

end Lower

end Backend386
