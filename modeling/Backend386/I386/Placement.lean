import Backend386.I386.Listing
import Backend386.Ir.Module
import Backend386.Types.Query

/-!
# Static storage

Before any code is generated, everything with static storage is placed: string literals get their
labels, static variables and functions their symbols, and named constants their values.

* `Placement` — the entities and literals of a unit, with what has been placed so far;
* `Ir.Module.place` — places all that has static storage;
* `Placement.variableData`, `Placement.stringData` — the parts of a listing that define variables
  and string literals.
-/

namespace Backend386

/-- Where things live: the entities and the string literals of a unit. -/
structure Placement where
  entities : EntityTable
  strings : StringTable
deriving Inhabited

namespace Placement

/-- The symbol of a string literal. -/
def stringSymbol (p : Placement) (id : StringId) : Except Fault String := do
  return (← p.strings.memory id).render

/-- The symbol of an entity. -/
def entitySymbol (p : Placement) (id : EntityId) : Except Fault String := do
  return (← p.entities.get id).symbol

/-- Places an entity. -/
def place (p : Placement) (id : EntityId) (storage : Storage) : Except Fault Placement := do
  return { p with entities := ← p.entities.place id storage }

/-- Places a static variable at its symbol. -/
def placeVariable (p : Placement) (v : Ir.StaticVariable) : Except Fault Placement := do
  p.place v.entity (.memory (.labelled (← p.entitySymbol v.entity)))

/-- Places a function or an external variable: a function is the constant that its symbol stands
for, and a variable is the memory there. -/
def placeSymbol (p : Placement) (id : EntityId) : Except Fault Placement := do
  let e ← p.entities.get id
  p.place id (if e.isFunction then .immediate (.symbol e.symbol) else .memory (.labelled e.symbol))

/-- The constant that a literal or an address is for the assembler. -/
def immediate? (p : Placement) : Ir.Expr → Except Fault (Option Immediate)
  | .int _ v => .ok (some (.int v))
  | .str _ s => do return some (.symbol (← p.stringSymbol s))
  | .addr _ e => do return some (.symbol (← p.entitySymbol e))
  | _ => .ok none

/-- Places a named constant, which is its value. -/
def placeConstant (p : Placement) (c : Ir.NamedConstant) : Except Fault Placement := do
  let value ← match c.value with
    | some e => p.immediate? e
    | none => pure none
  match value with
  | some i => p.place c.entity (.immediate i)
  | none => throw (.valuelessConstant (← p.entities.get c.entity).name)

end Placement

/-- Places everything with static storage: the literals, then the variables, what is defined
elsewhere, the functions and the named constants. -/
def Ir.Module.place (m : Ir.Module) : Except Fault Placement := do
  let p : Placement := { entities := m.entities, strings := m.strings.labelAll }
  let p ← m.vars.foldlM Placement.placeVariable p
  let p ← (m.undefined ++ m.functions.map (·.entity)).foldlM Placement.placeSymbol p
  m.namedConstants.foldlM Placement.placeConstant p

/-! ## Static data

Variables with an initializer come first, in the data section; the others are common symbols. -/

namespace Placement

/-- The directive that stores an initializer in so many bytes. Addresses are four bytes. -/
def dataDirective (p : Placement) (init : Ir.Expr) (size : Nat) : Except Fault Directive := do
  match init, size with
  | .int _ v, 1 => return .byte v
  | .int _ v, 2 => return .value v
  | .int _ v, 4 => return .long (.int v)
  | .int _ v, 8 => return .quad (.int v)
  | .str _ s, 4 => return .long (.symbol (← p.stringSymbol s))
  | .addr _ e, 4 => return .long (.symbol (← p.entitySymbol e))
  | _, _ => throw (.unstorable init.render size)

/-- An initialized variable. -/
def initializedVariable (p : Placement) (types : TypeTable) (entity : EntityId) (init : Ir.Expr) :
    Except Fault Listing := do
  let e ← p.entities.get entity
  let type ← e.typeId
  let size ← types.sizeOf type
  let alignment ← types.alignmentOf type
  let value ← p.dataDirective init size
  return (if e.isPrivate then [] else [.directive (.globalSymbol e.symbol)]) ++
    [.directive (.align alignment), .directive (.type e.symbol .object),
      .directive (.size e.symbol size.repr), .label e.symbol, .directive value]

/-- A variable that starts out as zeros. -/
def zeroedVariable (p : Placement) (types : TypeTable) (entity : EntityId) :
    Except Fault Listing := do
  let e ← p.entities.get entity
  let type ← e.typeId
  let size ← types.sizeOf type
  let alignment ← types.alignmentOf type
  return (if e.isPrivate then [.directive (.localSymbol e.symbol)] else []) ++
    [.directive (.comm e.symbol size alignment)]

/-- The variables that have an initializer, with it. -/
def initialized (vars : List Ir.StaticVariable) : List (EntityId × Ir.Expr) :=
  vars.filterMap fun v => v.init.map (v.entity, ·)

/-- The variables that have no initializer. -/
def zeroed (vars : List Ir.StaticVariable) : List EntityId :=
  (vars.filter (·.init.isNone)).map (·.entity)

/-- All static variables of a unit. -/
def variableData (p : Placement) (types : TypeTable) (vars : List Ir.StaticVariable) :
    Except Fault Listing := do
  let withInit := initialized vars
  let first ← withInit.mapM fun (entity, init) => p.initializedVariable types entity init
  let second ← (zeroed vars).mapM (p.zeroedVariable types)
  return (if withInit.isEmpty then [] else [.directive .data]) ++ first.flatten ++ second.flatten

/-- A string literal. -/
def literalData (e : StringEntry) : Except Fault Listing := do
  return [.label (← e.memory).render, .directive (.string e.value)]

/-- All string literals of a unit. -/
def stringData (p : Placement) : Except Fault Listing := do
  let literals ← p.strings.entries.mapM literalData
  return (if literals.isEmpty then [] else [.directive (.inSection ".rodata")]) ++ literals.flatten

end Placement

end Backend386
