import Backend386.Lowering.Stmt
import Backend386.Source.Unit

/-!
# Lowering of a unit

* `Lower.function` — lowers a function;
* `Lower.staticValue` — reduces an initializer to what the assembler can know;
* `Source.Program.lower` — lowers all that a unit declares, in two rounds: first constants and
  variables, in the order of the declarations, then the functions with their static variables.

Problems are reported and do not stop the lowering. The module must not be used for code if any was
reported.
-/

namespace Backend386

namespace Lower

/-- Starts on another function. -/
def start (function : Ir.Function) : Lower Unit :=
  modify fun s => { s with function, named := [] }

/-! ## Static storage -/

/-- Reduces an expression to a literal or an address, if that takes no statements. -/
def constant? (id : EntityId) (value : Source.Expr) : Lower (Option Ir.Expr) := do
  start { entity := id }
  match ← value.lower .value with
  | none => return none
  | some v =>
    let folded := v.fold
    return if (← get).function.body.isEmpty ∧ folded.isConstant then some folded else none

/-- Reports that the value of an entity is not known to the assembler. -/
def reportNonConstant (id : EntityId) (value : Source.Expr) : Lower Unit := do
  let e ← entity id
  report (value.location.or e.location) (.nonConstantInitializer e.name)

/-- The value of an entity with static storage. One that is no constant is reported. -/
def staticValue (id : EntityId) (value : Source.Expr) : Lower (Option Ir.Expr) := do
  let result ← constant? id value
  if result.isNone then
    reportNonConstant id value
  return result

/-- The static initializer of a variable. Aggregates cannot have one. -/
def staticInitializer (id : EntityId) : Lower (Option Ir.Expr) := do
  let e ← entity id
  match e.initializer? with
  | none => return none
  | some init =>
    if ← ask (·.isAggregate (← e.typeId)) then
      reportNonConstant id init
      return none
    staticValue id init

/-- A variable with static storage. -/
def staticVariable (id : EntityId) : Lower Ir.StaticVariable := do
  return { entity := id, init := ← staticInitializer id }

/-! ## Functions -/

/-- Lowers a function. -/
def function (id : EntityId) : Lower Ir.Function := do
  let e ← entity id
  match e.kind with
  | .definedFunction params body =>
    start { entity := id, params, scope := body.scope }
    body.lower {}
    reportUnplaced
    return (← get).function
  | _ => throw (.notDefinedFunction e.name)

/-- Numbers a static local variable, given the names of those numbered before: variables of one name
count up from 0. -/
def numberStatic (before : List String) (id : EntityId) : Lower (List String) := do
  let s ← get
  let e ← s.entities.get id
  set { s with entities := s.entities.set id { e with sequence := some (before.count e.name) } }
  return before ++ [e.name]

/-- The static local variables of a function, numbered one after another. -/
def staticLocals (before : List String) :
    List EntityId → Lower (List String × List Ir.StaticVariable)
  | [] => return (before, [])
  | id :: ids => do
    let before ← numberStatic before id
    let v ← staticVariable id
    let (before, vs) ← staticLocals before ids
    return (before, v :: vs)

/-- Lowers functions, each with its static local variables. -/
def functions (before : List String) :
    List EntityId → Lower (List Ir.Function × List Ir.StaticVariable)
  | [] => return ([], [])
  | id :: ids => do
    let f ← function id
    let (before, statics) ← staticLocals before (← f.scope.staticVariables (← get).entities)
    let (fs, more) ← functions before ids
    return (f :: fs, statics ++ more)

/-! ## Declarations -/

/-- What the declarations of a unit amount to before the functions are lowered. -/
structure Declared where
  vars : List Ir.StaticVariable := []
  namedConstants : List Ir.NamedConstant := []
  undefined : List EntityId := []
  functions : List EntityId := []

/-- Goes through the declarations of a unit, first to last. -/
def declare : Declared → List EntityId → Lower Declared
  | d, [] => return d
  | d, id :: ids => do
    let e ← entity id
    match e.kind with
    -- a parameter belongs to a function, so it is never declared by itself
    | .parameter => throw (.topLevelParameter e.name)
    | .undefinedVariable | .undefinedFunction =>
      declare { d with undefined := d.undefined ++ [id] } ids
    | .constant value =>
      -- its value has to be known to the assembler
      let c := { entity := id, value := ← staticValue id value }
      declare { d with namedConstants := d.namedConstants ++ [c] } ids
    | .definedFunction .. => declare { d with functions := d.functions ++ [id] } ids
    | .definedVariable _ =>
      let v ← staticVariable id
      declare { d with vars := d.vars ++ [v] } ids

end Lower

/-- What the lowering of a unit gives: its module, the types met on the way and the problems. -/
structure Lowered where
  module : Ir.Module
  types : TypeTable
  diagnostics : Diagnostics

/-- Lowers a unit. -/
def Source.Program.lower (p : Source.Program) (types : TypeTable) (diagnostics : Diagnostics) :
    Except Fault Lowered := do
  let work : Lower (Lower.Declared × List Ir.Function × List Ir.StaticVariable) := do
    -- everything is declared before the first function is lowered
    let declared ← Lower.declare {} p.declarations
    return (declared, ← Lower.functions [] declared.functions)
  let ((declared, functions, statics), s) ← work.run { types, entities := p.entities, diagnostics }
  return {
    types := s.types
    diagnostics := s.diagnostics
    module := {
      entities := s.entities
      strings := s.strings
      -- the static variables of the functions come behind those of the unit
      vars := declared.vars ++ statics
      functions
      namedConstants := declared.namedConstants
      undefined := declared.undefined
      labels := s.labels } }

end Backend386
