import Backend386.I386.Operand
import Backend386.Source.Stmt
import Backend386.Types.Table

/-!
# Entities

Entities are the things that names stand for: variables, parameters, functions and constants. An
entity's number is its position in the entity table, which only grows: the lowering appends the
temporaries it needs.

* `Entity` — a named thing, with the type and the storage that later passes settle;
* `EntityTable` — all entities of a unit;
* `EntityTable.settleTypes` — looks up the type of every entity;
* `EntityTable.addTemporary` — appends a temporary.
-/

namespace Backend386

/-- What an entity is. -/
inductive EntityKind where
  | definedVariable (initializer : Option Source.Expr)
  | undefinedVariable
  | parameter
  | definedFunction (params : List EntityId) (body : Source.Block)
  | undefinedFunction
  | constant (value : Source.Expr)
deriving Inhabited

/-- A variable, a parameter, a function or a constant. -/
structure Entity where
  name : String
  ref : TypeRef
  /-- not visible outside the unit: static globals, functions and local variables -/
  isPrivate : Bool := false
  location : Option Location := none
  kind : EntityKind
  type : Deferred TypeId := .pending
  storage : Deferred Storage := .pending
  /-- how often it is used -/
  uses : Nat := 0
  /-- tells static local variables of one name apart -/
  sequence : Option Nat := none
deriving Inhabited

namespace Entity

/-! ## What an entity is -/

/-- A variable or a parameter. -/
def isVariable (e : Entity) : Bool :=
  match e.kind with
  | .definedVariable _ | .undefinedVariable | .parameter => true
  | _ => false

/-- A parameter. -/
def isParameter (e : Entity) : Bool :=
  match e.kind with
  | .parameter => true
  | _ => false

/-- A function, with or without a body. -/
def isFunction (e : Entity) : Bool :=
  match e.kind with
  | .definedFunction .. | .undefinedFunction => true
  | _ => false

/-- A named constant. -/
def isConstant (e : Entity) : Bool :=
  match e.kind with
  | .constant _ => true
  | _ => false

/-- Anything that this unit defines. -/
def isDefined (e : Entity) : Bool :=
  match e.kind with
  | .undefinedVariable | .undefinedFunction => false
  | _ => true

/-- The names of temporaries begin with a sign that no name of a program has. -/
def isTemporary (e : Entity) : Bool :=
  e.name.toList.head? = some '@'

/-- Whether anything uses the entity. -/
def isUsed (e : Entity) : Bool :=
  0 < e.uses

/-- The initializer of a variable. -/
def initializer? (e : Entity) : Option Source.Expr :=
  match e.kind with
  | .definedVariable init => init
  | _ => none

/-- The value of a constant. -/
def constantValue? (e : Entity) : Option Source.Expr :=
  match e.kind with
  | .constant value => some value
  | _ => none

/-! ## What later passes settle -/

/-- The type of the entity. -/
def typeId (e : Entity) : Except Fault TypeId :=
  e.type.get ("type of " ++ e.name)

/-- Settles the type of the entity. -/
def setType (e : Entity) (type : TypeId) : Except Fault Entity := do
  return { e with type := ← e.type.settle type ("type of " ++ e.name) }

/-- Where the value of the entity lives. -/
def getStorage (e : Entity) : Except Fault Storage :=
  e.storage.get ("storage of " ++ e.name)

/-- Places the entity. -/
def setStorage (e : Entity) (storage : Storage) : Except Fault Entity := do
  return { e with storage := ← e.storage.settle storage ("storage of " ++ e.name) }

/-- The assembler's name of the entity: static local variables are numbered. -/
def symbol (e : Entity) : String :=
  match e.sequence with
  | some n => e.name ++ "." ++ n.repr
  | none => e.name

/-- The address of the entity as an immediate, if the assembler knows it: that of labelled data
and that of a function. -/
def address? (e : Entity) : Except Fault (Option Immediate) := do
  match ← e.getStorage with
  | .memory { base := none, index := none, offset, symbol := some s } =>
    return some (.symbol (if offset = 0 then s else s ++ "+" ++ offset.toInt.repr))
  | .immediate (.symbol s) => return if e.isFunction then some (.symbol s) else none
  | _ => return none

end Entity

/-- Every entity of a unit. -/
structure EntityTable where
  entries : List Entity := []
deriving Inhabited

namespace EntityTable

/-- How many entities there are. -/
def size (t : EntityTable) : Nat :=
  t.entries.length

/-- An entity. -/
def get (t : EntityTable) (id : EntityId) : Except Fault Entity :=
  match t.entries[id.index]? with
  | some e => .ok e
  | none => .error (.unknownEntity id.index)

/-- Appends an entity. -/
def add (t : EntityTable) (e : Entity) : EntityTable × EntityId :=
  (⟨t.entries ++ [e]⟩, ⟨t.size⟩)

/-- Replaces an entity. -/
def set (t : EntityTable) (id : EntityId) (e : Entity) : EntityTable :=
  ⟨t.entries.set id.index e⟩

/-- Changes an entity. -/
def update (t : EntityTable) (id : EntityId) (f : Entity → Except Fault Entity) :
    Except Fault EntityTable := do
  return t.set id (← f (← t.get id))

/-- Places an entity. -/
def place (t : EntityTable) (id : EntityId) (storage : Storage) : Except Fault EntityTable :=
  t.update id (·.setStorage storage)

/-- Counts one more use of an entity. -/
def markUsed (t : EntityTable) (id : EntityId) : Except Fault EntityTable :=
  t.update id fun e => .ok { e with uses := e.uses + 1 }

/-- Looks up the type of an entity, unless it is settled already. A parameter declared as an array
is a pointer. -/
def settleType (types : TypeTable) (e : Entity) : Except Fault (TypeTable × Entity) := do
  if e.type.isSettled then
    return (types, e)
  let (types, id) ← if e.isParameter then types.internParam e.ref else types.intern e.ref
  return (types, ← e.setType id)

/-- Looks up the types of a list of entities, first to last. -/
def settleTypesOf (types : TypeTable) : List Entity → Except Fault (TypeTable × List Entity)
  | [] => .ok (types, [])
  | e :: es => do
    let (types, e) ← settleType types e
    let (types, es) ← settleTypesOf types es
    return (types, e :: es)

/-- Looks up the type of every entity. -/
def settleTypes (t : EntityTable) (types : TypeTable) :
    Except Fault (TypeTable × EntityTable) := do
  let (types, es) ← settleTypesOf types t.entries
  return (types, ⟨es⟩)

/-- Appends a temporary of a given type. -/
def addTemporary (t : EntityTable) (types : TypeTable) (type : TypeId) :
    Except Fault (EntityTable × EntityId) := do
  let ref ← types.refOf type
  return t.add {
    name := "@tmp" ++ t.size.repr
    ref
    kind := .definedVariable none
    type := .settled type }

end EntityTable

end Backend386
