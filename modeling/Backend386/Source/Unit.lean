import Backend386.Source.Scope

/-!
# Program units

A unit is everything the back end needs to compile one source file: the types it defines, all its
entities, and which of them are declared at the top level, in order.

* `Source.ProgramUnit`, `Source.Program` — the unit;
* `Source.Program.usedEntities` — every use of every entity, in order;
* `Source.Program.markUses` — counts the uses.
-/

namespace Backend386.Source

/-- The entities of a unit and the order of its top level declarations. -/
structure Program where
  entities : EntityTable
  declarations : List EntityId
deriving Inhabited

/-- A resolved compilation unit. -/
structure ProgramUnit where
  types : List TypeDefinition := []
  program : Program
deriving Inhabited

/-! ## Uses of entities -/

/-- The entities used by an expression that may be absent. -/
def usesOption : Option Expr → List EntityId
  | none => []
  | some e => e.uses

/-- The entities used by the initializers of a list of variables. -/
def usesOfVariables (entities : EntityTable) : List EntityId → Except Fault (List EntityId)
  | [] => .ok []
  | id :: ids => do
    let e ← entities.get id
    return usesOption e.initializer? ++ (← usesOfVariables entities ids)

mutual

/-- The entities used in a block, in the initializers of its variables first. -/
def Block.uses (entities : EntityTable) : Block → Except Fault (List EntityId)
  | .mk vars stmts => do
    return (← usesOfVariables entities vars) ++ (← usesOfStmts entities stmts)

/-- The entities used in a statement. -/
def Stmt.uses (entities : EntityTable) : Stmt → Except Fault (List EntityId)
  | .expr _ e => .ok e.uses
  | .block _ body => body.uses entities
  | .ifThen _ test yes => do return test.uses ++ (← yes.uses entities)
  | .ifElse _ test yes no => do
    return test.uses ++ (← yes.uses entities) ++ (← no.uses entities)
  | .whileLoop _ test body | .doLoop _ body test => do
    return test.uses ++ (← body.uses entities)
  | .forLoop _ init test step body => do
    return usesOption init ++ usesOption test ++ usesOption step ++ (← body.uses entities)
  | .switch _ value cases => do return value.uses ++ (← usesOfCases entities cases)
  | .label _ _ body => body.uses entities
  | .ret _ value => .ok (usesOption value)
  | .breakOut _ | .continueOn _ | .goto .. => .ok []

/-- The entities used in a list of statements. -/
def usesOfStmts (entities : EntityTable) : List Stmt → Except Fault (List EntityId)
  | [] => .ok []
  | s :: ss => do return (← s.uses entities) ++ (← usesOfStmts entities ss)

/-- The entities used in the cases of a switch. -/
def usesOfCases (entities : EntityTable) : List Case → Except Fault (List EntityId)
  | [] => .ok []
  | .mk values body :: cs => do
    return Expr.usesAll values ++ (← body.uses entities) ++ (← usesOfCases entities cs)

end

/-- The entities used by the definition of an entity. -/
def usesOfEntity (entities : EntityTable) (id : EntityId) : Except Fault (List EntityId) := do
  match (← entities.get id).kind with
  | .definedFunction _ body => body.uses entities
  | .definedVariable init => return usesOption init
  | .constant value => return value.uses
  | _ => return []

namespace Program

/-- The entities of a list whose kind is selected. -/
def selectKind (entities : EntityTable) (select : EntityKind → Bool) :
    List EntityId → Except Fault (List EntityId)
  | [] => .ok []
  | id :: ids => do
    let e ← entities.get id
    let rest ← selectKind entities select ids
    return if select e.kind then id :: rest else rest

/-- The declared entities of a given kind, in order. -/
def declared (p : Program) (select : EntityKind → Bool) : Except Fault (List EntityId) :=
  selectKind p.entities select p.declarations

/-- The global variables with storage in this unit. -/
def definedVariables (p : Program) : Except Fault (List EntityId) :=
  p.declared fun
    | .definedVariable _ => true
    | _ => false

/-- The functions with a body in this unit. -/
def definedFunctions (p : Program) : Except Fault (List EntityId) :=
  p.declared fun
    | .definedFunction .. => true
    | _ => false

/-- The named constants. -/
def constants (p : Program) : Except Fault (List EntityId) :=
  p.declared fun
    | .constant _ => true
    | _ => false

/-- What is declared here and defined in another unit. -/
def undefinedEntities (p : Program) : Except Fault (List EntityId) :=
  p.declared fun
    | .undefinedVariable | .undefinedFunction => true
    | _ => false

/-- Every use of every entity by the declared entities, in order. -/
def usedEntities (p : Program) : Except Fault (List EntityId) := do
  return (← p.declarations.mapM (usesOfEntity p.entities)).flatten

/-- Counts the uses of every entity. -/
def markUses (p : Program) : Except Fault Program := do
  let entities ← (← p.usedEntities).foldlM EntityTable.markUsed p.entities
  return { p with entities }

end Program

end Backend386.Source
