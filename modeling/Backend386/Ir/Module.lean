import Backend386.Ir.Function

/-!
# Intermediate modules

The intermediate code of a whole unit.
-/

namespace Backend386.Ir

/-- A variable with static storage. Its initializer is a literal or an address. -/
structure StaticVariable where
  entity : EntityId
  init : Option Expr := none
deriving Inhabited

/-- A named constant, reduced to a literal or an address. -/
structure NamedConstant where
  entity : EntityId
  value : Option Expr := none
deriving Inhabited

/-- The intermediate code of a unit. -/
structure Module where
  entities : EntityTable := {}
  strings : StringTable := {}
  /-- the global variables in declaration order, then the static locals of every function -/
  vars : List StaticVariable := []
  functions : List Function := []
  namedConstants : List NamedConstant := []
  /-- what the unit declares and does not define -/
  undefined : List EntityId := []
  labels : LabelSupply := {}
deriving Inhabited

namespace Module

/-- The line of a static variable. -/
def renderVariable (m : Module) (v : StaticVariable) : Except Fault String := do
  let e ← m.entities.get v.entity
  let init := match v.init with
    | some init => " = " ++ init.render
    | none => ""
  return "var " ++ v.entity.render ++ " " ++ e.symbol ++ init ++ "\n"

/-- The text of a module. -/
def render (m : Module) : Except Fault String := do
  let vars ← m.vars.mapM m.renderVariable
  return String.join vars ++ String.join (m.functions.map fun f => f.render ++ "\n")

end Module

end Backend386.Ir
