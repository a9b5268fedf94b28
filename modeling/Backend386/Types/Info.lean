import Backend386.Deferred
import Backend386.Types.Definition

/-!
# Registered types

What the type table knows of each type. Types refer to each other by number; a member of a struct
or union and the real type of a typedef are settled once every definition is registered.
-/

namespace Backend386

/-- The number of a type in the type table. -/
structure TypeId where
  index : Nat
deriving DecidableEq, Inhabited, Repr

/-- The spelling of a type number. -/
def TypeId.render (id : TypeId) : String :=
  "T" ++ id.index.repr

/-- A member of a registered struct or union. -/
structure Member where
  name : String
  ref : TypeRef
  type : Deferred TypeId := .pending
  location : Option Location
deriving Inhabited, DecidableEq

/-- The type of a member. -/
def Member.typeId (m : Member) : Except Fault TypeId :=
  m.type.get "member type"

/-- A registered struct or union. -/
structure Composite where
  kind : CompositeKind
  name : String
  members : List Member
  location : Option Location
deriving Inhabited, DecidableEq

namespace Composite

/-- The name in diagnostics. -/
def render (c : Composite) : String :=
  c.kind.render ++ " " ++ c.name

/-- Where a member of a given name stands. -/
def memberIndex? (c : Composite) (name : String) : Option Nat :=
  c.members.findIdx? (·.name = name)

end Composite

/-- A registered function type. -/
structure FunctionType where
  ret : TypeId
  params : List TypeId
  vararg : Bool
deriving Inhabited, DecidableEq

/-- A registered typedef. -/
structure Typedef where
  name : String
  ref : TypeRef
  real : Deferred TypeId := .pending
  location : Option Location
deriving Inhabited, DecidableEq

/-- The type that a typedef names. -/
def Typedef.realId (t : Typedef) : Except Fault TypeId :=
  t.real.get "typedef"

/-- What the table knows of a type. -/
inductive TypeInfo where
  | void
  | integer (size : Nat) (signed : Bool) (name : String)
  | pointer (base : TypeId)
  | array (base : TypeId) (length : Option UInt64)
  | composite (c : Composite)
  | function (f : FunctionType)
  | typedef (t : Typedef)
deriving Inhabited, DecidableEq

namespace TypeInfo

/-- The name in diagnostics: only structs, unions and typedefs have one. -/
def name? : TypeInfo → Option String
  | composite c => some c.render
  | typedef t => some t.name
  | _ => none

/-- Where the type was defined. -/
def location : TypeInfo → Option Location
  | composite c => c.location
  | typedef t => t.location
  | _ => none

/-- A definition, before its parts are settled. -/
def ofDefinition : TypeDefinition → TypeInfo
  | .composite kind name members location =>
    composite {
      kind, name, location
      members := members.map fun m => { name := m.name, ref := m.type, location := m.location } }
  | .typedef name real location => typedef { name, ref := real, location }

end TypeInfo

end Backend386
