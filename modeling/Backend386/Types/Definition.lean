import Backend386.Location
import Backend386.Types.Ref

/-!
# Type definitions

The structs, unions and typedefs that a unit defines.
-/

namespace Backend386

/-- The two kinds of types that have members. -/
inductive CompositeKind where
  | struct
  | union
deriving DecidableEq, Inhabited, Repr

namespace CompositeKind

/-- The word in front of the name. -/
def render : CompositeKind → String
  | struct => "struct"
  | union => "union"

/-- The spelling in dumps. -/
def tag : CompositeKind → String
  | struct => "Struct"
  | union => "Union"

/-- The reference to a struct or union of a given name. -/
def ref : CompositeKind → String → TypeRef
  | struct, name => .struct name
  | union, name => .union name

end CompositeKind

/-- A member as declared. -/
structure MemberDecl where
  name : String
  type : TypeRef
  location : Option Location := none
deriving Inhabited, DecidableEq

/-- A type defined by the unit. -/
inductive TypeDefinition where
  | composite (kind : CompositeKind) (name : String) (members : List MemberDecl)
      (location : Option Location)
  | typedef (name : String) (real : TypeRef) (location : Option Location)
deriving Inhabited, DecidableEq

/-- The reference that names the defined type. -/
def TypeDefinition.ref : TypeDefinition → TypeRef
  | composite kind name _ _ => kind.ref name
  | typedef name _ _ => .typedef name

end Backend386
