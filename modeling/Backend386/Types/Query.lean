import Backend386.Types.Layout
import Backend386.Types.Table

/-!
# Questions about types

Everything the rest of the back end asks about a type it asks of its real type, the one that is
left when typedefs are followed.

* `TypeTable.nameOf` — the name of a type in diagnostics;
* `TypeTable.realType?`, `TypeTable.realType` — follow typedefs; the bound on the number of steps
  is one more than the size of the table, which only a circle of typedefs exceeds;
* `TypeTable.isInteger`, … — what kind of type it is;
* `TypeTable.layout` — its size, alignment and member offsets, by recursion along the by-value
  parts of the type, again bounded by the size of the table.
-/

namespace Backend386.TypeTable

/-! ## Names -/

/-- The name of a type, following at most `steps` pointers, elements, results and parameters. -/
def nameWithin (t : TypeTable) : Nat → TypeId → String
  | 0, _ => ""
  | steps + 1, id =>
    match t.entries[id.index]? with
    | none => ""
    | some e =>
      match e.info with
      | .void => "void"
      | .integer _ _ name => name
      | .pointer base => t.nameWithin steps base ++ "*"
      -- the length of an array follows the name of its element
      | .array base (some n) => t.nameWithin steps base ++ "[" ++ n.toNat.repr ++ "]"
      | .array base none => t.nameWithin steps base ++ "[]"
      | .composite c => c.render
      | .function f =>
        let params := f.params.map (t.nameWithin steps) ++ (if f.vararg then ["..."] else [])
        t.nameWithin steps f.ret ++ "(" ++ ", ".intercalate params ++ ")"
      | .typedef d => d.name

/-- The name of a type in diagnostics and dumps. -/
def nameOf (t : TypeTable) (id : TypeId) : String :=
  t.nameWithin t.size id

/-! ## Typedefs -/

/-- Follows at most `steps - 1` typedefs; `none` if the type reached is still a typedef. -/
def followTypedefs (t : TypeTable) : Nat → TypeId → Except Fault (Option TypeId)
  | 0, _ => .ok none
  | steps + 1, id => do
    match ← t.info id with
    | .typedef d => t.followTypedefs steps (← d.realId)
    | _ => return some id

/-- The type that is left when typedefs are followed, or `none` if they form a circle. -/
def realType? (t : TypeTable) (id : TypeId) : Except Fault (Option TypeId) :=
  t.followTypedefs (t.size + 1) id

/-- The type that is left when typedefs are followed. -/
def realType (t : TypeTable) (id : TypeId) : Except Fault TypeId := do
  match ← t.realType? id with
  | some id => return id
  | none => throw (.cyclicTypedef (t.nameOf id))

/-- What the table knows of the real type. -/
def realInfo (t : TypeTable) (id : TypeId) : Except Fault TypeInfo := do
  t.info (← t.realType id)

/-! ## Kinds of types -/

/-- The type without values. -/
def isVoid (t : TypeTable) (id : TypeId) : Except Fault Bool := do
  match ← t.realInfo id with
  | .void => return true
  | _ => return false

/-- An integer type. -/
def isInteger (t : TypeTable) (id : TypeId) : Except Fault Bool := do
  match ← t.realInfo id with
  | .integer .. => return true
  | _ => return false

/-- A signed integer type; pointers compare and divide as unsigned values. -/
def isSigned (t : TypeTable) (id : TypeId) : Except Fault Bool := do
  match ← t.realInfo id with
  | .integer _ signed _ => return signed
  | _ => return false

/-- A pointer type. -/
def isPointer (t : TypeTable) (id : TypeId) : Except Fault Bool := do
  match ← t.realInfo id with
  | .pointer _ => return true
  | _ => return false

/-- An array type. -/
def isArray (t : TypeTable) (id : TypeId) : Except Fault Bool := do
  match ← t.realInfo id with
  | .array .. => return true
  | _ => return false

/-- A struct or a union. -/
def isComposite (t : TypeTable) (id : TypeId) : Except Fault Bool := do
  match ← t.realInfo id with
  | .composite _ => return true
  | _ => return false

/-- A function type. -/
def isFunction (t : TypeTable) (id : TypeId) : Except Fault Bool := do
  match ← t.realInfo id with
  | .function _ => return true
  | _ => return false

/-- An integer or a pointer: a type whose values fit in a register. -/
def isScalar (t : TypeTable) (id : TypeId) : Except Fault Bool := do
  return (← t.isInteger id) || (← t.isPointer id)

/-- A struct, a union or an array: a type that is only reached through its address. -/
def isAggregate (t : TypeTable) (id : TypeId) : Except Fault Bool := do
  return (← t.isComposite id) || (← t.isArray id)

/-- A pointer or an array: a type with an element type. -/
def isPointerLike (t : TypeTable) (id : TypeId) : Except Fault Bool := do
  return (← t.isPointer id) || (← t.isArray id)

/-! ## Parts of types -/

/-- The element type of a pointer or an array. -/
def baseType (t : TypeTable) (id : TypeId) : Except Fault TypeId := do
  match ← t.realInfo id with
  | .pointer base | .array base _ => return base
  | _ => throw (.noBaseType (t.nameOf id))

/-- The struct or union. -/
def composite (t : TypeTable) (id : TypeId) : Except Fault Composite := do
  match ← t.realInfo id with
  | .composite c => return c
  | _ => throw (.notComposite (t.nameOf id))

/-- The function type, seen through at most one pointer. -/
def function (t : TypeTable) (id : TypeId) : Except Fault FunctionType := do
  match ← t.realInfo id with
  | .function f => return f
  | .pointer base =>
    match ← t.realInfo base with
    | .function f => return f
    | _ => throw (.notCallable (t.nameOf id))
  | _ => throw (.notCallable (t.nameOf id))

/-! ## Layout -/

/-- The layout of a type whose by-value parts are nested less than `steps` deep. -/
def layoutWithin (t : TypeTable) : Nat → TypeId → Except Fault Layout
  | 0, _ => .error .endlessType
  | steps + 1, id => do
    match ← t.info id with
    | .void => return { size := 1, alignment := 1 }
    | .integer size _ _ => return { size, alignment := size }
    | .pointer _ => return { size := t.profile.pointerSize, alignment := t.profile.pointerSize }
    | .array base length =>
      let element ← t.layoutWithin steps base
      -- an array without a length has no bytes
      let size ← Checked.mul element.size ((length.map UInt64.toNat).getD 0)
      return { size, alignment := element.alignment }
    | .composite c =>
      let measure (m : Member) := do
        let l ← t.layoutWithin steps (← m.typeId)
        return (l.size, l.alignment)
      match c.kind with
      | .struct => Layout.ofStruct measure c.members
      | .union => Layout.ofUnion measure c.members
    | .function _ => throw .sizelessFunction
    | .typedef d => t.layoutWithin steps (← d.realId)

/-- The layout of a type. -/
def layout (t : TypeTable) (id : TypeId) : Except Fault Layout :=
  t.layoutWithin t.size id

/-- The size of a type. -/
def sizeOf (t : TypeTable) (id : TypeId) : Except Fault Nat := do
  return (← t.layout id).size

/-- The alignment of a type. -/
def alignmentOf (t : TypeTable) (id : TypeId) : Except Fault Nat := do
  return (← t.layout id).alignment

/-- The size of the elements of a pointer or an array. -/
def elementSize (t : TypeTable) (id : TypeId) : Except Fault Nat := do
  t.sizeOf (← t.baseType id)

/-- The type and the byte offset of a member of a struct or union. -/
def member? (t : TypeTable) (id : TypeId) (name : String) :
    Except Fault (Option (TypeId × Nat)) := do
  let c ← t.composite id
  match c.memberIndex? name with
  | none => return none
  | some i =>
    let offsets := (← t.layout id).offsets
    match c.members[i]?, offsets[i]? with
    | some m, some offset => return some (← m.typeId, offset)
    | _, _ => return none

end Backend386.TypeTable
