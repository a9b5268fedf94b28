import Backend386.Types.Query

/-!
# The cache of layouts

Where many layouts are asked for, each is computed once, when it is first needed, and kept in a cell
of its own. A layout asks for the layouts of its parts in the same way, so these are kept as well.

* `Caching` — computations that read and fill the cells;
* `TypeTable.cachedLayoutWithin` — the layout of a type, from its cell where it is filled;
* `LayoutCache.layout` — the same for a table with its cells;
* `TypeTable.summaries` — what a type dump says of each type.
-/

namespace Backend386

/-- A computation that reads and fills the cells, one for each type. -/
abbrev Caching : Type → Type :=
  StateT (List (Option Layout)) (Except Fault)

namespace Caching

variable {α : Type}

/-- Places the members of a struct one after another; `measure` is asked just before the member is
placed. -/
def placeMembers (measure : α → Caching (Nat × Nat)) :
    Allocator → List α → Caching (Allocator × List Nat)
  | a, [] => return (a, [])
  | a, m :: ms => do
    let (size, alignment) ← measure m
    let (a, offset) ← a.placeUp size alignment
    let (a, offsets) ← placeMembers measure a ms
    return (a, offset :: offsets)

/-- The layout of a struct. -/
def ofStruct (measure : α → Caching (Nat × Nat)) (members : List α) : Caching Layout := do
  let (a, offsets) ← placeMembers measure {} members
  let size ← a.size
  return { size, alignment := a.maxAlignment, offsets }

/-- The layout of a union: every member is at offset 0. -/
def ofUnion (measure : α → Caching (Nat × Nat)) (members : List α) : Caching Layout := do
  let extents ← members.mapM measure
  let alignment := extents.foldl (fun a e => max a e.2) 1
  let size ← align (extents.foldl (fun s e => max s e.1) 0) alignment
  return { size, alignment, offsets := extents.map fun _ => 0 }

end Caching

namespace TypeTable

/-- The layout of a type from the layouts of its parts. -/
def cachedLayoutBy (t : TypeTable) (layouts : TypeId → Caching Layout) : TypeInfo → Caching Layout
  | .void => return { size := 1, alignment := 1 }
  | .integer size _ _ => return { size, alignment := size }
  | .pointer _ => return { size := t.profile.pointerSize, alignment := t.profile.pointerSize }
  | .array base length => do
    let element ← layouts base
    -- an array without a length has no bytes
    let size ← Checked.mul element.size ((length.map UInt64.toNat).getD 0)
    return { size, alignment := element.alignment }
  | .composite c =>
    let measure (m : Member) : Caching (Nat × Nat) := do
      let l ← layouts (← m.typeId)
      return (l.size, l.alignment)
    match c.kind with
    | .struct => Caching.ofStruct measure c.members
    | .union => Caching.ofUnion measure c.members
  | .function _ => throw .sizelessFunction
  | .typedef d => do layouts (← d.realId)

/-- The layout of a type whose by-value parts are nested less than `steps` deep, from its cell where
it is filled. -/
def cachedLayoutWithin (t : TypeTable) : Nat → TypeId → Caching Layout
  | 0, _ => throw .endlessType
  | steps + 1, id => do
    match (← get)[id.index]? with
    | some (some l) => return l
    | _ =>
      let l ← t.cachedLayoutBy (t.cachedLayoutWithin steps) (← t.info id)
      modify (·.set id.index (some l))
      return l

end TypeTable

/-- A table with a cell for the layout of each type. -/
structure LayoutCache where
  types : TypeTable
  cells : List (Option Layout)
deriving Inhabited

namespace LayoutCache

/-- A table in which no layout was asked for yet. -/
def ofTypes (types : TypeTable) : LayoutCache :=
  { types, cells := List.replicate types.size none }

/-- The layout of a type. -/
def layout (c : LayoutCache) (id : TypeId) : Except Fault (LayoutCache × Layout) := do
  let (l, cells) ← c.types.cachedLayoutWithin c.types.size id c.cells
  return ({ c with cells }, l)

end LayoutCache

/-! ## Summaries

One line of a type dump: the number, the name and the layout of a type. Function types have no
layout. -/

/-- What a dump says of a type. -/
structure TypeSummary where
  id : TypeId
  name : String
  layout : Option Layout
deriving Inhabited, DecidableEq

/-- The summary of a type. -/
def LayoutCache.summary (c : LayoutCache) (id : TypeId) :
    Except Fault (LayoutCache × TypeSummary) := do
  let name := c.types.nameOf id
  if ← c.types.isFunction id then
    return (c, { id, name, layout := none })
  let (c, layout) ← c.layout id
  return (c, { id, name, layout })

/-- The summaries of some types, first to last. -/
def LayoutCache.summaries (c : LayoutCache) : List TypeId → Except Fault (List TypeSummary)
  | [] => .ok []
  | id :: ids => do
    let (c, summary) ← c.summary id
    return summary :: (← c.summaries ids)

/-- The summaries of all types, in table order. -/
def TypeTable.summaries (t : TypeTable) : Except Fault (List TypeSummary) :=
  (LayoutCache.ofTypes t).summaries ((List.range t.size).map TypeId.mk)

end Backend386
