import Backend386.Ir.Function
import Backend386.Types.Query

/-!
# Stack frames

Locals are placed below the frame base with the alignment rules of struct members. Parameters are
above the saved frame base and the return address, one stack word each.

* `Frame.compute` — the slots of a function;
* `Frame.assign` — records every slot as the storage of its entity.
-/

namespace Backend386

/-- The size of a stack word in bytes. -/
def stackWord : Nat := 4

/-- A variable and its distance from the frame base. -/
structure Slot where
  entity : EntityId
  offset : Int64
deriving DecidableEq, Inhabited, Repr

/-- The slots of a function. -/
structure Frame where
  /-- the bytes reserved below the frame base, a multiple of the stack word -/
  size : Nat
  params : List Slot
  locals : List Slot
deriving DecidableEq, Inhabited, Repr

namespace Frame

/-- Places parameters upward, the first of them so many words above the frame base. -/
def placeParams : Nat → List EntityId → Except Fault (List Slot)
  | _, [] => .ok []
  | words, entity :: rest => do
    let offset ← Checked.signed (words * stackWord)
    let slots ← placeParams (words + 1) rest
    return ⟨entity, offset⟩ :: slots

/-- Places locals downward, first to last. -/
def placeLocals (entities : EntityTable) (types : TypeTable) :
    Allocator → List EntityId → Except Fault (Allocator × List Slot)
  | a, [] => .ok (a, [])
  | a, entity :: rest => do
    let type ← (← entities.get entity).typeId
    let size ← types.sizeOf type
    let alignment ← types.alignmentOf type
    let (a, depth) ← a.placeDown size alignment
    let offset ← Checked.negInt (Int64.ofNat depth)
    let (a, slots) ← placeLocals entities types a rest
    return (a, ⟨entity, offset⟩ :: slots)

/-- The slots of the parameters and of every stack variable of a function, temporaries included. -/
def compute (f : Ir.Function) (entities : EntityTable) (types : TypeTable) :
    Except Fault Frame := do
  let params ← placeParams 2 f.params
  let vars ← f.scope.stackVariables entities
  let (a, locals) ← placeLocals entities types {} vars
  let size ← align (← a.size) stackWord
  return { size, params, locals }

/-- Every slot, the parameters first. -/
def slots (f : Frame) : List Slot :=
  f.params ++ f.locals

/-- Records a slot as the storage of its entity. -/
def assignSlot (entities : EntityTable) (s : Slot) : Except Fault EntityTable :=
  entities.place s.entity (.memory (.based .ebp s.offset))

/-- Records every slot as the storage of its entity. -/
def assign (f : Frame) (entities : EntityTable) : Except Fault EntityTable :=
  f.slots.foldlM assignSlot entities

end Frame

end Backend386
