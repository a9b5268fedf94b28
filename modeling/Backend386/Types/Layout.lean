import Backend386.Checked

/-!
# Memory layout

Values are placed one after another, each rounded up to its own alignment. Struct members are
placed upward from 0, and the variables of a stack frame downward from the frame base; both use the
same `Allocator`.

* `align` — the next multiple of an alignment;
* `Allocator.placeUp`, `Allocator.placeDown` — reserve the next value;
* `Layout.ofStruct`, `Layout.ofUnion` — the layout of a struct or union from its members.
-/

namespace Backend386

/-- Rounds `n` up to a multiple of `alignment`, adding before it divides: a sum that leaves the
64 bit range is a fault. -/
def align (n alignment : Nat) : Except Fault Nat := do
  if alignment = 0 then
    throw .zeroAlignment
  let sum ← Checked.add n alignment
  Checked.mul ((sum - 1) / alignment) alignment

/-- The size, the alignment and the member offsets of a type. Scalars have no offsets. -/
structure Layout where
  size : Nat
  alignment : Nat
  offsets : List Nat := []
deriving DecidableEq, Inhabited, Repr

/-- Reserves memory for values one after another. -/
structure Allocator where
  /-- how many bytes are taken -/
  used : Nat := 0
  /-- the largest alignment seen -/
  maxAlignment : Nat := 1
deriving DecidableEq, Inhabited, Repr

namespace Allocator

/-- Reserves `size` bytes above what is taken; the first of them is at the returned offset. -/
def placeUp (a : Allocator) (size alignment : Nat) : Except Fault (Allocator × Nat) := do
  let offset ← align a.used alignment
  let used ← Checked.add offset size
  return ({ used, maxAlignment := max a.maxAlignment alignment }, offset)

/-- Reserves `size` bytes below what is taken; the first of them is the returned distance below
the base. -/
def placeDown (a : Allocator) (size alignment : Nat) : Except Fault (Allocator × Nat) := do
  let sum ← Checked.add a.used size
  let used ← align sum alignment
  return ({ used, maxAlignment := max a.maxAlignment alignment }, used)

/-- What is taken, rounded up to the largest alignment seen. -/
def size (a : Allocator) : Except Fault Nat :=
  align a.used a.maxAlignment

end Allocator

namespace Layout

/-- Places the members of a struct one after another; `measure` gives the size and the alignment of
a member and is asked just before the member is placed. -/
def placeMembers {α : Type} (measure : α → Except Fault (Nat × Nat)) :
    Allocator → List α → Except Fault (Allocator × List Nat)
  | a, [] => .ok (a, [])
  | a, m :: ms => do
    let (size, alignment) ← measure m
    let (a, offset) ← a.placeUp size alignment
    let (a, offsets) ← placeMembers measure a ms
    return (a, offset :: offsets)

/-- The layout of a struct. -/
def ofStruct {α : Type} (measure : α → Except Fault (Nat × Nat)) (members : List α) :
    Except Fault Layout := do
  let (a, offsets) ← placeMembers measure {} members
  let size ← a.size
  return { size, alignment := a.maxAlignment, offsets }

/-- The layout of a union: every member is at offset 0. -/
def ofUnion {α : Type} (measure : α → Except Fault (Nat × Nat)) (members : List α) :
    Except Fault Layout := do
  let extents ← members.mapM measure
  let alignment := extents.foldl (fun a e => max a e.2) 1
  let size ← align (extents.foldl (fun s e => max s e.1) 0) alignment
  return { size, alignment, offsets := extents.map fun _ => 0 }

end Layout

end Backend386
