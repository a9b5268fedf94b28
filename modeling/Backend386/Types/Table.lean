import Backend386.Types.Info
import Backend386.Types.Profile

/-!
# The type table

The table holds every type of a unit, in the order the types were first met; a type's number is
its position. Each type is registered under one structural reference, and a reference is registered
at most once, so references and numbers determine each other.

* `TypeTable.initial` — void and the integer types of a profile;
* `TypeTable.intern` — the number of a reference; pointers, arrays and functions that are not there
  yet are appended, with the types they are built from;
* `TypeTable.define`, `TypeTable.settleDefinitions` — register the definitions of a unit, then
  settle what they refer to.

No operation changes the reference of a type, and none changes the type itself apart from settling
a member or a typedef.
-/

namespace Backend386

/-- A type and the reference under which it is registered. -/
structure TypeEntry where
  ref : TypeRef
  info : TypeInfo
deriving Inhabited, DecidableEq

/-- Every type of a unit. -/
structure TypeTable where
  profile : WidthProfile
  entries : List TypeEntry
deriving Inhabited

namespace TypeTable

/-- The entries that every table starts with: void, then each rank signed and unsigned. -/
def basicEntries (p : WidthProfile) : List TypeEntry :=
  { ref := .void, info := .void } ::
    [IntegerRank.char, .short, .int, .long].flatMap fun rank =>
      [true, false].map fun signed =>
        let ref := TypeRef.integer rank signed
        { ref, info := .integer (p.rankSize rank) signed ref.render }

/-- The table before anything is defined. -/
def initial (profile : WidthProfile) : TypeTable :=
  { profile, entries := basicEntries profile }

/-- How many types there are. -/
def size (t : TypeTable) : Nat :=
  t.entries.length

/-- The number of a reference that is registered. -/
def lookup? (t : TypeTable) (ref : TypeRef) : Option TypeId :=
  (t.entries.findIdx? (·.ref = ref)).map TypeId.mk

/-- The entry of a type. -/
def entry (t : TypeTable) (id : TypeId) : Except Fault TypeEntry :=
  match t.entries[id.index]? with
  | some e => .ok e
  | none => .error (.unknownType id.index)

/-- What the table knows of a type. -/
def info (t : TypeTable) (id : TypeId) : Except Fault TypeInfo := do
  return (← t.entry id).info

/-- The reference under which a type is registered. -/
def refOf (t : TypeTable) (id : TypeId) : Except Fault TypeRef := do
  return (← t.entry id).ref

/-! ## Registering types -/

/-- Appends a type under a reference that is not registered yet. -/
def put (t : TypeTable) (ref : TypeRef) (info : TypeInfo) : Except Fault (TypeTable × TypeId) :=
  match t.lookup? ref with
  | some _ => .error (.duplicateType ref)
  | none => .ok ({ t with entries := t.entries ++ [⟨ref, info⟩] }, ⟨t.size⟩)

mutual

/-- The number of a reference. Derived types that are not there yet are appended after the types
they are built from. -/
def intern (t : TypeTable) (ref : TypeRef) : Except Fault (TypeTable × TypeId) :=
  match t.lookup? ref with
  | some id => .ok (t, id)
  | none =>
    match ref with
    | .pointer base => do
      -- the element is registered first, so that it has the smaller number
      let (t, base) ← t.intern base
      t.put ref (.pointer base)
    | .array base length => do
      let (t, base) ← t.intern base
      t.put ref (.array base length)
    | .function ret params vararg => do
      let (t, ret) ← t.intern ret
      let (t, params) ← t.internParams params
      t.put ref (.function ⟨ret, params, vararg⟩)
    -- only definitions register these
    | .struct _ | .union _ | .typedef _ => .error (.undefinedType ref)
    | .void | .integer .. => .error (.unregisteredType ref)
termination_by structural ref

/-- The types of a list of parameters, first to last: a parameter declared as an array is a pointer
to the element. -/
def internParams (t : TypeTable) (refs : List TypeRef) :
    Except Fault (TypeTable × List TypeId) :=
  match refs with
  | [] => .ok (t, [])
  | ref :: refs => do
    let (t, id) ← match ref with
      -- an array is adjusted to a pointer, whose element is the one of the array
      | .array base _ =>
        match t.lookup? (.pointer base) with
        | some id => .ok (t, id)
        | none => do
          let (t, base') ← t.intern base
          t.put (.pointer base) (.pointer base')
      | ref => t.intern ref
    let (t, ids) ← t.internParams refs
    return (t, id :: ids)
termination_by structural refs

end

/-- The type of a parameter: a parameter declared as an array is a pointer to the element. -/
def internParam (t : TypeTable) : TypeRef → Except Fault (TypeTable × TypeId)
  | .array base _ => t.intern (.pointer base)
  | ref => t.intern ref

/-- Parameters are interned one after another. -/
theorem internParams_cons (t : TypeTable) (ref : TypeRef) (refs : List TypeRef) :
    t.internParams (ref :: refs) = (do
      let (t, id) ← t.internParam ref
      let (t, ids) ← t.internParams refs
      return (t, id :: ids)) := by
  cases ref <;> simp [internParams, internParam]
  rw [intern]
  split <;> simp_all

/-- The types of a list of references, first to last. -/
def internAll (t : TypeTable) : List TypeRef → Except Fault (TypeTable × List TypeId)
  | [] => .ok (t, [])
  | ref :: refs => do
    let (t, id) ← t.intern ref
    let (t, ids) ← t.internAll refs
    return (t, id :: ids)

/-- The type of a pointer to `id`. -/
def pointerTo (t : TypeTable) (id : TypeId) : Except Fault (TypeTable × TypeId) := do
  t.intern (.pointer (← t.refOf id))

/-! ## Definitions -/

/-- Registers a definition. What it refers to is settled by `settleDefinitions`, once every
definition is registered. -/
def define (t : TypeTable) (d : TypeDefinition) : Except Fault (TypeTable × TypeId) :=
  t.put d.ref (.ofDefinition d)

/-- Registers a list of definitions, first to last. -/
def defineAll (t : TypeTable) (ds : List TypeDefinition) : Except Fault TypeTable :=
  ds.foldlM (fun t d => return (← t.define d).1) t

/-- The references of the members that are still pending. -/
def pendingRefs (members : List Member) : List TypeRef :=
  (members.filter (!·.type.isSettled)).map (·.ref)

/-- Gives the pending members their types, first to last. -/
def settleMembers : List Member → List TypeId → List Member
  | [], _ => []
  | ms, [] => ms
  | m :: ms, id :: ids =>
    if m.type.isSettled then m :: settleMembers ms (id :: ids)
    else { m with type := .settled id } :: settleMembers ms ids

/-- Replaces what the table knows of a type. -/
def setInfo (t : TypeTable) (id : TypeId) (info : TypeInfo) : TypeTable :=
  { t with entries := t.entries.modify id.index ({ · with info }) }

/-- Settles what one type refers to, if it is a definition. -/
def settleDefinition (t : TypeTable) (id : TypeId) : Except Fault TypeTable := do
  match ← t.info id with
  | .composite c =>
    let (t, ids) ← t.internAll (pendingRefs c.members)
    return t.setInfo id (.composite { c with members := settleMembers c.members ids })
  | .typedef d =>
    if d.real.isSettled then
      return t
    let (t, real) ← t.intern d.ref
    return t.setInfo id (.typedef { d with real := .settled real })
  | _ => return t

/-- Settles every member and every typedef of the types that are in the table now. -/
def settleDefinitions (t : TypeTable) : Except Fault TypeTable :=
  (List.range t.size).foldlM (fun t i => t.settleDefinition ⟨i⟩) t

/-! ## The basic types -/

/-- The number of an integer type. -/
def integer (t : TypeTable) (rank : IntegerRank) (signed : Bool) : Except Fault TypeId :=
  match t.lookup? (.integer rank signed) with
  | some id => .ok id
  | none => .error (.unregisteredType (.integer rank signed))

/-- The number of void. -/
def void (t : TypeTable) : Except Fault TypeId :=
  match t.lookup? .void with
  | some id => .ok id
  | none => .error (.unregisteredType .void)

/-- The number of signed int. -/
def int (t : TypeTable) : Except Fault TypeId :=
  t.integer .int true

/-- The integer type of values that are kept on the stack, signed or unsigned. -/
def stackInteger (t : TypeTable) (signed : Bool) : Except Fault TypeId :=
  t.integer .long signed

/-- The signed integer type as wide as a pointer: the first of long, int and short that is. -/
def pointerDifference (t : TypeTable) : Except Fault TypeId :=
  match [IntegerRank.long, .int, .short].find? (t.profile.rankSize · = t.profile.pointerSize) with
  | some rank => t.integer rank true
  | none => .error (.noPointerInteger t.profile.name)

end TypeTable

end Backend386
