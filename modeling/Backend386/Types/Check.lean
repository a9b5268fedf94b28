import Backend386.Diagnostics
import Backend386.Types.Query

/-!
# Checking the defined types

Structs, unions and arrays must not hold void, the members of a struct or union must have distinct
names, and no type may contain itself by value. Problems are reported as diagnostics.

The search for types that contain themselves is a depth first walk along by-value edges (member,
element, real type of a typedef); pointers are not followed. Every type is visited once; meeting a
type that is still on the current path closes a circle, which is blamed on the first named type of
that circle.

* `TypeTable.valueEdges` — the by-value edges of a type;
* `TypeTable.check` — all checks over all types, in table order.
-/

namespace Backend386

/-- What is wrong with a defined type. -/
inductive TypeError where
  | recursive (name : String)
  | duplicateMember (type member : String)
  | voidMember (type : String)
  | voidElement
deriving DecidableEq

/-- The wording of a type error. -/
def TypeError.message : TypeError → String
  | recursive name => "recursive type definition: " ++ name
  | duplicateMember type member => type ++ " has duplicated member: " ++ member
  | voidMember type => type ++ " cannot contain void"
  | voidElement => "array cannot contain void"

/-- How far the search has come with a type. -/
inductive Mark where
  | unvisited
  | visiting
  | visited
deriving DecidableEq, Inhabited

/-- The state of the search. -/
structure CycleSearch where
  marks : List Mark
  diagnostics : Diagnostics

/-- Changes the mark of a type. -/
def CycleSearch.setMark (s : CycleSearch) (id : TypeId) (mark : Mark) : CycleSearch :=
  { s with marks := s.marks.set id.index mark }

namespace TypeTable

/-- Whether a part of this type would be void; circles of typedefs are left to the search. -/
def isVoidPart (t : TypeTable) (id : TypeId) : Except Fault Bool := do
  match ← t.realType? id with
  | none => return false
  | some real =>
    match ← t.info real with
    | .void => return true
    | _ => return false

/-- Reports each member that is void. -/
def checkVoidMembers (t : TypeTable) (c : Composite) (ds : Diagnostics) :
    Except Fault Diagnostics :=
  c.members.foldlM (fun ds m => do
    if ← t.isVoidPart (← m.typeId) then
      return ds.error c.location (TypeError.voidMember c.render).message
    return ds) ds

/-- The names that stand in a list after an earlier occurrence of themselves. -/
def repeatedNames : List String → List String → List String
  | _, [] => []
  | seen, n :: ns =>
    if n ∈ seen then n :: repeatedNames seen ns else repeatedNames (n :: seen) ns

/-- Reports each member whose name an earlier member has. -/
def checkMemberNames (c : Composite) (ds : Diagnostics) : Diagnostics :=
  (repeatedNames [] (c.members.map (·.name))).foldl (fun ds n =>
    ds.error c.location (TypeError.duplicateMember c.render n).message) ds

/-- The types that a type contains by value. -/
def valueEdges (t : TypeTable) (id : TypeId) : Except Fault (List TypeId) := do
  match ← t.info id with
  | .composite c => c.members.mapM (·.typeId)
  | .array base _ => return [base]
  | .typedef d => return [← d.realId]
  | _ => return []

/-- The type blamed for a circle that closes at `id`: the first named type of the part of the path
that begins there. -/
def culprit (t : TypeTable) (path : List TypeId) (id : TypeId) : TypeId :=
  let circle := path.dropWhile (· ≠ id)
  let circle := if circle.isEmpty then path else circle
  let isNamed (p : TypeId) := match t.entries[p.index]? with
    | some e => e.info.name?.isSome
    | none => false
  (circle.find? isNamed).getD id

/-- Reports that a type contains itself. -/
def reportRecursion (t : TypeTable) (id : TypeId) (ds : Diagnostics) : Diagnostics :=
  let location := match t.entries[id.index]? with
    | some e => e.info.location
    | none => none
  ds.error location (TypeError.recursive (t.nameOf id)).message

/-- Walks from `id`, less than `steps` edges deep; `path` is the way that led here. -/
def searchCycles (t : TypeTable) : Nat → List TypeId → CycleSearch → TypeId →
    Except Fault CycleSearch
  | 0, _, _, _ => .error .endlessType
  | steps + 1, path, s, id =>
    match s.marks.getD id.index .visited with
    | .visited => .ok s
    | .visiting =>
      -- the circle is closed: it is reported, and the type is not visited again
      let s := { s with diagnostics := t.reportRecursion (t.culprit path id) s.diagnostics }
      .ok (s.setMark id .visited)
    | .unvisited => do
      -- the type stays marked while its parts are visited
      let s := s.setMark id .visiting
      let s ← (← t.valueEdges id).foldlM (t.searchCycles steps (path ++ [id])) s
      return s.setMark id .visited

/-- Checks the parts of one type: no member or element is void, and members have distinct names. -/
def checkParts (t : TypeTable) (id : TypeId) (ds : Diagnostics) : Except Fault Diagnostics := do
  match ← t.info id with
  | .composite c => return checkMemberNames c (← t.checkVoidMembers c ds)
  | .array base _ =>
    if ← t.isVoidPart base then
      return ds.error none TypeError.voidElement.message
    return ds
  | _ => return ds

/-- Checks one type. -/
def checkType (t : TypeTable) (s : CycleSearch) (id : TypeId) : Except Fault CycleSearch := do
  let ds ← t.checkParts id s.diagnostics
  t.searchCycles (t.size + 1) [] { s with diagnostics := ds } id

/-- Checks every type, in table order. -/
def check (t : TypeTable) (ds : Diagnostics) : Except Fault Diagnostics := do
  let start : CycleSearch := { marks := List.replicate t.size .unvisited, diagnostics := ds }
  let s ← (List.range t.size).foldlM (fun s i => t.checkType s ⟨i⟩) start
  return s.diagnostics

end TypeTable

end Backend386
