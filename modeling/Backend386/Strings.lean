import Backend386.I386.Operand

/-!
# The string table

All distinct string literals of a unit, in the order they were first met; a literal's number is its
position. Once the literals are placed, each has the symbol that labels its data.

* `StringTable.intern` — the number of a literal, appending it when it is new;
* `StringTable.find?` — the number of a literal that is there;
* `StringTable.labelAll` — labels every literal.
-/

namespace Backend386

/-- The number of a string literal. -/
structure StringId where
  index : Nat
deriving DecidableEq, Inhabited, Repr

/-- The spelling of a string number. -/
def StringId.render (id : StringId) : String :=
  "S" ++ id.index.repr

/-- A string literal and the symbol of its data. -/
structure StringEntry where
  value : String
  symbol : Option String := none
deriving DecidableEq, Inhabited

/-- The memory that holds the literal. -/
def StringEntry.memory (e : StringEntry) : Except Fault MemRef :=
  match e.symbol with
  | some s => .ok (.labelled s)
  | none => .error (.unplacedString (Quoted.render e.value))

/-- All distinct string literals of a unit. -/
structure StringTable where
  entries : List StringEntry := []
deriving DecidableEq, Inhabited

namespace StringTable

/-- How many literals there are. -/
def size (t : StringTable) : Nat :=
  t.entries.length

/-- The number of a literal. -/
def find? (t : StringTable) (s : String) : Option StringId :=
  (t.entries.findIdx? (·.value = s)).map StringId.mk

/-- The number of a literal, which is appended when it is new. -/
def intern (t : StringTable) (s : String) : StringTable × StringId :=
  match t.find? s with
  | some id => (t, id)
  | none => (⟨t.entries ++ [{ value := s }]⟩, ⟨t.size⟩)

/-- A literal. -/
def get (t : StringTable) (id : StringId) : Except Fault StringEntry :=
  match t.entries[id.index]? with
  | some e => .ok e
  | none => .error (.unknownString t.size id.index)

/-- Gives a literal its symbol. -/
def setSymbol (t : StringTable) (id : StringId) (symbol : String) : Except Fault StringTable := do
  let e ← t.get id
  return ⟨t.entries.set id.index { e with symbol := some symbol }⟩

/-- Labels every literal, `.LC` and its number. -/
def labelAll (t : StringTable) : StringTable :=
  ⟨t.entries.mapIdx fun i e => { e with symbol := some (".LC" ++ i.repr) }⟩

/-- The memory that holds a literal. -/
def memory (t : StringTable) (id : StringId) : Except Fault MemRef := do
  (← t.get id).memory

end StringTable

end Backend386
