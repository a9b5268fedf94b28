/-!
# Places in the program text

Declarations, statements and expressions carry the place they come from, so that diagnostics and
commented listings can point back at it.

* `Location.render` — the short form `L3:4` of diagnostics and listings;
* `Location.inspect` — the long form of an optional place, used inside fault messages.
-/

namespace Backend386

/-- A line and a column of the program text. -/
structure Location where
  line : UInt32
  column : UInt32 := 0
deriving DecidableEq, Inhabited, Repr

namespace Location

/-- The short form `L<line>:<column>`. -/
def render (l : Location) : String :=
  "L" ++ l.line.toNat.repr ++ ":" ++ l.column.toNat.repr

/-- The long form of a place that may be unknown. -/
def inspect : Option Location → String
  | none => "None"
  | some l =>
    "Some(Location \x7b line: " ++ l.line.toNat.repr ++ ", column: " ++ l.column.toNat.repr ++
      " \x7d)"

end Location

end Backend386
