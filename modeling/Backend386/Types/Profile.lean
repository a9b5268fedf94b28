import Backend386.Types.Ref

/-!
# Width profiles

A profile says how many bytes each integer rank and a pointer take. Chars are always one byte and
shorts two; the four profiles differ in int, long and pointer.
-/

namespace Backend386

/-- The sizes of the basic types. -/
structure WidthProfile where
  name : String
  intSize : Nat
  longSize : Nat
  pointerSize : Nat
deriving DecidableEq, Inhabited, Repr

namespace WidthProfile

/-- Int, long and pointers of 4 bytes. -/
def ilp32 : WidthProfile := ⟨"ilp32", 4, 4, 4⟩

/-- Int of 4 bytes, long and pointers of 8. -/
def lp64 : WidthProfile := ⟨"lp64", 4, 8, 8⟩

/-- Int, long and pointers of 8 bytes. -/
def ilp64 : WidthProfile := ⟨"ilp64", 8, 8, 8⟩

/-- Int and long of 4 bytes, pointers of 8. -/
def llp64 : WidthProfile := ⟨"llp64", 4, 4, 8⟩

/-- All profiles. -/
def all : List WidthProfile := [ilp32, lp64, ilp64, llp64]

/-- The profile of a given name. -/
def ofName? (name : String) : Option WidthProfile :=
  all.find? (·.name = name)

/-- The size of an integer rank. -/
def rankSize (p : WidthProfile) : IntegerRank → Nat
  | .char => 1
  | .short => 2
  | .int => p.intSize
  | .long => p.longSize

/-- The size of the widest integers that one register holds. -/
def maxIntegerSize (p : WidthProfile) : Nat :=
  p.pointerSize

end WidthProfile

end Backend386
