/-!
# Widths of machine values

Every intermediate expression is tagged with the width of the value it produces, and every register
view has one. A width is one of 8, 16, 32 and 64 bits.

* `Width.bytes`, `Width.bits` — its size;
* `Width.ofBytes?` — the width that holds exactly so many bytes;
* `Width.render`, `Width.tag`, `Width.suffix` — its three spellings.
-/

namespace Backend386

/-- How many bits a machine value has. -/
inductive Width where
  | w8
  | w16
  | w32
  | w64
deriving DecidableEq, Inhabited, Repr

namespace Width

/-- The size in bytes. -/
def bytes : Width → Nat
  | w8 => 1
  | w16 => 2
  | w32 => 4
  | w64 => 8

/-- The size in bits. -/
def bits (w : Width) : Nat :=
  8 * w.bytes

/-- The width that holds exactly `n` bytes: only 1, 2, 4 and 8 have one. -/
def ofBytes? : Nat → Option Width
  | 1 => some w8
  | 2 => some w16
  | 4 => some w32
  | 8 => some w64
  | _ => none

/-- The spelling in the text of intermediate code. -/
def render : Width → String
  | w8 => "i8"
  | w16 => "i16"
  | w32 => "i32"
  | w64 => "i64"

/-- The spelling in dumps. -/
def tag : Width → String
  | w8 => "R8"
  | w16 => "R16"
  | w32 => "R32"
  | w64 => "R64"

/-- The letter the assembler appends to a mnemonic of this width. -/
def suffix : Width → String
  | w8 => "b"
  | w16 => "w"
  | w32 => "l"
  | w64 => "q"

/-- A width is found again from its size. -/
@[simp] theorem ofBytes?_bytes (w : Width) : ofBytes? w.bytes = some w := by
  cases w <;> rfl

/-- `ofBytes?` accepts exactly the sizes of the four widths. -/
theorem ofBytes?_eq_some_iff {n : Nat} {w : Width} : ofBytes? n = some w ↔ w.bytes = n := by
  constructor
  · intro h
    unfold ofBytes? at h
    split at h <;> simp_all [bytes] <;> subst_vars <;> rfl
  · rintro rfl
    exact ofBytes?_bytes w

end Width

end Backend386
