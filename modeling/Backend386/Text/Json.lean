/-!
# JSON values

Program units are read from JSON, and dumps are written as JSON or YAML; both sides meet in this
type. An object keeps the order of its fields and every repetition of one, since the reader of
units has to refuse repetitions. A text may also write what no value stands for, such as a number
that is out of range; that is `unreadable`, and it does no harm where nothing is read.

* `Json` — the values;
* `Json.depth`, `Json.isReadable` — what the reader of units checks.
-/

namespace Backend386

/-- A JSON value. -/
inductive Json where
  | null
  | bool (b : Bool)
  /-- an integer of 64 bits, signed or unsigned -/
  | int (n : Int)
  /-- any other number, as it was written -/
  | decimal (text : String)
  | str (s : String)
  | arr (items : List Json)
  | obj (fields : List (String × Json))
  /-- what is written correctly and has no value: a number out of range, a string with half of a
  surrogate pair, or an object with such a name -/
  | unreadable
deriving Inhabited

namespace Json

/-- A natural number. -/
def nat (n : Nat) : Json :=
  int n

/-- A value that may be absent, written as null. -/
def option {α : Type} (f : α → Json) : Option α → Json
  | none => null
  | some a => f a

/-- A list of values. -/
def list {α : Type} (f : α → Json) (as : List α) : Json :=
  arr (as.map f)

/-- An object of one field: a variant and its content. -/
def variant (name : String) (content : Json) : Json :=
  obj [(name, content)]

mutual

/-- How deep arrays and objects are nested. -/
def depth : Json → Nat
  | arr items => depthOfItems items + 1
  | obj fields => depthOfFields fields + 1
  | null | bool _ | int _ | decimal _ | str _ | unreadable => 0

/-- The greatest depth in a list. -/
def depthOfItems : List Json → Nat
  | [] => 0
  | j :: js => max (depth j) (depthOfItems js)

/-- The greatest depth in a list of fields. -/
def depthOfFields : List (String × Json) → Nat
  | [] => 0
  | (_, j) :: fs => max (depth j) (depthOfFields fs)

end

mutual

/-- Whether nothing in a value is unreadable. -/
def isReadable : Json → Bool
  | arr items => areReadable items
  | obj fields => areFieldsReadable fields
  | unreadable => false
  | null | bool _ | int _ | decimal _ | str _ => true

/-- Whether nothing in a list is unreadable. -/
def areReadable : List Json → Bool
  | [] => true
  | j :: js => isReadable j && areReadable js

/-- Whether nothing in a list of fields is unreadable. -/
def areFieldsReadable : List (String × Json) → Bool
  | [] => true
  | (_, j) :: fs => isReadable j && areFieldsReadable fs

end

end Json

end Backend386
