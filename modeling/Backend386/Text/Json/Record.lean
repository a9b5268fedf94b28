import Backend386.Text.Json

/-!
# Records, tags and variants in JSON

The conventions by which typed values are written in JSON.

* A record is an object; fields that it does not have are ignored, and a field that is repeated is
  an error. It may also be an array of its fields in order, whose last ones may be missing.
* A tagged record is an object with one more field, the tag, that says which fields it has; as an
  array it begins with the tag.
* A variant is an object of exactly one field, or a string if it has no content.

Inside of a tagged record two more ways of writing are allowed: a tag may be given by its number,
and the missing content of a variant may be an empty object.
-/

namespace Backend386.Json

/-! ## Scalars -/

/-- A truth value. -/
def bool? : Json → Option Bool
  | bool b => some b
  | _ => none

/-- A text. -/
def str? : Json → Option String
  | str s => some s
  | _ => none

/-- A list, item by item. -/
def list? {α : Type} (read : Json → Option α) : Json → Option (List α)
  | arr items => items.mapM read
  | _ => none

/-- A natural number below `bound`. -/
def natBelow? (bound : Nat) : Json → Option Nat
  | int n => if 0 ≤ n ∧ n < bound then some n.toNat else none
  | _ => none

/-- An unsigned number of 32 bits. -/
def uint32? (j : Json) : Option UInt32 :=
  (j.natBelow? UInt32.size).map UInt32.ofNat

/-- An unsigned number of 64 bits. -/
def uint64? (j : Json) : Option UInt64 :=
  (j.natBelow? UInt64.size).map UInt64.ofNat

/-- A signed number of 64 bits. -/
def int64? : Json → Option Int64
  | int n =>
    if Int64.minValue.toInt ≤ n ∧ n ≤ Int64.maxValue.toInt then some (Int64.ofInt n) else none
  | _ => none

/-! ## Fields -/

/-- A field that may be missing or null. -/
def optional? {α : Type} (read : Json → Option α) : Option Json → Option (Option α)
  | none | some null => some none
  | some j => (read j).map some

/-- A field that may be missing, but not null unless `read` takes null. -/
def withDefault? {α : Type} (default : α) (read : Json → Option α) : Option Json → Option α
  | none => some default
  | some j => read j

/-- A field that has to be there. -/
def required? {α : Type} (read : Json → Option α) : Option Json → Option α
  | none => none
  | some j => read j

/-- The value of a field that is there at most once. -/
def fieldOnce? (fields : List (String × Json)) (name : String) : Option (Option Json) :=
  match fields.filter (·.1 = name) with
  | [] => some none
  | [(_, v)] => some (some v)
  | _ => none

/-- The values of the named fields of a record, in the order of the names. -/
def record? (names : List String) : Json → Option (List (Option Json))
  | obj fields => names.mapM (fieldOnce? fields)
  | arr items =>
    if items.length ≤ names.length then
      some (items.map some ++ List.replicate (names.length - items.length) none)
    else none
  | _ => none

/-- The items of a record that is an array, each changed in the way of its field. -/
def keepItems : List (String × (Json → Json)) → List Json → List Json
  | (_, change) :: fields, j :: js => change j :: keepItems fields js
  | _, js => js

/-- A record without the fields that it ignores. Each field that it has comes with a change for its
value. -/
def keepFields (fields : List (String × (Json → Json))) : Json → Json
  | obj found =>
    obj (found.filterMap fun (name, j) =>
      (fields.lookup name).map fun change => (name, change j))
  | arr items => arr (keepItems fields items)
  | j => j

/-- A list with every item changed. -/
def mapItems (change : Json → Json) : Json → Json
  | arr items => arr (items.map change)
  | j => j

/-- The tag of a tagged record, as `read` reads it, and the record without it. -/
def taggedBy? (read : Json → Option String) (tag : String) : Json → Option (String × Json)
  | obj fields => do
    let name ← required? read (← fieldOnce? fields tag)
    return (name, obj (fields.filter (·.1 ≠ tag)))
  | arr (first :: rest) => (read first).map fun name => (name, arr rest)
  | _ => none

/-- The tag of a tagged record, and the record without it. -/
def tagged? (tag : String) : Json → Option (String × Json) :=
  taggedBy? str? tag

/-- A name, or its number in a list of names. -/
def nameOrNumber? (names : List String) : Json → Option String
  | int n => if 0 ≤ n then names[n.toNat]? else none
  | j => j.str?

/-- The tag of a record inside of a tagged record, and the record without it. The tag may be given
by its number in the list of tags. -/
def innerTagged? (tag : String) (names : List String) : Json → Option (String × Json) :=
  taggedBy? (nameOrNumber? names) tag

/-- A tagged record without fields: any object, and as an array nothing after the tag. -/
def isEmptyRecord : Json → Bool
  | obj _ => true
  | arr items => items.isEmpty
  | _ => false

/-- The name of a variant and its content. -/
def variant? : Json → Option (String × Option Json)
  | str name => some (name, none)
  | obj [(name, content)] => some (name, some content)
  | _ => none

/-- Where a value stands: inside of a tagged record or not. -/
inductive Setting where
  | direct
  | tagged
deriving DecidableEq, Inhabited, Repr

/-- Whether the content of a variant is none at all. -/
def isNoContent (setting : Setting) : Option Json → Bool
  | none | some null => true
  | some (obj []) => setting = .tagged
  | _ => false

/-- A variant without content, found by its spelling among the given ones. -/
def plainVariant? {α : Type} (setting : Setting) (all : List α) (tag : α → String) (j : Json) :
    Option α := do
  let (name, content) ← j.variant?
  if isNoContent setting content then all.find? (tag · = name) else none

end Backend386.Json
