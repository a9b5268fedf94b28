import Backend386.Text.Json.Token

/-!
# Reading JSON

The reader takes the tokens one at a time and keeps the arrays and objects that are still open on a
stack, so it needs no recursion on the text, however deep the values are nested.

* `Json.Reader.step` — one token;
* `Json.parse?` — the value of a text, or `none` if it is not JSON.
-/

namespace Backend386.Json

/-- An array or object that is still open; its parts are kept last first. -/
inductive Frame where
  | arr (items : List Json)
  /-- an object and the name of the field whose value comes next; either is `none` if a name in it
  has half of a surrogate pair -/
  | obj (fields : Option (List (String × Json))) (name : Option String)
deriving Inhabited

/-- What may come next. -/
inductive Expect where
  | value
  /-- the first item of an array, or its end -/
  | firstItem
  /-- the first field of an object, or its end -/
  | firstField
  /-- the name of a further field -/
  | field
  | colon
  /-- a comma or an end -/
  | more
  /-- nothing: the value is complete -/
  | done (value : Json)
deriving Inhabited

/-- The state of the reader. -/
structure Reader where
  expect : Expect := .value
  stack : List Frame := []
deriving Inhabited

namespace Reader

/-- The fields of an object, with one more. -/
def addField (fields : Option (List (String × Json))) (name : Option String) (v : Json) :
    Option (List (String × Json)) :=
  name.bind fun name => fields.map ((name, v) :: ·)

/-- A complete value goes into the innermost open array or object. -/
def accept (stack : List Frame) (v : Json) : Reader :=
  match stack with
  | [] => { expect := .done v, stack := [] }
  | .arr items :: rest => { expect := .more, stack := .arr (v :: items) :: rest }
  | .obj fields name :: rest =>
    { expect := .more, stack := .obj (addField fields name v) none :: rest }

/-- A token where a value is due. -/
def value (stack : List Frame) : Token → Option Reader
  | .scalar v => some (accept stack v)
  | .text (some s) => some (accept stack (.str s))
  | .text none => some (accept stack .unreadable)
  | .openBracket => some { expect := .firstItem, stack := .arr [] :: stack }
  | .openBrace => some { expect := .firstField, stack := .obj (some []) none :: stack }
  | _ => none

/-- A token where the name of a field is due. -/
def fieldName (stack : List Frame) : Token → Option Reader
  | .text name =>
    match stack with
    | .obj fields _ :: rest => some { expect := .colon, stack := .obj fields name :: rest }
    | _ => none
  | _ => none

/-- Closes the innermost open array. -/
def closeArray : List Frame → Option Reader
  | .arr items :: rest => some (accept rest (.arr items.reverse))
  | _ => none

/-- Closes the innermost open object. -/
def closeObject : List Frame → Option Reader
  | .obj (some fields) _ :: rest => some (accept rest (.obj fields.reverse))
  | .obj none _ :: rest => some (accept rest .unreadable)
  | _ => none

/-- One token. -/
def step (r : Reader) (t : Token) : Option Reader :=
  match r.expect, t with
  | .value, t => value r.stack t
  -- an array may be closed at once, but not behind a comma
  | .firstItem, .closeBracket => closeArray r.stack
  | .firstItem, t => value r.stack t
  | .firstField, .closeBrace => closeObject r.stack
  | .firstField, t => fieldName r.stack t
  | .field, t => fieldName r.stack t
  | .colon, .colon => some { r with expect := .value }
  | .more, .comma =>
    -- what follows a comma is decided by what is open
    match r.stack with
    | .arr _ :: _ => some { r with expect := .value }
    | .obj .. :: _ => some { r with expect := .field }
    | [] => none
  | .more, .closeBracket => closeArray r.stack
  | .more, .closeBrace => closeObject r.stack
  | _, _ => none

/-- The value at the end of the tokens. -/
def finish (r : Reader) : Option Json :=
  match r.expect with
  | .done v => some v
  | _ => none

end Reader

/-- The value that a list of tokens writes. -/
def ofTokens? (tokens : List Token) : Option Json :=
  (tokens.foldlM Reader.step {}).bind Reader.finish

/-- The value that a text writes. -/
def parse? (text : String) : Option Json :=
  (scan? text.toList).bind ofTokens?

end Backend386.Json
