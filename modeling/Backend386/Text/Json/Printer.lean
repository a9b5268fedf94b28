import Backend386.Text.Json

/-!
# Writing JSON

Dumps are indented by two spaces for each level, with one item or field on each line; empty arrays
and objects are written without a line break.

* `Json.quote` — the form of a string;
* `Json.render` — the text of a value.
-/

namespace Backend386.Json

/-- The hexadecimal digit of `n`. -/
def hexDigit (n : Nat) : Char :=
  Nat.digitChar (n % 16)

/-- The four digit escape of a character below U+10000. -/
def unitEscape (n : Nat) : String :=
  "\\u" ++ String.ofList [hexDigit (n / 4096), hexDigit (n / 256), hexDigit (n / 16), hexDigit n]

/-- The form of a character in a string. -/
def escapeChar (c : Char) : String :=
  if c = '"' then "\\\""
  else if c = '\\' then "\\\\"
  else if c = '\x08' then "\\b"
  else if c = '\x0c' then "\\f"
  else if c = '\n' then "\\n"
  else if c = '\r' then "\\r"
  else if c = '\t' then "\\t"
  else if c.toNat < 0x20 then unitEscape c.toNat
  else c.toString

/-- The form of a string. -/
def quote (s : String) : String :=
  "\"" ++ String.join (s.toList.map escapeChar) ++ "\""

/-- The indentation of a level. -/
def indent (level : Nat) : String :=
  "".pushn ' ' (2 * level)

/-- Lines between an opening and a closing sign. -/
def renderLines (opening closing : String) (level : Nat) (lines : List String) : String :=
  if lines.isEmpty then opening ++ closing
  else
    opening ++ "\n" ++ ",\n".intercalate (lines.map (indent (level + 1) ++ ·)) ++ "\n" ++
      indent level ++ closing

/-- A number that is out of range, which stands for whatever is unreadable. -/
def outOfRange : String := "1e999"

mutual

/-- The text of a value at a level. -/
def renderAt (level : Nat) : Json → String
  | null => "null"
  | bool true => "true"
  | bool false => "false"
  | int n => n.repr
  | decimal text => text
  | str s => quote s
  | arr items => renderLines "[" "]" level (renderItems (level + 1) items)
  | obj fields => renderLines "\x7b" "\x7d" level (renderFields (level + 1) fields)
  | unreadable => outOfRange

/-- The texts of the items of an array. -/
def renderItems (level : Nat) : List Json → List String
  | [] => []
  | j :: js => renderAt level j :: renderItems level js

/-- The texts of the fields of an object. -/
def renderFields (level : Nat) : List (String × Json) → List String
  | [] => []
  | (name, j) :: fs => (quote name ++ ": " ++ renderAt level j) :: renderFields level fs

end

/-- The text of a value. -/
def render (j : Json) : String :=
  renderAt 0 j

end Backend386.Json
