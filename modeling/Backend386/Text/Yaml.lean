import Backend386.Text.Json.Printer

/-!
# Writing YAML

Dumps can be written as a YAML document. Nested mappings and lists are indented by two spaces for
each level; an item of a list starts on the line of its dash.

* `Yaml.needsQuotes` — whether a plain text would read as something else than the text;
* `Yaml.scalar` — the form of a text;
* `Yaml.render` — the document of a value.
-/

namespace Backend386.Yaml

/-! ## Texts -/

/-- The words that would read as a truth value or as nothing. -/
def reserved : List String :=
  ["yes", "Yes", "YES", "no", "No", "NO", "True", "TRUE", "true", "False", "FALSE", "false", "on",
    "On", "ON", "off", "Off", "OFF", "null", "Null", "NULL", "~"]

/-- Signs that mean something at the start of a text. -/
def isIndicator (c : Char) : Bool :=
  c ∈ ['&', '*', '?', '|', '-', '<', '>', '=', '!', '%', '@', '.']

/-- Control characters that may stand in a plain text. -/
def isToleratedControl (c : Char) : Bool :=
  c.toNat ∈ [0x07, 0x08, 0x0b, 0x0c, 0x1b]

/-- Characters that may not stand anywhere in a plain text. -/
def isSpecial (c : Char) : Bool :=
  c ∈ [':', '\x7b', '\x7d', '[', ']', ',', '#', '\x60', '"', '\'', '\\'] ||
    (c.toNat < 0x20 && !isToleratedControl c)

/-- The text without a sign in front. -/
def dropSign : List Char → List Char
  | '+' :: cs | '-' :: cs => cs
  | cs => cs

/-- One or more digits and nothing else. -/
def isDigits (cs : List Char) : Bool :=
  !cs.isEmpty && cs.all Char.isDigit

/-- The end of a number, after its digits: an exponent or nothing. -/
def isExponent : List Char → Bool
  | [] => true
  | c :: cs => (c = 'e' || c = 'E') && isDigits (dropSign cs)

/-- A decimal number without a sign: digits before or after the point, or both. -/
def isDecimal (cs : List Char) : Bool :=
  let whole := cs.takeWhile Char.isDigit
  match cs.dropWhile Char.isDigit with
  | '.' :: rest =>
    let fraction := rest.takeWhile Char.isDigit
    !(whole.isEmpty && fraction.isEmpty) && isExponent (rest.dropWhile Char.isDigit)
  | rest => !whole.isEmpty && isExponent rest

/-- Whether a text reads as a number, infinity or not a number. -/
def isNumeric (s : String) : Bool :=
  let cs := dropSign s.toList
  isDecimal cs || String.ofList (cs.map Char.toLower) ∈ ["inf", "infinity", "nan"]

/-- Whether a plain text would read as something else than the text. -/
def needsQuotes (s : String) : Bool :=
  let cs := s.toList
  cs.isEmpty || cs.head? = some ' ' || cs.getLast? = some ' ' || cs.head?.any isIndicator ||
    cs.any isSpecial || s ∈ reserved || cs.take 2 = ['0', 'x'] || isNumeric s

/-- The form of a character between quotes. -/
def escapeChar (c : Char) : String :=
  if c.toNat = 0x7f then Json.unitEscape c.toNat else Json.escapeChar c

/-- The form of a text. -/
def scalar (s : String) : String :=
  if needsQuotes s then "\"" ++ String.join (s.toList.map escapeChar) ++ "\"" else s

/-! ## Values -/

/-- What stands between the colon of a field and its value: what has lines of its own begins on the
next line. -/
def fieldGap (level : Nat) : Json → String
  | .arr (_ :: _) | .obj (_ :: _) => "\n" ++ Json.indent (level + 1)
  | _ => " "

mutual

/-- The text of a value whose lines after the first are indented to a level. -/
def renderAt (level : Nat) : Json → String
  | .null => "~"
  | .bool true => "true"
  | .bool false => "false"
  | .int n => n.repr
  | .decimal text => text
  | .str s => scalar s
  | .arr [] => "[]"
  | .arr (item :: items) =>
    ("\n" ++ Json.indent level).intercalate (renderItems level (item :: items))
  | .obj [] => "\x7b\x7d"
  | .obj (field :: fields) =>
    ("\n" ++ Json.indent level).intercalate (renderFields level (field :: fields))
  | .unreadable => Json.outOfRange

/-- The texts of the items of a list. -/
def renderItems (level : Nat) : List Json → List String
  | [] => []
  | j :: js => ("- " ++ renderAt (level + 1) j) :: renderItems level js

/-- The texts of the fields of a mapping. -/
def renderFields (level : Nat) : List (String × Json) → List String
  | [] => []
  | (name, j) :: fs =>
    (scalar name ++ ":" ++ fieldGap level j ++ renderAt (level + 1) j) :: renderFields level fs

end

/-- The document of a value. -/
def render (j : Json) : String :=
  "---\n" ++ renderAt 0 j ++ "\n"

end Backend386.Yaml
