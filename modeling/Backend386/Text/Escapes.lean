import Backend386.Text.Invisible

/-!
# Text between double quotes

Fault messages and listings show text between double quotes, each with escapes of its own.

* `Quoted.render` — a piece of text in a message;
* `AssemblerString.escapeByte` — the form of one byte for the assembler;
* `AssemblerString.escape` — the form of a text, byte by byte of its UTF-8 encoding.
-/

namespace Backend386

/-! ## Messages

Quotes, backslashes, line ends, tabs and NUL have short escapes; every other character that cannot
be shown is written as its code point in hexadecimal. -/

namespace Quoted

/-- A character that stands for itself between quotes. -/
def isShown (c : Char) : Bool :=
  0x20 ≤ c.toNat && c.toNat ≠ 0x7f && !isInvisible c

/-- The quoted form of one character. -/
def escape (c : Char) : String :=
  if c = '"' then "\\\""
  else if c = '\\' then "\\\\"
  else if c = '\n' then "\\n"
  else if c = '\t' then "\\t"
  else if c = '\r' then "\\r"
  else if c.toNat = 0 then "\\0"
  else if isShown c then c.toString
  else "\\u\x7b" ++ String.ofList (Nat.toDigits 16 c.toNat) ++ "\x7d"

/-- The text between double quotes. -/
def render (s : String) : String :=
  "\"" ++ String.join (s.toList.map escape) ++ "\""

end Quoted

/-! ## String literals of the assembler

The assembler reads a string between double quotes as bytes. Printable ASCII stands for itself,
apart from the quote and the backslash; line feed and tab have short escapes; every other byte is a
backslash and exactly three octal digits, so that a digit that follows is not taken for part of the
escape. -/

namespace AssemblerString

/-- The octal digit of `n`. -/
def octalDigit (n : Nat) : Char :=
  Char.ofNat ('0'.toNat + n % 8)

/-- The form of one byte. -/
def escapeByte (b : UInt8) : List Char :=
  let n := b.toNat
  if n = 0x22 then ['\\', '"']
  else if n = 0x5c then ['\\', '\\']
  else if n = 0x0a then ['\\', 'n']
  else if n = 0x09 then ['\\', 't']
  else if 0x20 ≤ n ∧ n ≤ 0x7e then [Char.ofNat n]
  else ['\\', octalDigit (n / 64), octalDigit (n / 8), octalDigit n]

/-- The UTF-8 bytes of a text. -/
def bytes (s : String) : List UInt8 :=
  s.toUTF8.data.toList

/-- The form of a text. -/
def escape (s : String) : String :=
  String.ofList ((bytes s).flatMap escapeByte)

end AssemblerString

end Backend386
