import Backend386.Text.Json

/-!
# Tokens of JSON text

A text is scanned one character at a time; the scanner remembers what it is inside of and the
tokens it has found.

* `Json.Scaled` — numbers that are no integers of 64 bits;
* `Json.Token` — the tokens;
* `Json.Letters` — a string as far as it has been scanned;
* `Json.Scanner.step` — one character;
* `Json.scan?` — the tokens of a text, or `none` if it is not made of tokens.
-/

namespace Backend386.Json

/-! ## The range of numbers

A number that is not an integer of 64 bits is held as a significand and a power of ten, and its
value is their product in double precision. The significand has 64 bits: digits that do not fit any
more are dropped. -/

/-- The value of a decimal digit. -/
def digitValue (c : Char) : Nat :=
  c.toNat - '0'.toNat

/-- `n` rounded to its first `bits` binary digits; a half goes to the even neighbour. -/
def roundToBits (bits n : Nat) : Nat :=
  let unit := Nat.pow 2 (n.log2 + 1 - bits)
  let quotient := n / unit
  let remainder := n % unit
  if 2 * remainder < unit ∨ (2 * remainder = unit ∧ quotient % 2 = 0) then quotient * unit
  else (quotient + 1) * unit

/-- `n` in double precision, if it is not too large for it. -/
def roundToDouble (n : Nat) : Nat :=
  roundToBits 53 n

/-- The middle between the largest double and the next power of two; from here on numbers are
rounded to infinity. -/
def infinityBound : Nat :=
  Nat.pow 2 1024 - Nat.pow 2 970

/-- The number `significand * 10 ^ exponent`. -/
structure Scaled where
  significand : Nat
  exponent : Int
deriving DecidableEq, Inhabited, Repr

namespace Scaled

/-- Takes digits into a significand as long as it fits in 64 bits, and counts them. -/
def absorb (significand count : Nat) : List Char → Nat × Nat
  | [] => (significand, count)
  | c :: cs =>
    let next := 10 * significand + digitValue c
    if next < UInt64.size then absorb next (count + 1) cs else (significand, count)

/-- The number with the given digits before and after the point, and the given exponent. The first
digit that does not fit ends the whole part; the digits after the point go on from there. -/
def ofDigits (whole fraction : List Char) (exponent : Int) : Scaled :=
  let (front, used) := absorb 0 0 whole
  let (significand, places) := absorb front 0 fraction
  { significand, exponent := exponent + (whole.length - used : Nat) - places }

/-- Whether the product of the significand and the power of ten, both in double precision, is
finite in double precision. Powers of ten from the 309th on are too large for it themselves. -/
def isFinite (x : Scaled) : Bool :=
  x.significand = 0 || x.exponent < 0 ||
    (x.exponent ≤ 308 &&
      roundToDouble x.significand * roundToDouble (Nat.pow 10 x.exponent.toNat) < infinityBound)

end Scaled

/-- A piece of JSON text. -/
inductive Token where
  | openBrace
  | closeBrace
  | openBracket
  | closeBracket
  | comma
  | colon
  /-- null, true or false, or a number -/
  | scalar (value : Json)
  /-- a string; `none` if half of a surrogate pair stands alone in it -/
  | text (s : Option String)
deriving Inhabited

/-! ## Numbers -/

/-- The number that decimal digits write. -/
def ofDigits (digits : List Char) : Nat :=
  digits.foldl (fun n c => 10 * n + digitValue c) 0

/-- Digits, with at least one of them and none in front of which a zero is superfluous. -/
def isWholePart (digits : List Char) : Bool :=
  match digits with
  | [] => false
  | ['0'] => true
  | c :: _ => c ≠ '0'

/-- Splits the digits off the front. -/
def spanDigits (cs : List Char) : List Char × List Char :=
  (cs.takeWhile Char.isDigit, cs.dropWhile Char.isDigit)

/-- The exponent of a number: absent, or a mark, an optional sign and digits. -/
def exponent? : List Char → Option Int
  | [] => some 0
  | c :: cs =>
    if c = 'e' ∨ c = 'E' then
      let (negative, cs) := match cs with
        | '-' :: cs => (true, cs)
        | '+' :: cs => (false, cs)
        | cs => (false, cs)
      if cs.isEmpty ∨ !cs.all Char.isDigit then none
      else some (if negative then -(ofDigits cs : Int) else ofDigits cs)
    else none

/-- The value of a number without a sign in front. Digits alone are an integer if they fit in 64
bits; minus zero is not an integer. Any other number has to be in range to be readable. -/
def unsignedNumber? (negative : Bool) (cs : List Char) : Option Json :=
  let (whole, rest) := spanDigits cs
  let written := String.ofList (if negative then '-' :: cs else cs)
  let decimal (fraction rest : List Char) : Option Json :=
    (exponent? rest).map fun e =>
      if (Scaled.ofDigits whole fraction e).isFinite then .decimal written else .unreadable
  -- no zeros stand in front of the whole part
  if !isWholePart whole then none
  else
    match rest with
    | [] =>
      let n := ofDigits whole
      -- a whole number that does not fit is read as one with a fraction
      if negative then
        if 0 < n ∧ n ≤ UInt64.size / 2 then some (.int (-(n : Int))) else decimal [] []
      else if n < UInt64.size then some (.int n) else decimal [] []
    | '.' :: rest =>
      let (fraction, rest) := spanDigits rest
      if fraction.isEmpty then none else decimal fraction rest
    | rest => decimal [] rest

/-- The value of a number. -/
def number? : List Char → Option Json
  | '-' :: cs => unsignedNumber? true cs
  | cs => unsignedNumber? false cs

/-- Whether a character can stand in a number. -/
def isNumberChar (c : Char) : Bool :=
  c.isDigit || c = '-' || c = '+' || c = '.' || c = 'e' || c = 'E'

/-! ## Words and strings -/

/-- The value of a word. -/
def word? (letters : List Char) : Option Json :=
  if letters = "null".toList then some .null
  else if letters = "true".toList then some (.bool true)
  else if letters = "false".toList then some (.bool false)
  else none

/-- The value of a hexadecimal digit. -/
def hexDigit? (c : Char) : Option Nat :=
  if c.isDigit then some (digitValue c)
  else if 'a' ≤ c ∧ c ≤ 'f' then some (c.toNat - 'a'.toNat + 10)
  else if 'A' ≤ c ∧ c ≤ 'F' then some (c.toNat - 'A'.toNat + 10)
  else none

/-- The character that a short escape stands for. -/
def shortEscape? (c : Char) : Option Char :=
  if c = '"' ∨ c = '\\' ∨ c = '/' then some c
  else if c = 'b' then some '\x08'
  else if c = 'f' then some '\x0c'
  else if c = 'n' then some '\n'
  else if c = 'r' then some '\r'
  else if c = 't' then some '\t'
  else none

/-- The white space between tokens. -/
def isBlank (c : Char) : Bool :=
  c = ' ' || c = '\n' || c = '\t' || c = '\r'

/-- A string as far as it has been scanned. -/
structure Letters where
  /-- the characters, last first; `none` if half of a surrogate pair stands alone among them -/
  chars : Option (List Char) := some []
  /-- the first half of a surrogate pair that waits for the second -/
  high : Option Nat := none
deriving Inhabited

namespace Letters

/-- A string with half of a surrogate pair. -/
def broken : Letters := { chars := none }

/-- A character. -/
def push (t : Letters) (c : Char) : Letters :=
  if t.high.isSome then broken else { chars := t.chars.map (c :: ·) }

/-- The value of a four digit escape: a character, or one half of a surrogate pair. -/
def pushUnit (t : Letters) (value : Nat) : Letters :=
  let isHigh := 0xd800 ≤ value ∧ value < 0xdc00
  let isLow := 0xdc00 ≤ value ∧ value < 0xe000
  match t.high with
  | some high =>
    -- a high half is followed by its low half, or the text is broken
    if isLow then
      let c := Char.ofNat (0x10000 + (high - 0xd800) * 0x400 + (value - 0xdc00))
      { chars := t.chars.map (c :: ·) }
    else broken
  | none =>
    if isHigh then { t with high := some value }
    else if isLow then broken
    else t.push (Char.ofNat value)

/-- The string, at its end. -/
def finish (t : Letters) : Option String :=
  if t.high.isSome then none else t.chars.map fun cs => String.ofList cs.reverse

end Letters

/-! ## The scanner -/

/-- What the scanner is inside of. Characters read so far are kept last first. -/
inductive Mode where
  | between
  | word (letters : List Char)
  | number (chars : List Char)
  | text (letters : Letters)
  /-- after a backslash in a string -/
  | escape (letters : Letters)
  /-- inside of a four digit escape, with the value and the number of the digits so far -/
  | unit (letters : Letters) (value count : Nat)
deriving Inhabited

/-- The state of the scanner: what it is inside of, and the tokens found, last first. -/
structure Scanner where
  mode : Mode := .between
  tokens : List Token := []
deriving Inhabited

namespace Scanner

/-- Adds a token. -/
def found (s : Scanner) (t : Token) : Scanner :=
  { mode := .between, tokens := t :: s.tokens }

/-- Ends a word or a number. -/
def flush (s : Scanner) : Option Scanner :=
  match s.mode with
  | .word letters => (word? letters.reverse).map fun v => s.found (.scalar v)
  | .number chars => (number? chars.reverse).map fun v => s.found (.scalar v)
  | _ => some s

/-- A character between tokens. -/
def start (s : Scanner) (c : Char) : Option Scanner :=
  if isBlank c then some s
  else if c = '\x7b' then some (s.found .openBrace)
  else if c = '\x7d' then some (s.found .closeBrace)
  else if c = '[' then some (s.found .openBracket)
  else if c = ']' then some (s.found .closeBracket)
  else if c = ',' then some (s.found .comma)
  else if c = ':' then some (s.found .colon)
  else if c = '"' then some { s with mode := .text {} }
  else if c.isLower then some { s with mode := .word [c] }
  else if c.isDigit ∨ c = '-' then some { s with mode := .number [c] }
  else none

/-- One character. -/
def step (s : Scanner) (c : Char) : Option Scanner :=
  match s.mode with
  | .between => s.start c
  | .word letters =>
    -- a word and a number end at the first character that is not theirs, which is then read again
    if c.isLower then some { s with mode := .word (c :: letters) }
    else s.flush.bind (·.start c)
  | .number chars =>
    if isNumberChar c then some { s with mode := .number (c :: chars) }
    else s.flush.bind (·.start c)
  | .text letters =>
    if c = '\\' then some { s with mode := .escape letters }
    else if c.toNat < 0x20 then none
    -- the text is broken when a high half is left at its end
    else if c = '"' then some (s.found (.text letters.finish))
    else some { s with mode := .text (letters.push c) }
  | .escape letters =>
    if c = 'u' then some { s with mode := .unit letters 0 0 }
    else (shortEscape? c).map fun d => { s with mode := .text (letters.push d) }
  | .unit letters value count =>
    (hexDigit? c).map fun d =>
      let value := 16 * value + d
      -- four digits are one unit of a character
      if count < 3 then { s with mode := .unit letters value (count + 1) }
      else { s with mode := .text (letters.pushUnit value) }

/-- The tokens at the end of a text, first to last. -/
def finish (s : Scanner) : Option (List Token) :=
  match s.flush with
  | some { mode := .between, tokens } => some tokens.reverse
  | _ => none

end Scanner

/-- The tokens of a text. -/
def scan? (text : List Char) : Option (List Token) :=
  (text.foldlM Scanner.step {}).bind Scanner.finish

end Backend386.Json
