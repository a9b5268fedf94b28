import Mathlib.Data.List.Basic
import Backend386.I386.Listing

/-!
# Strings reach the assembler unchanged

The assembler reads the characters between the quotes one at a time: a backslash takes what follows
it as an escape, and an octal escape takes as many digits as it finds, but no more than three. All
octal escapes that are written have three digits, so that a digit that follows one is never taken
for a part of it.

* `AssemblerString.Reader.step` — one character of a string;
* `AssemblerString.decode?`, `AssemblerString.assembled?` — the bytes of a string, and those that a
  directive puts into the data;
* `AssemblerString.Paired` — texts that stay between the quotes that are put around them;
* `AssemblerString.strings_assembled` — every text is read as its bytes.
-/

namespace Backend386.AssemblerString

/-! ## Reading a string -/

/-- Where the assembler is in a string. -/
inductive Place where
  | plain
  /-- behind a backslash -/
  | backslash
  /-- behind some digits of an octal escape, fewer than three -/
  | octal (digits value : Nat)
  /-- behind the closing quote -/
  | closed
deriving DecidableEq

/-- A string as far as it has been read. -/
structure Reader where
  place : Place := .plain
  bytes : List UInt8 := []
deriving DecidableEq

/-- The byte that a short escape stands for. -/
def shortEscape? (c : Char) : Option UInt8 :=
  if c = '"' then some 0x22
  else if c = '\\' then some 0x5c
  else if c = 'n' then some 0x0a
  else if c = 't' then some 0x09
  else none

/-- The value of an octal digit. -/
def octalValue? (c : Char) : Option Nat :=
  if '0' ≤ c ∧ c ≤ '7' then some (c.toNat - '0'.toNat) else none

namespace Reader

/-- Adds bytes, outside of escapes. -/
def push (r : Reader) (bs : List UInt8) : Reader :=
  { place := .plain, bytes := r.bytes ++ bs }

/-- A character outside of escapes: the text is a file of UTF-8. -/
def start (r : Reader) (c : Char) : Reader :=
  if c = '"' then { r with place := .closed }
  else if c = '\\' then { r with place := .backslash }
  else r.push (String.utf8EncodeChar c)

/-- One character. -/
def step (r : Reader) (c : Char) : Option Reader :=
  match r.place with
  | .plain => some (r.start c)
  | .backslash =>
    match shortEscape? c with
    | some b => some (r.push [b])
    | none => (octalValue? c).map fun d => { r with place := .octal 1 d }
  | .octal digits value =>
    match octalValue? c with
    | some d =>
      if digits < 2 then some { r with place := .octal (digits + 1) (8 * value + d) }
      else some (r.push [UInt8.ofNat (8 * value + d)])
    | none => some ((r.push [UInt8.ofNat value]).start c)
  | .closed => none

/-- The bytes at the end of a text that was put between quotes. -/
def finish (r : Reader) : Option (List UInt8) :=
  match r.place with
  | .plain => some r.bytes
  | .octal _ value => some (r.bytes ++ [UInt8.ofNat value])
  | .backslash | .closed => none

end Reader

/-- The bytes that a text between quotes stands for. -/
def decode? (text : List Char) : Option (List UInt8) :=
  (text.foldlM Reader.step {}).bind Reader.finish

/-- The bytes that a string directive puts into the data: those of the string, which ends the line,
and a zero. -/
def assembled? (line : List Char) : Option (List UInt8) :=
  match ".string\t\"".toList.isPrefixOf? line with
  | none => none
  | some text =>
    match text.foldlM Reader.step {} with
    | some { place := .closed, bytes } => some (bytes ++ [0])
    | _ => none

/-- Every backslash has a character behind it, and every quote a backslash in front of it that is
not taken by another one. -/
inductive Paired : List Char → Prop where
  | nil : Paired []
  | plain {c : Char} {cs : List Char} (hquote : c ≠ '"') (hslash : c ≠ '\\') (h : Paired cs) :
    Paired (c :: cs)
  | escape {c : Char} {cs : List Char} (h : Paired cs) : Paired ('\\' :: c :: cs)

theorem Paired.append {a b : List Char} (ha : Paired a) (hb : Paired b) : Paired (a ++ b) := by
  induction ha with
  | nil => exact hb
  | plain hquote hslash _ ih => exact .plain hquote hslash ih
  | escape _ ih => exact .escape ih

/-! ## One byte -/

theorem octalValue?_octalDigit (n : Nat) : octalValue? (octalDigit n) = some (n % 8) := by
  have hdigits : ∀ d < 8, octalValue? (Char.ofNat ('0'.toNat + d)) = some d := by decide
  exact hdigits (n % 8) (Nat.mod_lt n (by decide))

/-- Octal digits are no short escapes, quotes or backslashes. -/
theorem octalDigit_ne (n : Nat) :
    shortEscape? (octalDigit n) = none ∧ octalDigit n ≠ '"' ∧ octalDigit n ≠ '\\' := by
  have hdigits : ∀ d < 8, shortEscape? (Char.ofNat ('0'.toNat + d)) = none ∧
      Char.ofNat ('0'.toNat + d) ≠ '"' ∧ Char.ofNat ('0'.toNat + d) ≠ '\\' := by decide
  exact hdigits (n % 8) (Nat.mod_lt n (by decide))

theorem octalDigit_printable (n : Nat) :
    0x20 ≤ (octalDigit n).toNat ∧ (octalDigit n).toNat ≤ 0x7e := by
  have hdigits : ∀ d < 8, 0x20 ≤ (Char.ofNat ('0'.toNat + d)).toNat ∧
      (Char.ofNat ('0'.toNat + d)).toNat ≤ 0x7e := by decide
  exact hdigits (n % 8) (Nat.mod_lt n (by decide))

/-- The forms of a byte: a short escape, a printable character that stands for itself, or an octal
escape of three digits. -/
theorem escapeByte_cases (b : UInt8) :
    (∃ c, escapeByte b = ['\\', c] ∧ shortEscape? c = some b ∧ 0x20 ≤ c.toNat ∧ c.toNat ≤ 0x7e) ∨
    (∃ c : Char, escapeByte b = [c] ∧ c ≠ '"' ∧ c ≠ '\\' ∧ c.toNat = b.toNat ∧ 0x20 ≤ c.toNat ∧
      c.toNat ≤ 0x7e) ∨
    escapeByte b =
      ['\\', octalDigit (b.toNat / 64), octalDigit (b.toNat / 8), octalDigit b.toNat] := by
  have hof {n : Nat} (h : b.toNat = n) : b = UInt8.ofNat n := by simp [← h]
  rw [escapeByte]
  by_cases hquote : b.toNat = 0x22
  -- a quote and a backslash have escapes of their own
  · rw [if_pos hquote]
    exact .inl ⟨'"', rfl, by rw [hof hquote]; rfl, by decide⟩
  by_cases hslash : b.toNat = 0x5c
  · rw [if_neg hquote, if_pos hslash]
    exact .inl ⟨'\\', rfl, by rw [hof hslash]; rfl, by decide⟩
  rw [if_neg hquote, if_neg hslash]
  -- so have line feeds and tabs; what is printable stays, and the rest is octal
  split
  · next h => exact .inl ⟨'n', rfl, by rw [hof h]; rfl, by decide⟩
  split
  · next h => exact .inl ⟨'t', rfl, by rw [hof h]; rfl, by decide⟩
  split
  · next hrange =>
    have hnat : (Char.ofNat b.toNat).toNat = b.toNat := by
      rw [Char.ofNat, dif_pos (.inl (by omega))]
      rfl
    refine .inr (.inl ⟨_, rfl, ?_, ?_, hnat, by omega⟩)
    · intro h
      exact hquote (hnat ▸ congrArg Char.toNat h)
    · intro h
      exact hslash (hnat ▸ congrArg Char.toNat h)
  · exact .inr (.inr rfl)

/-- However a byte is written, no character of it has to be escaped again. -/
theorem printable_escapeByte (b : UInt8) :
    ∀ c ∈ escapeByte b, 0x20 ≤ c.toNat ∧ c.toNat ≤ 0x7e := by
  rcases escapeByte_cases b with ⟨c, h, -, hc⟩ | ⟨c, h, -, -, -, hc⟩ | h
  · rw [h]
    exact List.forall_mem_cons.2 ⟨by decide, List.forall_mem_singleton.2 hc⟩
  · rw [h]
    exact List.forall_mem_singleton.2 hc
  · rw [h]
    simp [octalDigit_printable]

/-- A quote or a backslash never stands alone. -/
theorem paired_escapeByte (b : UInt8) : Paired (escapeByte b) := by
  have hdigit (n : Nat) {cs : List Char} (h : Paired cs) : Paired (octalDigit n :: cs) :=
    .plain (octalDigit_ne n).2.1 (octalDigit_ne n).2.2 h
  rcases escapeByte_cases b with ⟨c, h, -⟩ | ⟨c, h, hquote, hslash, -⟩ | h
  · exact h ▸ .escape .nil
  · exact h ▸ .plain hquote hslash .nil
  · exact h ▸ .escape (hdigit _ (hdigit _ .nil))

/-- A byte is read from its form, and the reader is outside of escapes again. -/
theorem foldlM_escapeByte (b : UInt8) (bs : List UInt8) :
    (escapeByte b).foldlM Reader.step { bytes := bs } = some { bytes := bs ++ [b] } := by
  rcases escapeByte_cases b with ⟨c, h, hc, -⟩ | ⟨c, h, hquote, hslash, hnat, hlow, hhigh⟩ | h
  · rw [h]
    simp [Reader.step, Reader.start, Reader.push, hc]
  · have hutf : String.utf8EncodeChar c = [b] := by
      have hval : c.val.toNat = b.toNat := hnat
      rw [String.utf8EncodeChar.eq_1, hval, if_pos (by omega), UInt8.ofNat_toNat]
    rw [h]
    simp [Reader.step, Reader.start, Reader.push, hquote, hslash, hutf]
  · have hvalue : 8 * (8 * (b.toNat / 64 % 8) + b.toNat / 8 % 8) + b.toNat % 8 = b.toNat := by
      have := b.toNat_lt
      omega
    have hlast :
        UInt8.ofNat (8 * (8 * (b.toNat / 64 % 8) + b.toNat / 8 % 8) + b.toNat % 8) = b := by
      rw [hvalue, UInt8.ofNat_toNat]
    rw [h]
    simp [-UInt8.ofNat_add, -UInt8.ofNat_mul, Reader.step, Reader.start, Reader.push, octalDigit_ne,
      octalValue?_octalDigit, hlast]

/-! ## Texts -/

theorem toList_escape (s : String) : (escape s).toList = (bytes s).flatMap escapeByte :=
  String.toList_ofList

/-- Bytes are read back one after another. -/
theorem foldlM_escapeBytes (bs before : List UInt8) :
    (bs.flatMap escapeByte).foldlM Reader.step { bytes := before } =
      some { bytes := before ++ bs } := by
  induction bs generalizing before with
  | nil => simp
  | cons b bs ih =>
    rw [List.flatMap_cons, List.foldlM_append, foldlM_escapeByte]
    simpa using ih (before ++ [b])

theorem decode?_escape (s : String) : decode? (escape s).toList = some (bytes s) := by
  rw [decode?, toList_escape]
  simp [foldlM_escapeBytes, Reader.finish]

theorem paired_escape (s : String) : Paired (escape s).toList := by
  rw [toList_escape]
  induction bytes s with
  | nil => exact .nil
  | cons b bs ih => exact (paired_escapeByte b).append ih

/-- The text of a string consists of printable characters. -/
theorem printable_escape (s : String) :
    ∀ c ∈ (escape s).toList, 0x20 ≤ c.toNat ∧ c.toNat ≤ 0x7e := by
  intro c hc
  rw [toList_escape] at hc
  obtain ⟨b, -, hc⟩ := List.mem_flatMap.1 hc
  exact printable_escapeByte b c hc

/-- Behind the text, the quote of the directive is the first one that closes the string. -/
theorem assembled?_render (s : String) :
    assembled? (Directive.string s).render.toList = some (bytes s ++ [0]) := by
  have hline : (Directive.string s).render.toList =
      ".string\t\"".toList ++ ((escape s).toList ++ ['"']) := by
    change (".string\t\"" ++ escape s ++ "\"").toList = _
    rw [String.toList_append, String.toList_append, List.append_assoc]
    rfl
  have hread : ((escape s).toList ++ ['"']).foldlM Reader.step {} =
      some { place := .closed, bytes := bytes s } := by
    rw [List.foldlM_append, toList_escape, foldlM_escapeBytes]
    rfl
  simp only [assembled?, List.isPrefixOf?_eq_some_iff_append_eq.2 hline.symm, hread]

theorem bytes_injective : Function.Injective bytes := by
  intro s s' h
  refine String.toByteArray_inj.1 (ByteArray.ext (Array.ext' ?_))
  exact h

theorem escape_injective : Function.Injective escape := by
  intro s s' h
  have hdecoded := decode?_escape s
  rw [h, decode?_escape] at hdecoded
  exact bytes_injective (Option.some.inj hdecoded).symm

theorem length_bytes (s : String) : (bytes s).length = s.utf8ByteSize := rfl

/-- Every text is written in printable ASCII that stays between the quotes put around it, and is
read as its UTF-8 bytes. So different texts are written differently, and the directive of a text
puts its bytes and a zero into the data. -/
theorem strings_assembled :
    (∀ s : String,
      (∀ c ∈ (escape s).toList, 0x20 ≤ c.toNat ∧ c.toNat ≤ 0x7e) ∧
      Paired (escape s).toList ∧
      decode? (escape s).toList = some (bytes s) ∧
      assembled? (Directive.string s).render.toList = some (bytes s ++ [0]) ∧
      (bytes s ++ [0]).length = s.utf8ByteSize + 1) ∧
    Function.Injective escape :=
  ⟨fun s => ⟨printable_escape s, paired_escape s, decode?_escape s, assembled?_render s, by
    rw [List.length_append, length_bytes, List.length_singleton]⟩, escape_injective⟩

/-- A digit behind an escaped byte stays a digit. -/
example : decode? (escape "é\x017\"\\").toList = some [0xc3, 0xa9, 0x01, 0x37, 0x22, 0x5c] := by
  cbv

end Backend386.AssemblerString
