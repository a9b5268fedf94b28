import Mathlib.Data.List.Forall2
import Mathlib.Data.List.TakeWhile
import Backend386.Text.Json.Printer
import Backend386.Text.Json.Token

/-!
# Scanning what was printed

The text that is printed for a value is scanned into the tokens of the value. A word or a number is
a token only when something else follows it, so that what a piece of text leaves behind depends on
whether it ends in one.

* `Json.reread`, `Json.tokens` — what becomes of a value, and its tokens;
* `Json.number?_repr` — every integer is printed as a number;
* `Json.Scans`, `Json.ScansTo` — a piece of text is scanned into tokens, the last one of which may
  still be open;
* `Json.scans_renderAt`, `Json.scan?_render` — the text of a value is scanned into its tokens.
-/

namespace Backend386.Json

/-! ## Values and their tokens -/

mutual

/-- A value as it is read again: an integer that does not fit in 64 bits is not read as one. -/
def reread : Json → Json
  | int n => (number? n.repr.toList).getD null
  | arr items => arr (rereadItems items)
  | obj fields => obj (rereadFields fields)
  | null => null
  | bool b => bool b
  | decimal text => decimal text
  | str s => str s
  | unreadable => unreadable

/-- The items of an array, read again. -/
def rereadItems : List Json → List Json
  | [] => []
  | j :: js => reread j :: rereadItems js

/-- The fields of an object, read again. -/
def rereadFields : List (String × Json) → List (String × Json)
  | [] => []
  | (name, j) :: fs => (name, reread j) :: rereadFields fs

end

mutual

/-- The tokens of a value. -/
def tokens : Json → List Token
  | arr items => .openBracket :: ([.comma].intercalate (itemTokens items) ++ [.closeBracket])
  | obj fields => .openBrace :: ([.comma].intercalate (fieldTokens fields) ++ [.closeBrace])
  | str s => [.text (some s)]
  | null => [.scalar null]
  | bool b => [.scalar (bool b)]
  | int n => [.scalar (reread (int n))]
  | decimal text => [.scalar (decimal text)]
  | unreadable => [.scalar unreadable]

/-- The tokens of each item of an array. -/
def itemTokens : List Json → List (List Token)
  | [] => []
  | j :: js => tokens j :: itemTokens js

/-- The tokens of each field of an object. -/
def fieldTokens : List (String × Json) → List (List Token)
  | [] => []
  | (name, j) :: fs => (.text (some name) :: .colon :: tokens j) :: fieldTokens fs

end

mutual

/-- No number in a value is anything but an integer. -/
def isWhole : Json → Bool
  | arr items => areWhole items
  | obj fields => areFieldsWhole fields
  | decimal _ => false
  | null | bool _ | int _ | str _ | unreadable => true

/-- No number in a list is anything but an integer. -/
def areWhole : List Json → Bool
  | [] => true
  | j :: js => isWhole j && areWhole js

/-- No number in a list of fields is anything but an integer. -/
def areFieldsWhole : List (String × Json) → Bool
  | [] => true
  | (_, j) :: fs => isWhole j && areFieldsWhole fs

end

/-! ## Numbers -/

theorem ofDigits_toDigits (n : Nat) : ofDigits (Nat.toDigits 10 n) = n :=
  Nat.ofDigitChars_ten_toDigits

theorem isDigit_toDigits {n : Nat} : ∀ c ∈ Nat.toDigits 10 n, c.isDigit = true :=
  fun _ hc => Nat.isDigit_of_mem_toDigits (by decide) (by decide) hc

/-- A positive number does not begin with a zero. -/
theorem toDigits_head {n : Nat} (h : 0 < n) : ∃ c cs, Nat.toDigits 10 n = c :: cs ∧ c ≠ '0' := by
  induction n using Nat.strongRecOn with
  | ind n ih =>
    rw [Nat.toDigits_eq_if (by decide)]
    split
    · next hlt =>
      refine ⟨n.digitChar, [], rfl, ?_⟩
      have hdigits : ∀ d < 10, 0 < d → d.digitChar ≠ '0' := by decide
      exact hdigits n hlt h
    · next hle =>
      obtain ⟨c, cs, hcs, hc⟩ := ih (n / 10) (by omega) (by omega)
      exact ⟨c, cs ++ [(n % 10).digitChar], by rw [hcs, List.cons_append], hc⟩

/-- Digits are a whole number. -/
theorem isWholePart_toDigits (n : Nat) : isWholePart (Nat.toDigits 10 n) = true := by
  obtain rfl | h := Nat.eq_zero_or_pos n
  · rfl
  · obtain ⟨c, cs, hcs, hc⟩ := toDigits_head h
    rw [hcs]
    unfold isWholePart
    split <;> simp_all

theorem spanDigits_of_digits {cs : List Char} (h : ∀ c ∈ cs, c.isDigit = true) :
    spanDigits cs = (cs, []) := by
  rw [spanDigits, List.takeWhile_eq_self_iff.2 h, List.dropWhile_eq_nil_iff.2 h]

/-- Digits are a number, and an integer if it is in range. -/
theorem unsignedNumber?_toDigits (negative : Bool) (n : Nat) :
    ∃ v, unsignedNumber? negative (Nat.toDigits 10 n) = some v ∧
      ((if negative then 0 < n ∧ n ≤ UInt64.size / 2 else n < UInt64.size) →
        v = .int (if negative then -(n : Int) else n)) := by
  rw [unsignedNumber?, spanDigits_of_digits isDigit_toDigits]
  simp only [isWholePart_toDigits, ofDigits_toDigits, Bool.not_true, Bool.false_eq_true, if_false]
  cases negative with
  | true =>
    simp only [if_true]
    split
    · next h => exact ⟨_, rfl, fun _ => rfl⟩
    · next h => exact ⟨_, rfl, fun h' => absurd h' h⟩
  | false =>
    simp only [Bool.false_eq_true, if_false]
    split
    · next h => exact ⟨_, rfl, fun _ => rfl⟩
    · next h => exact ⟨_, rfl, fun h' => absurd h' h⟩

/-- The range of the integers that are read: those of 64 bits, signed or unsigned. -/
def InRange (n : Int) : Prop :=
  -(UInt64.size / 2 : Nat) ≤ n ∧ n < UInt64.size

/-- Every integer is printed as a number, and read as one if it is in range. -/
theorem number?_repr (n : Int) :
    number? n.repr.toList = some (reread (int n)) ∧ (InRange n → reread (int n) = int n) := by
  obtain ⟨v, hv, hrange⟩ : ∃ v, number? n.repr.toList = some v ∧ (InRange n → v = int n) := by
    -- the sign of an integer is read first
    cases n with
    | ofNat m =>
      obtain ⟨v, hv, hrange⟩ := unsignedNumber?_toDigits false m
      have htext : (Int.ofNat m).repr.toList = Nat.toDigits 10 m := String.toList_ofList
      refine ⟨v, ?_, fun h => hrange ?_⟩
      · rw [htext, number?]
        · exact hv
        -- a number without a sign does not begin with one
        · intro cs hcs
          have hdigit := isDigit_toDigits '-' (hcs ▸ List.mem_cons_self)
          cases hdigit
      · exact Int.ofNat_lt.1 h.2
    | negSucc m =>
      obtain ⟨v, hv, hrange⟩ := unsignedNumber?_toDigits true (m + 1)
      have htext : (Int.negSucc m).repr.toList = '-' :: Nat.toDigits 10 (m + 1) := by
        change ("-" ++ (m + 1).repr).toList = _
        rw [String.toList_append]
        exact congrArg ('-' :: ·) String.toList_ofList
      refine ⟨v, ?_, fun h => ?_⟩
      · rw [htext, number?]
        exact hv
      · rw [hrange ⟨Nat.succ_pos m, ?_⟩]
        · rfl
        · have hlow := h.1
          omega
  rw [reread, hv]
  exact ⟨rfl, hrange⟩

/-! ## The scanner -/

/-- The scanner has these tokens, last first, once a word or a number that it is in has ended. -/
def Scanner.Has (s : Scanner) (ts : List Token) : Prop :=
  s.flush = some { mode := .between, tokens := ts }

/-- A piece of text is scanned into tokens, and ends between tokens. -/
def ScansTo (cs : List Char) (ts : List Token) : Prop :=
  ∀ before, cs.foldlM Scanner.step { mode := .between, tokens := before } =
    some { mode := .between, tokens := ts.reverse ++ before }

/-- A piece of text is scanned into tokens, the last of which may be a word or a number that has not
ended. -/
def Scans (cs : List Char) (ts : List Token) : Prop :=
  ∀ before, ∃ s, cs.foldlM Scanner.step { mode := .between, tokens := before } = some s ∧
    s.Has (ts.reverse ++ before)

/-- A character that ends words and numbers. -/
def Ends (c : Char) : Prop :=
  c.isLower = false ∧ isNumberChar c = false

/-- A character behind a token starts the next one. -/
theorem Scanner.Has.step {s : Scanner} {ts : List Token} {c : Char} (h : s.Has ts) (hc : Ends c) :
    s.step c = Scanner.start { mode := .between, tokens := ts } c := by
  obtain ⟨mode, tokens⟩ := s
  unfold Has at h
  cases mode with
  | between =>
    obtain ⟨-, rfl⟩ := Scanner.mk.inj (Option.some.inj h)
    rfl
  | word letters =>
    simp only [Scanner.step, hc.1, Bool.false_eq_true, if_false, h, Option.bind_some]
  | number chars =>
    simp only [Scanner.step, hc.2, Bool.false_eq_true, if_false, h, Option.bind_some]
  | text | escape | unit => cases h

namespace ScansTo

variable {a b : List Char} {ts ts' : List Token}

theorem nil : ScansTo [] [] := fun _ => rfl

theorem append (h : ScansTo a ts) (h' : ScansTo b ts') : ScansTo (a ++ b) (ts ++ ts') := by
  intro before
  rw [List.foldlM_append, h before]
  simpa using h' (ts.reverse ++ before)

theorem scans (h : ScansTo a ts) : Scans a ts :=
  fun before => ⟨_, h before, rfl⟩

/-- A value behind what ends between tokens. -/
theorem then_scans (h : ScansTo a ts) (h' : Scans b ts') : Scans (a ++ b) (ts ++ ts') := by
  intro before
  obtain ⟨s, hs, hhas⟩ := h' (ts.reverse ++ before)
  refine ⟨s, ?_, by simpa using hhas⟩
  rw [List.foldlM_append, h before]
  exact hs

/-- Blanks are skipped. -/
theorem blanks {cs : List Char} (h : ∀ c ∈ cs, isBlank c = true) : ScansTo cs [] := by
  intro before
  induction cs with
  | nil => rfl
  | cons c cs ih =>
    obtain ⟨hc, hcs⟩ := List.forall_mem_cons.1 h
    rw [List.foldlM_cons]
    have hstep : Scanner.step { mode := .between, tokens := before } c =
        some { mode := .between, tokens := before } := if_pos hc
    rw [hstep]
    exact ih hcs

end ScansTo

/-- What ends a word or a number goes on between tokens. -/
theorem Scans.then_ends {a b : List Char} {ts ts' : List Token} {c : Char} (h : Scans a ts)
    (hc : Ends c) (h' : ScansTo (c :: b) ts') : ScansTo (a ++ c :: b) (ts ++ ts') := by
  intro before
  obtain ⟨s, hs, hhas⟩ := h before
  rw [List.foldlM_append, hs]
  have hrest := h' (ts.reverse ++ before)
  rw [List.reverse_append, List.append_assoc, ← hrest]
  change (c :: b).foldlM Scanner.step s = _
  rw [List.foldlM_cons, List.foldlM_cons, hhas.step hc]
  rfl

/-! ## Scalars -/

theorem ne_of_isDigit {c d : Char} (hc : c.isDigit = true) (hd : d.isDigit = false) : c ≠ d := by
  rintro rfl
  rw [hc] at hd
  cases hd

/-- A digit begins a number. -/
theorem start_of_isDigit {c : Char} {ts : List Token} (h : c.isDigit = true) :
    Scanner.start { mode := .between, tokens := ts } c =
      some { mode := .number [c], tokens := ts } := by
  have hlower : c.isLower = false := by
    simp only [Char.isDigit, Bool.and_eq_true, decide_eq_true_eq] at h
    refine Bool.and_eq_false_iff.2 (.inl (decide_eq_false fun hge => ?_))
    have hle : 'a'.val ≤ '9'.val := UInt32.le_trans hge h.2
    exact absurd hle (by decide)
  have hne {d : Char} (hd : d.isDigit = false) : c ≠ d := ne_of_isDigit h hd
  simp only [Scanner.start, isBlank, hne (d := ' ') rfl, hne (d := '\n') rfl, hne (d := '\t') rfl,
    hne (d := '\r') rfl, hne (d := '\x7b') rfl, hne (d := '\x7d') rfl, hne (d := '[') rfl,
    hne (d := ']') rfl, hne (d := ',') rfl, hne (d := ':') rfl, hne (d := '"') rfl, hlower, h,
    decide_false, Bool.or_self, Bool.false_eq_true, if_false, true_or, if_true]

/-- The characters of a number are collected. -/
theorem foldlM_number {cs acc : List Char} {ts : List Token} (h : ∀ c ∈ cs, isNumberChar c = true) :
    cs.foldlM Scanner.step { mode := .number acc, tokens := ts } =
      some { mode := .number (cs.reverse ++ acc), tokens := ts } := by
  induction cs generalizing acc with
  | nil => rfl
  | cons c cs ih =>
    obtain ⟨hc, hcs⟩ := List.forall_mem_cons.1 h
    have hstep : Scanner.step { mode := .number acc, tokens := ts } c =
        some { mode := .number (c :: acc), tokens := ts } := if_pos hc
    rw [List.foldlM_cons, hstep]
    simpa using ih hcs

/-- A number is one token. -/
theorem scans_number {c : Char} {cs : List Char} {v : Json} (hc : c.isDigit = true ∨ c = '-')
    (hcs : ∀ c ∈ cs, isNumberChar c = true) (hv : number? (c :: cs) = some v) :
    Scans (c :: cs) [.scalar v] := by
  intro before
  have hstart : Scanner.step { mode := .between, tokens := before } c =
      some { mode := .number [c], tokens := before } := by
    obtain hc | rfl := hc
    · exact start_of_isDigit hc
    · rfl
  refine ⟨{ mode := .number (cs.reverse ++ [c]), tokens := before }, ?_, ?_⟩
  · rw [List.foldlM_cons, hstart]
    exact foldlM_number hcs
  · have hreverse : (cs.reverse ++ [c]).reverse = c :: cs := by simp
    rw [Scanner.Has, Scanner.flush]
    simp only [hreverse, hv, Option.map_some]
    rfl

theorem isNumberChar_of_isDigit {c : Char} (h : c.isDigit = true) : isNumberChar c = true := by
  simp [isNumberChar, h]

/-- A number is scanned to the token that it is read back as. -/
theorem scans_int (n : Int) : Scans n.repr.toList [.scalar (reread (int n))] := by
  have hv := (number?_repr n).1
  have hdigits {m : Nat} : ∀ c ∈ Nat.toDigits 10 m, isNumberChar c = true :=
    fun c hc => isNumberChar_of_isDigit (isDigit_toDigits c hc)
  cases n with
  | ofNat m =>
    have htext : (Int.ofNat m).repr.toList = Nat.toDigits 10 m := String.toList_ofList
    obtain ⟨c, cs, hcs⟩ := List.exists_cons_of_ne_nil (Nat.toDigits_ne_nil (n := m) (b := 10))
    rw [htext, hcs] at hv ⊢
    have hall := hdigits (m := m)
    have hfirst := isDigit_toDigits (n := m) c (hcs ▸ List.mem_cons_self)
    rw [hcs] at hall
    exact scans_number (.inl hfirst) (List.forall_mem_cons.1 hall).2 hv
  | negSucc m =>
    have htext : (Int.negSucc m).repr.toList = '-' :: Nat.toDigits 10 (m + 1) := by
      change ("-" ++ (m + 1).repr).toList = _
      rw [String.toList_append]
      exact congrArg ('-' :: ·) String.toList_ofList
    rw [htext] at hv ⊢
    exact scans_number (.inr rfl) hdigits hv

/-! ## Strings -/

/-- The scanner inside of a string with these characters, last first. -/
def Scanner.inText (cs : List Char) (ts : List Token) : Scanner :=
  { mode := .text { chars := some cs }, tokens := ts }

theorem hexDigit?_hexDigit (n : Nat) : hexDigit? (hexDigit n) = some (n % 16) := by
  have hdigits : ∀ d < 16, hexDigit? (Nat.digitChar d) = some d := by decide
  exact hdigits (n % 16) (Nat.mod_lt n (by decide))

/-- A four digit escape stands for its character, if that is no half of a surrogate pair. -/
theorem foldlM_unitEscape {n : Nat} (h : n < 0xd800) (cs : List Char) (ts : List Token) :
    (unitEscape n).toList.foldlM Scanner.step (.inText cs ts) =
      some (.inText (Char.ofNat n :: cs) ts) := by
  have htext : (unitEscape n).toList =
      ['\\', 'u', hexDigit (n / 4096), hexDigit (n / 256), hexDigit (n / 16), hexDigit n] := by
    unfold unitEscape
    simp [String.toList_append]
  -- each digit is taken into the value, and the fourth one completes the character
  have hmore {value count : Nat} (m : Nat) (hcount : count < 3) :
      Scanner.step { mode := .unit { chars := some cs } value count, tokens := ts } (hexDigit m) =
        some { mode := .unit { chars := some cs } (16 * value + m % 16) (count + 1),
               tokens := ts } := by
    simp only [Scanner.step, hexDigit?_hexDigit, Option.map_some, hcount, if_true]
  have hlast {value : Nat} (m : Nat) :
      Scanner.step { mode := .unit { chars := some cs } value 3, tokens := ts } (hexDigit m) =
        some { mode := .text (Letters.pushUnit { chars := some cs } (16 * value + m % 16)),
               tokens := ts } := by
    simp only [Scanner.step, hexDigit?_hexDigit, Option.map_some, Nat.lt_irrefl, if_false]
  have hvalue : 16 * (16 * (16 * (16 * 0 + n / 4096 % 16) + n / 256 % 16) + n / 16 % 16) + n % 16 =
      n := by omega
  -- a number below the surrogates is a character of its own
  have hunit : Letters.pushUnit { chars := some cs } n =
    { chars := some (Char.ofNat n :: cs) } := by
    have hhigh : ¬(0xd800 ≤ n ∧ n < 0xdc00) := by omega
    have hlow : ¬(0xdc00 ≤ n ∧ n < 0xe000) := by omega
    simp only [Letters.pushUnit, hhigh, hlow, if_false]
    rfl
  rw [htext]
  change List.foldlM Scanner.step { mode := .unit { chars := some cs } 0 0, tokens := ts }
    [hexDigit (n / 4096), hexDigit (n / 256), hexDigit (n / 16), hexDigit n] = _
  simp only [List.foldlM_cons, List.foldlM_nil, hmore, hlast, Option.bind_eq_bind, Option.bind_some,
    Nat.zero_add, Nat.reduceAdd, Nat.reduceLT, hvalue, hunit]
  rfl

/-- A character is scanned as it was written. -/
theorem foldlM_escapeChar (c : Char) (cs : List Char) (ts : List Token) :
    (escapeChar c).toList.foldlM Scanner.step (.inText cs ts) = some (.inText (c :: cs) ts) := by
  by_cases hquote : c = '"'
  · exact hquote ▸ rfl
  by_cases hslash : c = '\\'
  · exact hslash ▸ rfl
  rw [escapeChar, if_neg hquote, if_neg hslash]
  iterate 5
    split
    · next h => exact h ▸ rfl
  split
  · next hcontrol =>
    have h := foldlM_unitEscape (n := c.toNat) (by omega) cs ts
    rwa [Char.ofNat_toNat] at h
  · next hplain =>
    have hstep : Scanner.step (.inText cs ts) c = some (.inText (c :: cs) ts) := by
      simp only [Scanner.step, Scanner.inText, hslash, hplain, hquote, if_false]
      rfl
    simp [Char.toString, hstep]

/-- Each character of a text is taken out of its escape. -/
theorem foldlM_escapeChars (s cs : List Char) (ts : List Token) :
    (s.map fun c => (escapeChar c).toList).flatten.foldlM Scanner.step (.inText cs ts) =
      some (.inText (s.reverse ++ cs) ts) := by
  induction s generalizing cs with
  | nil => rfl
  | cons c s ih =>
    rw [List.map_cons, List.flatten_cons, List.foldlM_append, foldlM_escapeChar]
    simpa using ih (c :: cs)

/-- A string is one token. -/
theorem scansTo_quote (s : String) : ScansTo (quote s).toList [.text (some s)] := by
  intro before
  have htext : (quote s).toList =
      '"' :: ((s.toList.map fun c => (escapeChar c).toList).flatten ++ ['"']) := by
    simp [quote, String.toList_join, List.flatMap_def, Function.comp_def]
  have hopen : Scanner.step { mode := .between, tokens := before } '"' = some (.inText [] before) :=
    rfl
  rw [htext, List.foldlM_cons, hopen]
  simp only [Option.bind_eq_bind, Option.bind_some, List.foldlM_append, foldlM_escapeChars]
  have hclose : Scanner.step (.inText (s.toList.reverse ++ []) before) '"' =
      some { mode := .between, tokens := .text (some s) :: before } := by
    simp [Scanner.step, Scanner.inText, Scanner.found, Letters.finish]
  rw [List.foldlM_cons, hclose]
  rfl

/-! ## Arrays and objects -/

/-- Indentation is skipped. -/
theorem scansTo_indent (level : Nat) : ScansTo (indent level).toList [] := by
  have htext (n : Nat) : ("".pushn ' ' n).toList = List.replicate n ' ' := by
    rw [String.pushn_eq_repeat_push]
    induction n with
    | zero => rfl
    | succ n ih => rw [Nat.repeat, String.toList_push, ih, List.replicate_succ']
  rw [indent, htext]
  refine .blanks fun c hc => ?_
  rw [List.eq_of_mem_replicate hc]
  rfl

theorem ends_comma : Ends ',' := ⟨rfl, rfl⟩

/-- Lines with commas in between are scanned line by line. -/
theorem scans_intercalate {lines : List (List Char)} {tss : List (List Token)}
    (h : List.Forall₂ Scans lines tss) : Scans (",\n".toList.intercalate lines)
      ([.comma].intercalate tss) := by
  induction h with
  | nil => exact ScansTo.nil.scans
  | @cons line ts lines tss hline hlines ih =>
    cases hlines with
    | nil => simpa using hline
    | cons hnext hrest =>
      rw [List.intercalate_cons_cons, List.intercalate_cons_cons]
      have hcomma : ScansTo [',', '\n'] [.comma] := fun _ => rfl
      exact (hline.then_ends ends_comma hcomma).then_scans ih

/-- Lines between an opening and a closing sign. -/
theorem scansTo_renderLines {opening closing : String} {first last : Token} {level : Nat}
    {lines : List String} {tss : List (List Token)} (hopening : ScansTo opening.toList [first])
    (hclosing : ScansTo closing.toList [last])
    (h : List.Forall₂ (fun line ts => Scans (String.toList line) ts) lines tss) :
    ScansTo (renderLines opening closing level lines).toList
      (first :: ([.comma].intercalate tss ++ [last])) := by
  unfold renderLines
  -- nothing stands between the brackets, or one line each, with blanks that are skipped
  split
  · next hempty =>
    obtain rfl := List.isEmpty_iff.1 hempty
    cases h
    simpa using hopening.append hclosing
  · have hlines : Scans (",\n".intercalate (lines.map (indent (level + 1) ++ ·))).toList
        ([.comma].intercalate tss) := by
      rw [String.toList_intercalate]
      refine scans_intercalate ?_
      rw [List.map_map, List.forall₂_map_left_iff]
      exact h.imp fun line ts hline => by
        rw [Function.comp_apply, String.toList_append]
        exact (scansTo_indent _).then_scans hline
    have hblank : ScansTo ['\n'] [] := fun _ => rfl
    have hrest : ScansTo ('\n' :: ((indent level).toList ++ closing.toList)) [last] :=
      hblank.append ((scansTo_indent level).append hclosing)
    have hall := ((hopening.append hblank).then_scans hlines).then_ends ⟨rfl, rfl⟩ hrest
    simpa using hall

mutual

/-- The text of a value is scanned into its tokens. -/
theorem scans_renderAt (level : Nat) :
    ∀ {j : Json}, j.isWhole = true → Scans (renderAt level j).toList j.tokens
  | null, _ | bool true, _ | bool false, _ | unreadable, _ => by
    rw [renderAt, tokens]
    exact fun before => ⟨_, rfl, rfl⟩
  | int n, _ => by
    rw [renderAt, tokens]
    exact scans_int n
  | str s, _ => by
    rw [renderAt, tokens]
    exact (scansTo_quote s).scans
  | arr items, h => by
    rw [isWhole] at h
    rw [renderAt, tokens]
    exact (scansTo_renderLines (fun _ => rfl) (fun _ => rfl) (scans_renderItems _ h)).scans
  | obj fields, h => by
    rw [isWhole] at h
    rw [renderAt, tokens]
    exact (scansTo_renderLines (fun _ => rfl) (fun _ => rfl) (scans_renderFields _ h)).scans

/-- Each line of a list is scanned to the tokens of its item. -/
theorem scans_renderItems (level : Nat) : ∀ {js : List Json}, areWhole js = true →
    List.Forall₂ (fun line ts => Scans (String.toList line) ts) (renderItems level js)
      (itemTokens js)
  | [], _ => .nil
  | j :: js, h => by
    rw [areWhole, Bool.and_eq_true] at h
    exact .cons (scans_renderAt level h.1) (scans_renderItems level h.2)

/-- Each line of a record is scanned to the name and the tokens of its field. -/
theorem scans_renderFields (level : Nat) : ∀ {fs : List (String × Json)}, areFieldsWhole fs = true →
    List.Forall₂ (fun line ts => Scans (String.toList line) ts) (renderFields level fs)
      (fieldTokens fs)
  | [], _ => .nil
  | (name, j) :: fs, h => by
    rw [areFieldsWhole, Bool.and_eq_true] at h
    refine .cons ?_ (scans_renderFields level h.2)
    have hcolon : ScansTo ": ".toList [.colon] := fun _ => rfl
    rw [String.toList_append, String.toList_append]
    exact ((scansTo_quote name).append hcolon).then_scans (scans_renderAt level h.1)

end

/-- The text of a value without decimals is made of the tokens of the value. -/
theorem scan?_render {j : Json} (h : j.isWhole = true) : scan? j.render.toList = some j.tokens := by
  obtain ⟨s, hs, hhas⟩ := scans_renderAt 0 h []
  have hscan : j.render.toList.foldlM Scanner.step {} = some s := hs
  have hflush : s.flush = some { mode := .between, tokens := j.tokens.reverse ++ [] } := hhas
  rw [scan?, hscan, Option.bind_some, Scanner.finish, hflush]
  simp

end Backend386.Json
