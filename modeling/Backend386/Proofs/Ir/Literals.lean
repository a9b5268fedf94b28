import Backend386.Ir.Fold
import Backend386.Proofs.I386.Arithmetic

/-!
# Literals as words

A literal has 64 bits whatever its width, and folding computes with all of them. What matters is the
word of its low bits: folding is right when the low bits of its result are the result on the low
bits of the operands. Some operators look at nothing else; the others need literals that are written
as the signed number that their low bits stand for.

* `Width.low`, `Width.Holds` — the word of a literal, and whether the literal is that number;
* `Ir.Op.result?` — the value of a binary node in modular arithmetic;
* `Ir.Op.low_evaluate?` — folding agrees with it, for operators that look at the low bits only;
* `Ir.Op.low_evaluate?_of_holds` — for all operators.
-/

namespace Backend386

namespace Width

variable {w : Width} {a b v : Int64}

theorem bits_le_literal (w : Width) : w.bits ≤ 64 := by
  cases w <;> decide

/-- The word of the low bits of a literal. -/
def low (w : Width) (v : Int64) : BitVec w.bits :=
  v.toBitVec.setWidth w.bits

/-- A literal in the signed range of a width. -/
def Holds (w : Width) (v : Int64) : Prop :=
  -2 ^ (w.bits - 1) ≤ v.toInt ∧ v.toInt < 2 ^ (w.bits - 1)

instance (w : Width) (v : Int64) : Decidable (w.Holds v) :=
  inferInstanceAs (Decidable (_ ∧ _))

theorem low_eq_ofInt (w : Width) (v : Int64) : w.low v = BitVec.ofInt w.bits v.toInt := by
  rw [← setWidth_ofInt w.bits_le_literal, ← Int64.toInt_toBitVec, BitVec.ofInt_toInt, low]

theorem toInt_low (w : Width) (v : Int64) : (w.low v).toInt = v.toInt.bmod (2 ^ w.bits) := by
  rw [low_eq_ofInt, BitVec.toInt_ofInt]

/-- A literal is in range iff it is the signed number that its low bits stand for. -/
theorem holds_iff : w.Holds v ↔ (w.low v).toInt = v.toInt := by
  have hlo := v.le_toInt
  have hhi := v.toInt_lt
  rw [toInt_low, Holds]
  cases w <;> simp only [bits, bytes, Int.bmod] <;> omega

theorem Holds.toInt_low (h : w.Holds v) : (w.low v).toInt = v.toInt :=
  holds_iff.1 h

/-- Literals in range are told apart by their low bits. -/
theorem Holds.low_inj (ha : w.Holds a) (hb : w.Holds b) : w.low a = w.low b ↔ a = b := by
  rw [← BitVec.toInt_inj, ha.toInt_low, hb.toInt_low, Int64.toInt_inj]

/-! ## The two readings of the low bits -/

theorem toBitVec_signExtend (w : Width) (v : Int64) :
    (w.signExtend v).toBitVec = (w.low v).signExtend 64 := by
  cases w <;>
    simp [signExtend, low, bits, bytes, BitVec.signExtend_eq_setWidth_of_le]

@[simp] theorem toInt_signExtend (w : Width) (v : Int64) :
    (w.signExtend v).toInt = (w.low v).toInt := by
  rw [← Int64.toInt_toBitVec, toBitVec_signExtend, BitVec.toInt_signExtend_of_le w.bits_le_literal]

@[simp] theorem low_signExtend (w : Width) (v : Int64) : w.low (w.signExtend v) = w.low v := by
  rw [low_eq_ofInt, toInt_signExtend, BitVec.ofInt_toInt]

/-- What is cut back to a width is in its range. -/
theorem holds_signExtend (w : Width) (v : Int64) : w.Holds (w.signExtend v) := by
  rw [holds_iff, low_signExtend, toInt_signExtend]

@[simp] theorem toNat_zeroExtend (w : Width) (v : Int64) :
    (w.zeroExtend v).toNat = (w.low v).toNat := by
  cases w <;> simp [zeroExtend, low, bits, bytes] <;> rfl

/-! ## Unary operators -/

theorem low_neg (w : Width) (v : Int64) : w.low (-v) = -w.low v := by
  rw [low, Int64.toBitVec_neg, BitVec.setWidth_neg_of_le w.bits_le_literal, low]

theorem low_not (w : Width) (v : Int64) : w.low (~~~v) = ~~~w.low v := by
  rw [low, Int64.toBitVec_not, BitVec.setWidth_not w.bits_le_literal, low]

theorem low_zeroExtend (w w' : Width) (v : Int64) :
    w'.low (w.zeroExtend v).toInt64 = (w.low v).setWidth w'.bits := by
  apply BitVec.eq_of_toNat_eq
  rw [low, UInt64.toBitVec_toInt64, BitVec.toNat_setWidth, UInt64.toNat_toBitVec, toNat_zeroExtend,
    BitVec.toNat_setWidth]

/-- A number in range, seen at another width. -/
theorem Holds.low (h : w.Holds v) (w' : Width) : w'.low v = (w.low v).signExtend w'.bits := by
  rw [low_eq_ofInt w', ← h.toInt_low, BitVec.signExtend]

theorem holds_zero (w : Width) : w.Holds 0 := by
  cases w <;> decide

theorem low_zero (w : Width) : w.low 0 = 0 := by
  cases w <;> rfl

/-- Of the literals in range, only zero has low bits that are all zero. -/
theorem Holds.low_eq_zero_iff (h : w.Holds v) : w.low v = 0 ↔ v = 0 := by
  rw [← low_zero, h.low_inj w.holds_zero]

end Width

namespace Ir

open Width

@[simp] theorem low_truthValue (w : Width) (p : Prop) [Decidable p] :
    w.low (truthValue p) = Op.word (decide p) := by
  by_cases h : p <;> simp [truthValue, h] <;> cases w <;> rfl

theorem holds_truthValue (w : Width) (p : Prop) [Decidable p] : w.Holds (truthValue p) := by
  by_cases h : p <;> simp only [truthValue, h, if_true, if_false] <;> cases w <;> decide

namespace Op

/-! ## Modular arithmetic -/

/-- The divisions. -/
def divides : Op → Bool
  | sDiv | uDiv | sMod | uMod => true
  | _ => false

/-- The shifts. -/
def shifts : Op → Bool
  | shl | shr | sar => true
  | _ => false

/-- The binary operators whose value on low bits does not depend on how the operands are written:
those that mean the same for signed and for unsigned numbers, and the unsigned ones. Equality is one
of them, and is left out as folding compares all 64 bits of two literals. -/
def ignoresSpelling : Op → Bool
  | add | sub | mul | uDiv | uMod | bitAnd | bitOr | bitXor | uGt | uGe | uLt | uLe => true
  | _ => false

/-- The value of an operator that is no comparison, modulo `2 ^ n`. Quotients are truncated, and
what is shifted out is lost. Only a division by zero has no value. -/
def modular? {n : Nat} (op : Op) (a b : BitVec n) : Option (BitVec n) :=
  match op with
  | add => some (a + b)
  | sub => some (a - b)
  | mul => some (a * b)
  | sDiv => if b ≠ 0 then some (a.sdiv b) else none
  | uDiv => if b ≠ 0 then some (a / b) else none
  | sMod => if b ≠ 0 then some (a.srem b) else none
  | uMod => if b ≠ 0 then some (a % b) else none
  | bitAnd => some (a &&& b)
  | bitOr => some (a ||| b)
  | bitXor => some (a ^^^ b)
  | shl => some (a <<< b.toNat)
  | shr => some (a >>> b.toNat)
  | sar => some (a.sshiftRight b.toNat)
  | _ => none

/-- The value of a binary node in modular arithmetic. Comparisons are made at the width of the left
operand. -/
def result? (op : Op) (w : Width) {m n : Nat} (a : BitVec m) (b : BitVec n) :
    Option (BitVec w.bits) :=
  if op.isCompare then (op.compare? a (b.setWidth m)).map word
  else op.modular? (a.setWidth w.bits) (b.setWidth w.bits)

/-- Where the value of a node does not depend on how overflow is treated, modular arithmetic gives
the same. -/
theorem result?_of_binary? {op : Op} {w : Width} {m n : Nat} {a : BitVec m} {b : BitVec n}
    {x : BitVec w.bits} (h : op.binary? w a b = some x) : op.result? w a b = some x := by
  rw [binary?] at h
  rw [result?]
  split at h
  · rwa [if_pos ‹_›]
  · rw [if_neg ‹_›]
    cases op <;> simp_all [arithmetic?, modular?]

/-! ## Operators on literals -/

variable {w : Width} {a b v : Int64}

/-- The quotient of the extended literals is that of their low bits. -/
theorem low_quotient (w : Width) (a b : Int64) :
    w.low (w.zeroExtend a / w.zeroExtend b).toInt64 = w.low a / w.low b := by
  apply BitVec.eq_of_toNat_eq
  have hle := Nat.div_le_self (w.low a).toNat (w.low b).toNat
  have hlt := (w.low a).isLt
  rw [low, UInt64.toBitVec_toInt64, BitVec.toNat_setWidth, UInt64.toNat_toBitVec, UInt64.toNat_div,
    toNat_zeroExtend, toNat_zeroExtend, BitVec.toNat_udiv, Nat.mod_eq_of_lt (by omega)]

/-- So is the remainder. -/
theorem low_remainder (w : Width) (a b : Int64) :
    w.low (w.zeroExtend a % w.zeroExtend b).toInt64 = w.low a % w.low b := by
  apply BitVec.eq_of_toNat_eq
  have hle := Nat.mod_le (w.low a).toNat (w.low b).toNat
  have hlt := (w.low a).isLt
  rw [low, UInt64.toBitVec_toInt64, BitVec.toNat_setWidth, UInt64.toNat_toBitVec, UInt64.toNat_mod,
    toNat_zeroExtend, toNat_zeroExtend, BitVec.toNat_umod, Nat.mod_eq_of_lt (by omega)]

theorem zeroExtend_eq_zero_iff : w.zeroExtend b = 0 ↔ w.low b = 0 := by
  rw [← UInt64.toNat_inj, toNat_zeroExtend, ← BitVec.toNat_inj]
  rfl

/-- Operators that look at the low bits of literals only. -/
theorem low_evaluate? {op : Op} (hop : op.ignoresSpelling = true) {w w' : Width}
    (hw : op.isCompare = false → w' = w) (a b : Int64) :
    (op.evaluate? w a b).map w'.low = op.result? w' (w.low a) (w.low b) := by
  have hle := w.bits_le_literal
  cases op <;> simp only [ignoresSpelling, Bool.false_eq_true] at hop
  -- orderings without a sign compare the extended numbers
  case uGt | uGe | uLt | uLe =>
    simp [evaluate?, result?, isCompare, compare?, UInt64.lt_iff_toNat_lt, UInt64.le_iff_toNat_le,
      BitVec.ult_eq_decide, BitVec.ule_eq_decide]
  -- the low bits of sums and of bits do not depend on those above them
  all_goals
    obtain rfl := hw rfl
    simp only [evaluate?, result?, isCompare, Bool.false_eq_true, if_false, modular?,
      BitVec.setWidth_eq, Option.map_some]
  case add => rw [low, Int64.toBitVec_add, BitVec.setWidth_add _ _ hle, low, low]
  case sub =>
    rw [low, Int64.toBitVec_sub, BitVec.sub_eq_add_neg, BitVec.setWidth_add _ _ hle,
      BitVec.setWidth_neg_of_le hle, BitVec.sub_eq_add_neg, low, low]
  case mul => rw [low, Int64.toBitVec_mul, BitVec.setWidth_mul _ _ hle, low, low]
  case bitAnd => rw [low, Int64.toBitVec_and, BitVec.setWidth_and, low, low]
  case bitOr => rw [low, Int64.toBitVec_or, BitVec.setWidth_or, low, low]
  case bitXor => rw [low, Int64.toBitVec_xor, BitVec.setWidth_xor, low, low]
  -- a divisor is zero if its low bits are, as both are extended with zeros
  case uDiv =>
    by_cases h : w'.low b = 0
    · rw [if_neg (not_not.2 (zeroExtend_eq_zero_iff.2 h)), if_neg (not_not.2 h), Option.map_none]
    · rw [if_pos (zeroExtend_eq_zero_iff.not.2 h), if_pos h, Option.map_some, low_quotient]
  case uMod =>
    by_cases h : w'.low b = 0
    · rw [if_neg (not_not.2 (zeroExtend_eq_zero_iff.2 h)), if_neg (not_not.2 h), Option.map_none]
    · rw [if_pos (zeroExtend_eq_zero_iff.not.2 h), if_pos h, Option.map_some, low_remainder]

theorem ofInt_bmod (z : Int) : BitVec.ofInt w.bits (z.bmod (2 ^ 64)) = BitVec.ofInt w.bits z := by
  rw [← BitVec.toInt_inj, BitVec.toInt_ofInt, BitVec.toInt_ofInt,
    Int.bmod_bmod_of_dvd (pow_dvd_pow 2 w.bits_le_literal)]

/-- Signed quotients of numbers in range. -/
theorem low_div (ha : w.Holds a) (hb : w.Holds b) :
    w.low (a / b) = (w.low a).sdiv (w.low b) := by
  rw [low_eq_ofInt, Int64.toInt_div, ofInt_bmod, ← BitVec.toInt_inj, BitVec.toInt_ofInt,
    BitVec.toInt_sdiv, ha.toInt_low, hb.toInt_low]

/-- Signed remainders of numbers in range. -/
theorem low_mod (ha : w.Holds a) (hb : w.Holds b) :
    w.low (a % b) = (w.low a).srem (w.low b) := by
  rw [low_eq_ofInt, Int64.toInt_mod, ← ha.toInt_low, ← hb.toInt_low, ← BitVec.toInt_srem,
    BitVec.ofInt_toInt]

/-! ### Shifts -/

/-- A count that is no negative number. -/
theorem toNat_low (hb : w.Holds b) (h : 0 ≤ b) : ((w.low b).toNat : Int) = b.toInt := by
  rw [← hb.toInt_low]
  have hpos : 0 ≤ (w.low b).toInt := hb.toInt_low ▸ Int64.le_iff_toInt_le.1 h
  rw [BitVec.toInt_eq_toNat_cond] at hpos ⊢
  have := (w.low b).isLt
  split at hpos <;> omega

theorem shiftCount?_eq_some_iff {n : Int64} :
    shiftCount? b = some n ↔ (0 ≤ b ∧ b < 64) ∧ n = b := by
  rw [shiftCount?]
  split <;> simp_all [eq_comm]

/-- A count below 64 is taken as it is. -/
theorem smod_count (h : 0 ≤ b ∧ b < 64) : b.toBitVec.smod 64 = b.toBitVec := by
  have hlo : 0 ≤ b.toInt := Int64.le_iff_toInt_le.1 h.1
  have hhi : b.toInt < 64 := Int64.lt_iff_toInt_lt.1 h.2
  rw [← BitVec.toInt_inj, BitVec.toInt_smod, Int64.toInt_toBitVec]
  exact Int.fmod_eq_of_lt hlo hhi

/-- A count that is not negative is the same in its own width. -/
theorem toNat_count (hb : w.Holds b) (h : 0 ≤ b) : b.toBitVec.toNat = (w.low b).toNat := by
  have hwide : Width.w64.Holds b := by
    have hlo := b.le_toInt
    have hhi := b.toInt_lt
    exact ⟨hlo, hhi⟩
  have hsame := (toNat_low hb h).trans (toNat_low hwide h).symm
  exact (Int.ofNat.inj hsame).symm

theorem low_shiftLeft (hb : w.Holds b) (h : 0 ≤ b ∧ b < 64) :
    w.low (a <<< b) = w.low a <<< (w.low b).toNat := by
  rw [low, Int64.toBitVec_shiftLeft, smod_count h, BitVec.shiftLeft_eq', toNat_count hb h.1,
    BitVec.setWidth_shiftLeft_of_le w.bits_le_literal]
  rfl

theorem low_shiftRight (ha : w.Holds a) (hb : w.Holds b) (h : 0 ≤ b ∧ b < 64) :
    w.low (a >>> b) = (w.low a).sshiftRight (w.low b).toNat := by
  rw [low_eq_ofInt, ← Int64.toInt_toBitVec, Int64.toBitVec_shiftRight, smod_count h,
    BitVec.sshiftRight_eq', toNat_count hb h.1, BitVec.toInt_sshiftRight, Int64.toInt_toBitVec,
    ← ha.toInt_low, ← BitVec.toInt_sshiftRight, BitVec.ofInt_toInt]

/-- Zeros are shifted in from the left at any width. -/
theorem low_shiftRightZeros (hb : w.Holds b) (h : 0 ≤ b ∧ b < 64) :
    w.low (w.zeroExtend a >>> b.toUInt64).toInt64 = w.low a >>> (w.low b).toNat := by
  have hcount : b.toUInt64.toNat = (w.low b).toNat := toNat_count hb h.1
  have hsmall : (w.low b).toNat < 64 := by
    have hint := toNat_low hb h.1
    have hlt : b.toInt < 64 := Int64.lt_iff_toInt_lt.1 h.2
    omega
  have hle : (w.low a).toNat >>> (w.low b).toNat ≤ (w.low a).toNat := Nat.shiftRight_le _ _
  have hlt := (w.low a).isLt
  apply BitVec.eq_of_toNat_eq
  rw [low, UInt64.toBitVec_toInt64, BitVec.toNat_setWidth, UInt64.toNat_toBitVec,
    UInt64.toNat_shiftRight, toNat_zeroExtend, hcount, Nat.mod_eq_of_lt hsmall,
    BitVec.toNat_ushiftRight, Nat.mod_eq_of_lt (by omega)]

/-! ### All operators -/

/-- All operators, on literals in range. -/
theorem low_evaluate?_of_holds {op : Op} {w w' : Width} (hw : op.isCompare = false → w' = w)
    (ha : w.Holds a) (hb : w.Holds b) (h : op.evaluate? w a b = some v) :
    op.result? w' (w.low a) (w.low b) = some (w'.low v) := by
  -- what ignores the spelling has been treated; equality and signs need literals in range
  by_cases hop : op.ignoresSpelling = true
  · rw [← low_evaluate? hop hw, h, Option.map_some]
  have hsame : (w.low a == w.low b) = decide (a = b) := by
    rw [Bool.eq_iff_iff, beq_iff_eq, decide_eq_true_eq, ha.low_inj hb]
  cases op <;> simp only [ignoresSpelling, Bool.false_eq_true, not_true_eq_false] at hop
  -- the integers are those of the low bits, since both literals are in range
  case eq | ne | sGt | sGe | sLt | sLe =>
    obtain rfl := Option.some.inj h
    simp [result?, isCompare, compare?, Int64.lt_iff_toInt_lt, Int64.le_iff_toInt_le,
      BitVec.slt_eq_decide, BitVec.sle_eq_decide, ha.toInt_low, hb.toInt_low, bne, hsame]
  all_goals
    obtain rfl := hw rfl
    simp only [evaluate?, Option.ite_none_right_eq_some, Option.some.injEq, Option.map_eq_some_iff,
      shiftCount?_eq_some_iff] at h
    simp only [result?, isCompare, Bool.false_eq_true, if_false, modular?, BitVec.setWidth_eq]
  case sDiv =>
    obtain ⟨hfits, rfl⟩ := h
    rw [if_pos (hb.low_eq_zero_iff.not.2 hfits.1), low_div ha hb]
  case sMod =>
    obtain ⟨hfits, rfl⟩ := h
    rw [if_pos (hb.low_eq_zero_iff.not.2 hfits.1), low_mod ha hb]
  case shl =>
    obtain ⟨n, ⟨hn, rfl⟩, rfl⟩ := h
    rw [low_shiftLeft hb hn]
  case sar =>
    obtain ⟨n, ⟨hn, rfl⟩, rfl⟩ := h
    rw [low_shiftRight ha hb hn]
  case shr =>
    obtain ⟨n, ⟨hn, rfl⟩, rfl⟩ := h
    rw [low_shiftRightZeros hb hn]
  all_goals cases h

end Op

end Ir

end Backend386
