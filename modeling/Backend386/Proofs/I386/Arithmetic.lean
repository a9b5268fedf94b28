import Mathlib.Tactic.Zify
import Backend386.I386.Code
import Backend386.Proofs.I386.Machine
import Backend386.Proofs.Ir.Eval

/-!
# Arithmetic of the machine

The machine compares by subtracting and looking at flags, and it divides words of 32 bits whatever
the width of the operands. Here both are tied to the operators of the intermediate code.

* `Condition.holds_ofSub` — the condition of a comparison is right about the flags of a subtraction;
* `Machine.divide_signed`, `Machine.divide_unsigned` — a division of widened operands, seen at the
  width that they had.
-/

namespace Backend386

open Ir

variable {n : Nat}

/-! ## Flags -/

/-- One number is less than another iff sign and overflow of the difference disagree. -/
theorem slt_eq_sign_ne_overflow (a b : BitVec n) :
    a.slt b = ((a - b).msb != a.ssubOverflow b) := by
  by_cases h : a.ssubOverflow b = true
  · have hcases := BitVec.ssubOverflow_eq a b
    rw [h, eq_comm, Bool.or_eq_true] at hcases
    rw [h, Bool.bne_true, BitVec.slt_eq_decide]
    -- the signs of the operands differ, and the difference has the wrong one
    rcases hcases with hd | hd
    · simp only [Bool.and_eq_true, Bool.not_eq_true', BitVec.msb_eq_toInt, decide_eq_true_eq,
        decide_eq_false_iff_not] at hd
      simp only [BitVec.msb_eq_toInt, hd, decide_true, Bool.not_true, decide_eq_false_iff_not]
      omega
    · simp only [Bool.and_eq_true, Bool.not_eq_true', BitVec.msb_eq_toInt, decide_eq_true_eq,
        decide_eq_false_iff_not] at hd
      simp only [BitVec.msb_eq_toInt, hd, decide_false, Bool.not_false, decide_eq_true_eq]
      omega
  · have hsub := BitVec.toInt_sub_of_not_ssubOverflow h
    rw [Bool.not_eq_true] at h
    rw [h, Bool.bne_false, BitVec.msb_eq_toInt, hsub, BitVec.slt_eq_decide]
    exact decide_eq_decide.2 (by omega)

/-- The condition of a comparison is right about the flags of a subtraction. -/
theorem Condition.holds_ofSub {op : Op} {c : Condition} (h : op.condition? = some c)
    (a b : BitVec n) : op.compare? a b = some (c.holds (.ofSub a b)) := by
  have hzero : (a - b == 0) = (a == b) := by
    rw [Bool.eq_iff_iff, beq_iff_eq, beq_iff_eq]
    exact sub_eq_zero
  have hsign : ((a - b).msb == a.ssubOverflow b) = !a.slt b := by
    rw [slt_eq_sign_ne_overflow, bne, Bool.not_not]
  have hule : a.ule b = (a.ult b || a == b) := by
    rw [BitVec.ule_eq_decide, BitVec.ult_eq_decide, Bool.eq_iff_iff, Bool.or_eq_true,
      decide_eq_true_eq, decide_eq_true_eq, beq_iff_eq, ← BitVec.toNat_inj]
    omega
  have hsgt : b.slt a = !a.sle b := by rw [BitVec.sle_eq_not_slt, Bool.not_not]
  have hugt : b.ult a = !a.ule b := by rw [BitVec.ule_eq_not_ult, Bool.not_not]
  cases op <;> cases h <;>
    simp only [Op.compare?, Condition.holds, Flags.ofSub, hzero, hsign,
      hsgt, hugt, hule, BitVec.sle_eq_slt_or_eq (x := a),
      BitVec.sle_eq_not_slt (x := b), BitVec.ule_eq_not_ult b, Bool.not_or, Bool.and_comm,
      Bool.or_comm, bne, Bool.not_not]

/-! ## Division -/

/-- The low bits of a number. -/
theorem setWidth_ofInt {m : Nat} (h : n ≤ m) (z : Int) :
    (BitVec.ofInt m z).setWidth n = BitVec.ofInt n z := by
  have hdvd : (2 ^ n : Int) ∣ 2 ^ m := pow_dvd_pow 2 h
  have hnonneg (k : Nat) : (0 : Int) ≤ z % 2 ^ k := Int.emod_nonneg _ (by simp)
  refine BitVec.eq_of_toNat_eq ?_
  rw [BitVec.toNat_setWidth, BitVec.toNat_ofInt, BitVec.toNat_ofInt]
  zify
  rw [Int.toNat_of_nonneg (hnonneg m), Int.toNat_of_nonneg (hnonneg n)]
  exact Int.emod_emod_of_dvd z hdvd

/-- A word in front of which its sign is repeated. -/
theorem sshiftRight_append (x : Address) : x.sshiftRight 31 ++ x = x.signExtend 64 := by
  refine BitVec.eq_of_getLsbD_eq fun i hi => ?_
  rw [BitVec.getLsbD_append, BitVec.getLsbD_signExtend, BitVec.getLsbD_sshiftRight]
  by_cases h : i < 32
  · simp [h, hi]
  · have hlast : 31 + (i - 32) < 32 ↔ i - 32 = 0 := by omega
    by_cases h₀ : i - 32 = 0
    · simp [h, hi, h₀, BitVec.msb_eq_getLsbD_last]
    · simp [h, hi, hlast, h₀]
      omega

namespace Machine

variable {s : Machine}

/-- The quotient and the remainder of two signed numbers, computed on 32 bits. -/
theorem divide_signed (hn : n ≤ 32) {x y : BitVec n} (hax : s.regs .ax = x.signExtend 32)
    (hdx : s.regs .dx = (s.regs .ax).sshiftRight 31) (hy : y ≠ 0)
    (hxy : ¬ (x = BitVec.intMin n ∧ y = -1)) :
    s.divide true (y.signExtend 32) = some (s.setQuotient (x.sdiv y).toInt (x.srem y).toInt) := by
  have hdividend : (s.regs .dx ++ s.regs .ax).toInt = x.toInt := by
    rw [hdx, sshiftRight_append, BitVec.toInt_signExtend_of_le (by omega), hax,
      BitVec.toInt_signExtend_of_le hn]
  have hdivisor : (y.signExtend 32).toInt = y.toInt := BitVec.toInt_signExtend_of_le hn
  have hq : x.toInt.tdiv y.toInt = (x.sdiv y).toInt :=
    (BitVec.toInt_sdiv_of_ne_or_ne x y (by tauto)).symm
  have hr : x.toInt.tmod y.toInt = (x.srem y).toInt := (BitVec.toInt_srem x y).symm
  have hne : y.signExtend 32 ≠ 0 := by
    intro h
    rw [h] at hdivisor
    exact hy (BitVec.eq_of_toInt_eq (by simpa using hdivisor.symm))
  have hfits : -2 ^ 31 ≤ (x.sdiv y).toInt ∧ (x.sdiv y).toInt < 2 ^ 31 := by
    have hlo := BitVec.le_two_mul_toInt (x := x.sdiv y)
    have hhi := BitVec.two_mul_toInt_lt (x := x.sdiv y)
    have hpow : (2 ^ n : Int) ≤ 2 ^ 32 := by exact_mod_cast Nat.pow_le_pow_right (by omega) hn
    omega
  unfold divide
  simp only [hdividend, hdivisor, hq, hr, if_true]
  rw [if_pos ⟨hne, hfits⟩]

/-- The quotient and the remainder of two unsigned numbers, computed on 32 bits. -/
theorem divide_unsigned (hn : n ≤ 32) {x y : BitVec n} (hax : s.regs .ax = x.setWidth 32)
    (hdx : s.regs .dx = 0) (hy : y ≠ 0) :
    s.divide false (y.setWidth 32) = some (s.setQuotient (x / y).toNat (x % y).toNat) := by
  have hpow : 2 ^ n ≤ 2 ^ 32 := Nat.pow_le_pow_right (by omega) hn
  have hx : x.toNat % 2 ^ 32 = x.toNat := Nat.mod_eq_of_lt (by have := x.isLt; omega)
  have hdividend : (s.regs .dx ++ s.regs .ax).toNat = x.toNat := by
    rw [hdx, hax, BitVec.toNat_append, BitVec.toNat_setWidth, hx]
    simp
  have hdivisor : (y.setWidth 32).toNat = y.toNat := by
    rw [BitVec.toNat_setWidth, Nat.mod_eq_of_lt (by have := y.isLt; omega)]
  have hne : y.setWidth 32 ≠ 0 := by
    intro h
    rw [h] at hdivisor
    exact hy (BitVec.eq_of_toNat_eq (by simpa using hdivisor.symm))
  -- no quotient is greater than the dividend
  have hfits : x.toNat / y.toNat < 2 ^ 32 := by
    have := Nat.div_le_self x.toNat y.toNat
    omega
  unfold divide
  simp only [hdividend, hdivisor, Bool.false_eq_true, if_false]
  rw [if_pos ⟨hne, hfits⟩, BitVec.toNat_udiv, BitVec.toNat_umod]

end Machine

end Backend386
