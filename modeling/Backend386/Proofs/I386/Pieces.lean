import Backend386.I386.Code
import Backend386.Proofs.I386.Arithmetic
import Backend386.Proofs.I386.Env

/-!
# Pieces of code

What each of the short sequences does that the code of an expression is put together from. The bits
of `eax` above the view in use are arbitrary, so every step says what it does to a view only.

* `Evaluates` — what the code of an expression does;
* `IsRight` — where the second operand of a binary operation is;
* `extendCode_spec`, `setCode_spec`, `applyCode_spec` — what the pieces do.
-/

namespace Backend386

/-- Some registers have no part of a width. -/
theorem RegisterClass.view_eq_ok_iff {c : RegisterClass} {w : Width} {r : Register} :
    c.view w = .ok r ↔ ∃ h, r = ⟨c, w, h⟩ := by
  unfold view
  split
  · rename_i h
    simp [h, eq_comm]
  · rename_i h
    simp [h]

namespace Machine

/-! ## Instructions -/

section Instructions

variable {σ : Symbols} {s : Machine} {r : Register} {src : Operand}

theorem exec_binary_reg {op : BinaryInst} :
    s.exec σ (.binary op src (.reg r)) = s.execBinary σ r.size op src (.reg r) := rfl

theorem write_reg {v : BitVec r.size.bits} :
    s.write σ r.size v (.reg r) = some (s.setView r.cls r.size v) :=
  if_pos rfl

theorem read_reg : s.read σ r.size (.reg r) = some (s.view r.cls r.size) :=
  if_pos rfl

theorem exec_mov {v : BitVec r.size.bits} (h : s.read σ r.size src = some v) :
    s.exec σ (.binary .mov src (.reg r)) = some (s.setView r.cls r.size v) := by
  rw [exec_binary_reg]
  cases src <;> simp [execBinary, h, write_reg]

theorem exec_cmp {v : BitVec r.size.bits} (h : s.read σ r.size src = some v) :
    s.exec σ (.binary .cmp src (.reg r)) =
      some { s with flags := some (.ofSub (s.view r.cls r.size) v) } := by
  rw [exec_binary_reg]
  cases src <;> simp [execBinary, h, read_reg]

/-- An operation on two words leaves its result in the register, and sets the flags. -/
theorem exec_result {op : BinaryInst} {v x : BitVec r.size.bits} {f : Option Flags}
    (h : s.read σ r.size src = some v) (hx : op.result? (s.view r.cls r.size) v = some (x, f))
    (hop : ¬ (op = .imul ∧ r.size = .w8)) :
    s.exec σ (.binary op src (.reg r)) = some ({ s with flags := f }.setView r.cls r.size x) := by
  rw [exec_binary_reg]
  cases op <;> cases hx <;> cases src <;>
    simp_all [execBinary, read_reg, BinaryInst.result?, write_reg]

/-- A shift takes its count from the other operand. -/
theorem exec_shift {op : BinaryInst} {n : Nat} {x : BitVec r.size.bits}
    (h : s.count? σ src = some n) (hx : op.shift? (s.view r.cls r.size) n = some x) :
    s.exec σ (.binary op src (.reg r)) =
      some ({ s with flags := none }.setView r.cls r.size x) := by
  rw [exec_binary_reg]
  cases op <;> cases hx <;> cases src <;>
    simp_all [execBinary, read_reg, BinaryInst.shift?, write_reg]

/-- An extension fills the register with the sign, or with zeros. -/
theorem exec_extend {signed : Bool} {narrow : Width} {v : BitVec narrow.bits}
    (h : s.read σ narrow src = some v) :
    s.exec σ (.extend signed narrow src (.reg r)) =
      some (s.setView r.cls r.size
        (if signed then v.signExtend r.size.bits else v.setWidth r.size.bits)) := by
  have hx : s.exec σ (.extend signed narrow src (.reg r)) = (s.read σ narrow src).bind fun v =>
      s.write σ r.size (if signed then v.signExtend r.size.bits else v.setWidth r.size.bits)
        (.reg r) := rfl
  rw [hx, h, Option.bind_some, write_reg]

/-- A flag becomes a byte that is zero or one. -/
theorem exec_set {c : Condition} {f : Flags} (h : s.flags = some f) :
    s.exec σ (.set c (.reg .al)) = some (s.setView .ax .w8 (Ir.Op.word (c.holds f))) := by
  have hx : s.exec σ (.set c (.reg .al)) = s.flags.bind fun f =>
      s.write σ .w8 (if c.holds f then 1 else 0) (.reg .al) := rfl
  rw [hx, h]
  rfl

/-- A negation is a subtraction from zero. -/
theorem exec_neg : s.exec σ (.unary .neg (.reg r)) =
    some ({ s with flags := some (.ofSub 0 (s.view r.cls r.size)) }.setView r.cls r.size
      (-s.view r.cls r.size)) := by
  have hx : s.exec σ (.unary .neg (.reg r)) = (s.read σ r.size (.reg r)).bind fun v =>
      { s with flags := some (.ofSub 0 v) }.write σ r.size (-v) (.reg r) := rfl
  rw [hx, read_reg, Option.bind_some, write_reg]

theorem exec_not : s.exec σ (.unary .not (.reg r)) =
    some (s.setView r.cls r.size (~~~s.view r.cls r.size)) := by
  have hx : s.exec σ (.unary .not (.reg r)) = (s.read σ r.size (.reg r)).bind fun v =>
      s.write σ r.size (~~~v) (.reg r) := rfl
  rw [hx, read_reg, Option.bind_some, write_reg]

theorem exec_idiv : s.exec σ (.unary .idiv (.reg .ecx)) = s.divide true (s.regs .cx) := by
  have hx : s.exec σ (.unary .idiv (.reg .ecx)) = s.divide true (s.view .cx .w32) := rfl
  rw [hx, view_w32]

theorem exec_div : s.exec σ (.unary .div (.reg .ecx)) = s.divide false (s.regs .cx) := by
  have hx : s.exec σ (.unary .div (.reg .ecx)) = s.divide false (s.view .cx .w32) := rfl
  rw [hx, view_w32]

end Instructions

end Machine

/-! ## Pieces of code -/

/-- Code that leaves `v` in the view of `eax` of width `w`, using the `n` bytes under the stack
pointer. -/
def Evaluates (σ : Symbols) (s : Machine) (n : Nat) (code : Listing) (w : Width)
    (v : BitVec w.bits) : Prop :=
  ∃ s', s.run σ code = some s' ∧ s'.view .ax w = v ∧ s.Keeps n s'

/-- `rhs` is the second operand of a binary operation: a literal or a view of `ecx`. -/
inductive IsRight (s : Machine) (w : Width) (y : BitVec w.bits) : Operand → Prop where
  | literal {k : Int64} (h : k.toBitVec.setWidth w.bits = y) : IsRight s w y (.int k)
  | register {hv : RegisterClass.cx.hasView w = true} (h : s.view .cx w = y) :
    IsRight s w y (.reg ⟨.cx, w, hv⟩)

section Pieces

variable (σ : Symbols) {s : Machine} {w : Width} {code : Listing}

open Machine

/-- The operand is read as the value that it stands for. -/
theorem IsRight.read {y : BitVec w.bits} {rhs : Operand} (h : IsRight s w y rhs) :
    s.read σ w rhs = some y := by
  cases h with
  | literal h => exact congrArg some h
  | register h =>
    rw [← h]
    exact if_pos rfl

/-- Widening fills with the sign or with zeros; where there is nothing to widen, the narrower view
is used. -/
theorem extendCode_spec {c : RegisterClass} {narrow : Width} {signed : Bool}
    (h : extendCode c narrow w signed = .ok code) (hc : c = .ax ∨ c = .cx ∨ c = .dx) :
    ∃ s', s.run σ code = some s' ∧
      s'.view c w = (if signed then (s.view c narrow).signExtend w.bits
        else (s.view c narrow).setWidth w.bits) ∧
      (∀ c' ≠ c, s'.regs c' = s.regs c') ∧ s.Keeps 0 s' := by
  unfold extendCode at h
  split at h
  · rename_i hle
    cases h
    have hbits : w.bits ≤ narrow.bits := Nat.mul_le_mul_left 8 hle
    refine ⟨s, rfl, ?_, fun _ _ => rfl, .refl⟩
    rw [view_of_le hbits, BitVec.signExtend_eq_setWidth_of_le _ hbits, ite_self]
  · obtain ⟨r, hr, h⟩ := bind_eq_ok_iff.1 h
    obtain ⟨r', hr', h⟩ := bind_eq_ok_iff.1 h
    obtain ⟨hv, rfl⟩ := RegisterClass.view_eq_ok_iff.1 hr
    obtain ⟨hv', rfl⟩ := RegisterClass.view_eq_ok_iff.1 hr'
    cases h
    have hw : w ≠ .w64 := by rintro rfl; cases c <;> cases hv'
    refine ⟨_, run_cons_of (exec_extend read_reg), view_setView_same hw, fun _ hne => ?_,
      .setView hc⟩
    exact regs_setView_ne hne

/-- The value of a condition, widened. -/
theorem setCode_spec {c : Condition} {f : Flags} (h : setCode c w = .ok code)
    (hf : s.flags = some f) : Evaluates σ s 0 code w (Ir.Op.word (c.holds f)) := by
  obtain ⟨rest, hrest, h⟩ := bind_eq_ok_iff.1 h
  cases h
  obtain ⟨s', hrun, hview, -, hkeeps⟩ := extendCode_spec σ
    (s := s.setView .ax .w8 (Ir.Op.word (c.holds f))) hrest (.inl rfl)
  refine ⟨s', (run_cons_of (exec_set hf)).trans hrun, ?_, .trans (.setView (.inl rfl)) hkeeps⟩
  rw [hview, view_setView_same (by decide)]
  cases c.holds f <;> cases w <;> rfl

/-- A divisor is kept in a register of its own, since the accumulator is needed for the dividend. -/
theorem loadDivisor_spec {y : BitVec w.bits} {rhs : Operand} (h : IsRight s w y rhs)
    (hw : w ≠ .w64) :
    ∃ s', s.run σ (loadDivisor rhs) = some s' ∧ s'.view .cx w = y ∧
      s'.regs .ax = s.regs .ax ∧ s.Keeps 0 s' := by
  cases h with
  | literal h =>
    refine ⟨_, run_cons_of (exec_mov rfl), ?_, rfl, .setView (.inr (.inl rfl))⟩
    rw [view_of_le (w := .w32) (bits_le hw), ← h]
    exact (congrArg _ (view_setView_same (by decide))).trans
      (BitVec.setWidth_setWidth_of_le _ (bits_le hw))
  | register h => exact ⟨s, rfl, h, rfl, .refl⟩

/-- Dividend and divisor as 32 bit values. -/
theorem divideOperands_spec {signed : Bool} {x y : BitVec w.bits} {rhs : Operand} {wl wr : Listing}
    (hwl : extendCode .ax w .w32 signed = .ok wl) (hwr : extendCode .cx w .w32 signed = .ok wr)
    (hw : w ≠ .w64) (hx : s.view .ax w = x) (hy : IsRight s w y rhs) :
    ∃ s', s.run σ (loadDivisor rhs ++ wl ++ wr) = some s' ∧
      s'.regs .ax = (if signed then x.signExtend 32 else x.setWidth 32) ∧
      s'.regs .cx = (if signed then y.signExtend 32 else y.setWidth 32) ∧ s.Keeps 0 s' := by
  obtain ⟨s₁, hs₁, hcx₁, hax₁, hk₁⟩ := loadDivisor_spec σ hy hw
  obtain ⟨s₂, hs₂, hax₂, hregs₂, hk₂⟩ := extendCode_spec σ (s := s₁) hwl (.inl rfl)
  obtain ⟨s₃, hs₃, hcx₃, hregs₃, hk₃⟩ := extendCode_spec σ (s := s₂) hwr (.inr (.inl rfl))
  have hx₁ : s₁.view .ax w = x := by rw [view, hax₁]; exact hx
  have hy₂ : s₂.view .cx w = y := by rw [view, hregs₂ .cx (by decide)]; exact hcx₁
  rw [hx₁, view_w32, ← hregs₃ .ax (by decide)] at hax₂
  rw [hy₂, view_w32] at hcx₃
  refine ⟨s₃, ?_, hax₂, hcx₃, (hk₁.trans hk₂).trans hk₃⟩
  rw [List.append_assoc, run_append_of hs₁, run_append_of hs₂, hs₃]

/-- Picks the quotient or the remainder of a division. -/
theorem pickResult_spec (remainder : Bool) {q r : Int} (hw : w ≠ .w64) :
    Evaluates σ (s.setQuotient q r) 0
      (if remainder then [.mov (.reg .edx) (.reg .eax)] else []) w
      (if remainder then BitVec.ofInt w.bits r else BitVec.ofInt w.bits q) := by
  cases remainder with
  | false => exact ⟨_, rfl, setWidth_ofInt (bits_le hw) q, .refl⟩
  | true =>
    refine ⟨_, run_cons_of (exec_mov rfl), ?_, .setView (.inl rfl)⟩
    rw [view_of_le (w := .w32) (bits_le hw)]
    refine (congrArg _ (view_setView_same (by decide))).trans ?_
    exact (BitVec.setWidth_setWidth_of_le _ (bits_le hw)).trans (setWidth_ofInt (bits_le hw) r)

/-- A signed division on 32 bit values. -/
theorem divideCode_signed {remainder : Bool} {x y : BitVec w.bits} {rhs : Operand}
    (h : divideCode w true remainder rhs = .ok code) (hw : w ≠ .w64) (hx : s.view .ax w = x)
    (hy : IsRight s w y rhs) (hne : y ≠ 0)
    (hfits : ¬ (x = BitVec.intMin w.bits ∧ y = -1)) :
    Evaluates σ s 0 code w (if remainder then x.srem y else x.sdiv y) := by
  obtain ⟨wl, hwl, h⟩ := bind_eq_ok_iff.1 h
  obtain ⟨wr, hwr, h⟩ := bind_eq_ok_iff.1 h
  cases h
  obtain ⟨s₁, hs₁, hax, hcx, hk₁⟩ := divideOperands_spec σ hwl hwr hw hx hy
  set s₂ := s₁.setView .dx .w32 ((s₁.regs .ax).sshiftRight 31) with hs₂
  have hcx₂ : s₂.regs .cx = y.signExtend 32 := (regs_setView_ne (by decide)).trans hcx
  have hdiv := divide_signed (s := s₂) (bits_le hw) hax regs_setView_w32 hne hfits
  obtain ⟨s₃, hs₃, hview, hk₃⟩ := pickResult_spec σ remainder (s := s₂) (q := (x.sdiv y).toInt)
    (r := (x.srem y).toInt) hw
  refine ⟨s₃, ?_, by rw [hview, BitVec.ofInt_toInt, BitVec.ofInt_toInt],
    ((hk₁.trans (.setView (.inr (.inr rfl)))).trans .setQuotient).trans hk₃⟩
  rw [List.append_assoc, run_append_of hs₁]
  refine (run_cons_of (show s₁.exec σ .cltd = some s₂ from rfl)).trans ((run_cons_of ?_).trans hs₃)
  rw [exec_idiv, hcx₂, hdiv]

/-- An unsigned division on 32 bit values. -/
theorem divideCode_unsigned {remainder : Bool} {x y : BitVec w.bits} {rhs : Operand}
    (h : divideCode w false remainder rhs = .ok code) (hw : w ≠ .w64) (hx : s.view .ax w = x)
    (hy : IsRight s w y rhs) (hne : y ≠ 0) :
    Evaluates σ s 0 code w (if remainder then x % y else x / y) := by
  obtain ⟨wl, hwl, h⟩ := bind_eq_ok_iff.1 h
  obtain ⟨wr, hwr, h⟩ := bind_eq_ok_iff.1 h
  cases h
  obtain ⟨s₁, hs₁, hax, hcx, hk₁⟩ := divideOperands_spec σ hwl hwr hw hx hy
  obtain ⟨f, hf⟩ : ∃ f, s₁.exec σ (.binary .xor (.reg .edx) (.reg .edx)) =
      some ({ s₁ with flags := f }.setView .dx .w32 (s₁.view .dx .w32 ^^^ s₁.view .dx .w32)) :=
    ⟨_, exec_result (r := .edx) read_reg rfl (by decide)⟩
  rw [BitVec.xor_self] at hf
  set s₂ := { s₁ with flags := f }.setView .dx .w32 0 with hs₂
  have hcx₂ : s₂.regs .cx = y.setWidth 32 := (regs_setView_ne (by decide)).trans hcx
  have hdiv := divide_unsigned (s := s₂) (bits_le hw) hax regs_setView_w32 hne
  obtain ⟨s₃, hs₃, hview, hk₃⟩ := pickResult_spec σ remainder (s := s₂) (q := (x / y).toNat)
    (r := (x % y).toNat) hw
  refine ⟨s₃, ?_, by rw [hview, BitVec.ofInt_natCast, BitVec.ofInt_natCast, BitVec.ofNat_toNat,
    BitVec.ofNat_toNat, BitVec.setWidth_eq, BitVec.setWidth_eq],
    ((hk₁.trans (.trans .setFlags (.setView (.inr (.inr rfl))))).trans .setQuotient).trans hk₃⟩
  rw [List.append_assoc, run_append_of hs₁]
  refine (run_cons_of (show s₁.exec σ _ = some s₂ from hf)).trans ((run_cons_of ?_).trans hs₃)
  rw [exec_div, hcx₂, hdiv]

/-- An operation of one instruction. -/
theorem simpleInst_spec {i : BinaryInst} {r : Register} {x y v : BitVec w.bits} {f : Option Flags}
    {rhs : Operand} (hr : RegisterClass.ax.view w = .ok r) (hw : w ≠ .w64) (hx : s.view .ax w = x)
    (hy : IsRight s w y rhs) (hi : i ≠ .imul) (hv : i.result? x y = some (v, f)) :
    Evaluates σ s 0 [.inst (.binary i rhs (.reg r))] w v := by
  obtain ⟨hview, rfl⟩ := RegisterClass.view_eq_ok_iff.1 hr
  subst hx
  exact ⟨_, run_cons_of (exec_result (r := ⟨.ax, w, hview⟩) (hy.read σ) hv fun h => hi h.1),
    view_setView_same hw, .trans .setFlags (.setView (.inl rfl))⟩

/-- The count of a shift, once it is known to be less than the width. -/
theorem IsRight.count? {y : BitVec w.bits} {rhs : Operand} (h : IsRight s w y rhs)
    (hw : w ≠ .w64) (hlt : y.toNat < w.bits) :
    s.count? σ (rhs.orRegister .cl) = some y.toNat := by
  have hle := bits_le hw
  cases h with
  | @literal k h =>
    have hdvd : 32 ∣ 2 ^ w.bits := by cases w <;> decide
    have hy : k.toBitVec.toNat % 2 ^ w.bits = y.toNat := by rw [← h, BitVec.toNat_setWidth]
    have hmod : k.toBitVec.toNat % 32 = y.toNat := by
      rw [← Nat.mod_mod_of_dvd _ hdvd, hy, Nat.mod_eq_of_lt (by omega)]
    exact congrArg some hmod
  | register h =>
    have hbyte : (s.view .cx .w8).toNat = y.toNat := by
      rw [view_of_le (w := w) (by cases w <;> decide), h, BitVec.toNat_setWidth]
      exact Nat.mod_eq_of_lt
        (Nat.lt_of_lt_of_le hlt (by cases w <;> first | contradiction | decide))
    rw [Operand.orRegister, Machine.count?, if_pos rfl, hbyte, Nat.mod_eq_of_lt (by omega)]

/-- A shift. -/
theorem shiftInst_spec {i : BinaryInst} {r : Register} {x y v : BitVec w.bits} {rhs : Operand}
    (hr : RegisterClass.ax.view w = .ok r) (hw : w ≠ .w64) (hx : s.view .ax w = x)
    (hy : IsRight s w y rhs) (hlt : y.toNat < w.bits) (hv : i.shift? x y.toNat = some v) :
    Evaluates σ s 0 [.inst (.binary i (rhs.orRegister .cl) (.reg r))] w v := by
  obtain ⟨hview, rfl⟩ := RegisterClass.view_eq_ok_iff.1 hr
  subst hx
  exact ⟨_, run_cons_of (exec_shift (r := ⟨.ax, w, hview⟩) (hy.count? σ hw hlt) hv),
    view_setView_same hw, .trans .setFlags (.setView (.inl rfl))⟩

/-- A multiplication, which is made on 32 bits: the low bits of the product are the same. -/
theorem imul_spec {x y : BitVec w.bits} {rhs : Operand} (hw : w ≠ .w64) (hx : s.view .ax w = x)
    (hy : IsRight s w y rhs) :
    Evaluates σ s 0 [.inst (.binary .imul (rhs.orRegister .ecx) (.reg .eax))] w (x * y) := by
  obtain ⟨z, hz, hzy⟩ : ∃ z : Address, s.read σ .w32 (rhs.orRegister .ecx) = some z ∧
      z.setWidth w.bits = y := by
    cases hy with
    | literal h => exact ⟨_, rfl, (BitVec.setWidth_setWidth_of_le _ (bits_le hw)).trans h⟩
    | register h => exact ⟨_, rfl, (BitVec.setWidth_setWidth_of_le _ (bits_le hw)).trans h⟩
  refine ⟨_, run_cons_of (exec_result (r := .eax) hz rfl (by decide)), ?_,
    .trans .setFlags (.setView (.inl rfl))⟩
  rw [view_of_le (w := .w32) (bits_le hw)]
  refine (congrArg _ (view_setView_same (by decide))).trans ?_
  rw [← hx, ← hzy]
  refine (BitVec.setWidth_mul _ _ (bits_le hw)).trans ?_
  exact congrArg (· * _) (BitVec.setWidth_setWidth_of_le _ (bits_le hw))

/-- A binary operation that is no comparison. -/
theorem applyCode_spec {op : Ir.Op} {x y v : BitVec w.bits} {rhs : Operand}
    (h : applyCode w op rhs = .ok code) (hw : w ≠ .w64) (hx : s.view .ax w = x)
    (hy : IsRight s w y rhs) (hv : op.arithmetic? x y = some v) : Evaluates σ s 0 code w v := by
  obtain ⟨r, hr, h⟩ := bind_eq_ok_iff.1 h
  -- one case per operation; where the language leaves the result undefined, `hv` says that it is
  -- not
  cases op
  case mul => cases h; cases hv; exact imul_spec σ hw hx hy
  case sDiv =>
    obtain ⟨hne, hv⟩ := Option.ite_none_right_eq_some.1 hv
    cases hv
    exact divideCode_signed σ h hw hx hy hne.1 hne.2
  case sMod =>
    obtain ⟨hne, hv⟩ := Option.ite_none_right_eq_some.1 hv
    cases hv
    exact divideCode_signed σ h hw hx hy hne.1 hne.2
  case uDiv =>
    obtain ⟨hne, hv⟩ := Option.ite_none_right_eq_some.1 hv
    cases hv
    exact divideCode_unsigned σ h hw hx hy hne
  case uMod =>
    obtain ⟨hne, hv⟩ := Option.ite_none_right_eq_some.1 hv
    cases hv
    exact divideCode_unsigned σ h hw hx hy hne
  case shl | shr | sar =>
    obtain ⟨hlt, hv⟩ := Option.ite_none_right_eq_some.1 hv
    cases h
    exact shiftInst_spec σ hr hw hx hy hlt hv
  case add | sub | bitAnd | bitOr | bitXor =>
    cases h
    cases hv
    exact simpleInst_spec σ hr hw hx hy (by decide) rfl
  -- comparisons are no operations of arithmetic
  all_goals cases hv

end Pieces

end Backend386
