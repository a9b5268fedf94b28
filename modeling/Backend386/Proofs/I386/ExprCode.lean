import Backend386.Proofs.I386.Pieces
import Backend386.Proofs.Ir.MixedWidths

/-!
# Code for expressions is correct

By induction on the expression: its code leaves its value in the view of `eax` that has its width,
and keeps everything but `eax`, `ecx`, `edx`, the flags and the bytes under the stack pointer.

* `Placement.Sound`, `Placement.Reaches` — what the code of an expression does, in its two uses;
* `operandsCode_spec`, `binaryCode_spec`, `unaryCode_spec` — what the code of a node does, given the
  code of its operands;
* `Placement.mixedCode_spec`, `Placement.exprCode_spec` — the code of every expression whose
  operands need nothing but cutting or filling up does this, and so that of every consistent
  expression.
-/

namespace Backend386

/-! ## Operands -/

namespace Placement

variable {p : Placement} {σ : Symbols}

open Machine

/-- The code of an expression leaves its value in `eax`, wherever the expression has one. -/
def Sound (p : Placement) (σ : Symbols) (e : Ir.Expr) : Prop :=
  ∀ {s : Machine} {n : Nat} {v : BitVec e.width.bits} {code : Listing},
    4 * e.depth ≤ n → n ≤ 2 ^ 32 → e.eval (p.env σ s n) = some v → p.valueCode e = .ok code →
    Evaluates σ s n code e.width v

/-- A word at another width. What is widened is filled up with the sign or with zeros. -/
def extended {k : Nat} (signed : Bool) (x : BitVec k) (w : Width) : BitVec w.bits :=
  if signed then x.signExtend w.bits else x.setWidth w.bits

/-- Where a value fills the wider width, extending it adds nothing that counts. -/
theorem extended_of_fills {signed : Bool} {narrow wide : Width} {x : BitVec narrow.bits}
    (h : Width.Fills signed narrow wide) : extended signed x wide = x.setWidth wide.bits := by
  unfold extended
  rcases h with hle | rfl
  · have hbits : wide.bits ≤ narrow.bits := Nat.mul_le_mul_left 8 hle
    rw [BitVec.signExtend_eq_setWidth_of_le _ hbits, ite_self]
  · exact if_neg Bool.false_ne_true

/-- Code for two operands whatever the right one is: its value waits on the stack. -/
def stackedCode (l r : Ir.Expr) (left right : Except Fault Listing) (w : Width) (signed : Bool) :
    Except Fault (Listing × Operand) := do
  let first ← right
  let widenFirst ← extendCode .ax r.width w signed
  let second ← left
  let widenSecond ← extendCode .ax l.width w signed
  return (first ++ widenFirst ++ [.pushEax] ++ second ++ widenSecond ++ [.popEcx],
    .reg (← RegisterClass.cx.view w))

theorem operandsCode_eq_stackedCode {l r : Ir.Expr} {left right : Except Fault Listing} {w : Width}
    {signed : Bool} (h : r.isLiteral = false) :
    operandsCode l r left right w signed = stackedCode l r left right w signed := by
  cases r <;> first | rfl | cases h

/-- Both operands, the right one having waited on the stack. -/
theorem stackedCode_spec {l r : Ir.Expr} {w : Width} {signed : Bool} {code : Listing}
    {rhs : Operand} {s : Machine} {n : Nat} {x : BitVec l.width.bits} {y : BitVec r.width.bits}
    (hl : p.Sound σ l) (hr : p.Sound σ r)
    (h : stackedCode l r (p.valueCode l) (p.valueCode r) w signed = .ok (code, rhs))
    (hdr : 4 * r.depth ≤ n) (hdl : 4 + 4 * l.depth ≤ n) (hn : n ≤ 2 ^ 32)
    (hx : l.eval (p.env σ s n) = some x) (hy : r.eval (p.env σ s n) = some y) :
    ∃ s', s.run σ code = some s' ∧ s'.view .ax w = extended signed x w ∧
      s'.view .cx w = extended signed y w ∧ (∃ hv, rhs = .reg ⟨.cx, w, hv⟩) ∧ s.Keeps n s' := by
  obtain ⟨cr, hcr, h⟩ := bind_eq_ok_iff.1 h
  obtain ⟨er, her, h⟩ := bind_eq_ok_iff.1 h
  obtain ⟨cl, hcl, h⟩ := bind_eq_ok_iff.1 h
  obtain ⟨el, hel, h⟩ := bind_eq_ok_iff.1 h
  obtain ⟨rcx, hrcx, h⟩ := bind_eq_ok_iff.1 h
  obtain ⟨hv, rfl⟩ := RegisterClass.view_eq_ok_iff.1 hrcx
  cases h
  have hw : w ≠ .w64 := by rintro rfl; cases hv
  obtain ⟨m, rfl⟩ := Nat.exists_eq_add_of_le (show 4 ≤ n by omega)
  -- the right operand, widened and pushed
  obtain ⟨s₁, hs₁, hview₁, hk₁⟩ := hr hdr hn hy hcr
  obtain ⟨s₂, hs₂, hview₂, -, hk₂⟩ := extendCode_spec σ (s := s₁) her (.inl rfl)
  have hk₁₂ := hk₁.trans (hk₂.mono (Nat.zero_le _))
  have hpush : s₂.exec σ (.push (.reg .eax)) = some (s₂.push (s₂.regs .ax)) := by
    rw [← view_w32 (s := s₂)]
    rfl
  -- the left operand, above the pushed word
  have hx₂ := Ir.Expr.eval_mono (env_le_of_keeps hk₁₂) l hx
  have hx₃ := Ir.Expr.eval_mono (env_le_push (v := s₂.regs .ax) hn) l hx₂
  obtain ⟨s₃, hs₃, hview₃, hk₃⟩ := hl (by omega) (by omega) hx₃ hcl
  obtain ⟨s₄, hs₄, hview₄, -, hk₄⟩ := extendCode_spec σ (s := s₃) hel (.inl rfl)
  have hk₃₄ := hk₃.trans (hk₄.mono (Nat.zero_le _))
  have htop : s₄.top = s₂.regs .ax := top_of_push hn hk₃₄
  refine ⟨s₄.drop.setView .cx .w32 s₄.top, ?_, ?_, ?_, ⟨hv, rfl⟩,
    (hk₁₂.trans (.of_push hn hk₃₄)).trans (.setView (.inr (.inl rfl)))⟩
  · simp only [List.append_assoc]
    rw [run_append_of hs₁, run_append_of hs₂]
    exact (run_cons_of hpush).trans ((run_append_of hs₃).trans
      ((run_append_of hs₄).trans (run_cons_of rfl)))
  · rw [extended, ← hview₃, ← hview₄]
    exact view_setView_ne (by decide)
  · have hcx : (s₄.drop.setView .cx .w32 s₄.top).regs .cx = s₂.regs .ax :=
      regs_setView_w32.trans htop
    rw [extended, ← hview₁, ← hview₂, view, hcx, view]

/-- The left operand, when the right one is a literal. -/
theorem literalOperand_spec {l : Ir.Expr} {w w' : Width} {k : Int64} {right : Except Fault Listing}
    {signed : Bool} {code : Listing} {rhs : Operand} {s : Machine} {n : Nat}
    {x : BitVec l.width.bits} (hl : p.Sound σ l)
    (h : operandsCode l (.int w' k) (p.valueCode l) right w signed = .ok (code, rhs))
    (hd : 4 * l.depth ≤ n) (hn : n ≤ 2 ^ 32) (hx : l.eval (p.env σ s n) = some x) :
    ∃ s', s.run σ code = some s' ∧ s'.view .ax w = extended signed x w ∧ rhs = .int k ∧
      s.Keeps n s' := by
  obtain ⟨cl, hcl, h⟩ := bind_eq_ok_iff.1 h
  obtain ⟨el, hel, h⟩ := bind_eq_ok_iff.1 h
  cases h
  obtain ⟨s₁, hs₁, hview₁, hk₁⟩ := hl hd hn hx hcl
  obtain ⟨s₂, hs₂, hview₂, -, hk₂⟩ := extendCode_spec σ (s := s₁) hel (.inl rfl)
  refine ⟨s₂, (run_append_of hs₁).trans hs₂, ?_, rfl, hk₁.trans (hk₂.mono (Nat.zero_le n))⟩
  rw [extended, ← hview₁, ← hview₂]

/-- Both operands of a binary operation, when they are cut or filled up with zeros. -/
theorem operandsCode_spec {l r : Ir.Expr} {w w' : Width} {op : Ir.Op} {signed : Bool}
    {code : Listing} {rhs : Operand} {s : Machine} {n : Nat} {x : BitVec l.width.bits}
    {y : BitVec r.width.bits} (hl : p.Sound σ l) (hr : p.Sound σ r)
    (h : operandsCode l r (p.valueCode l) (p.valueCode r) w signed = .ok (code, rhs))
    (hlw : Width.Fills signed l.width w) (hrw : Width.Fills signed r.width w) (hlit : r.Exact w)
    (hd : 4 * (Ir.Expr.bin w' op l r).depth ≤ n) (hn : n ≤ 2 ^ 32)
    (hx : l.eval (p.env σ s n) = some x) (hy : r.eval (p.env σ s n) = some y) :
    ∃ s', s.run σ code = some s' ∧ s'.view .ax w = x.setWidth w.bits ∧
      IsRight s' w (y.setWidth w.bits) rhs ∧ s.Keeps n s' := by
  rw [← extended_of_fills hlw]
  cases hr' : r.isLiteral with
  | true =>
    -- a literal on the right takes no code
    obtain ⟨w', k, rfl⟩ : ∃ w' k, r = .int w' k := by
      cases r <;> first | exact ⟨_, _, rfl⟩ | cases hr'
    have hd' : 4 * l.depth ≤ n := by simpa [Ir.Expr.depth, Ir.Expr.isLiteral] using hd
    obtain ⟨s', hs', hview, rfl, hk⟩ := literalOperand_spec hl h hd' hn hx
    cases hy
    exact ⟨s', hs', hview, .literal hlit, hk⟩
  | false =>
    rw [operandsCode_eq_stackedCode hr'] at h
    have hdepth : 4 * r.depth ≤ n ∧ 4 + 4 * l.depth ≤ n := by
      rw [Ir.Expr.depth, hr'] at hd
      simp only [Bool.false_eq_true, if_false] at hd
      omega
    obtain ⟨s', hs', hview, hcx, ⟨hv, rfl⟩, hk⟩ :=
      stackedCode_spec hl hr h hdepth.1 hdepth.2 hn hx hy
    exact ⟨s', hs', hview, .register (hcx.trans (extended_of_fills hrw)), hk⟩

/-! ## Expressions -/

/-- A comparison leaves the flags of a subtraction. -/
theorem compareCode_spec {l r : Ir.Expr} {w : Width} {op : Ir.Op} {code : Listing} {s : Machine}
    {n : Nat} {x : BitVec l.width.bits} {y : BitVec r.width.bits} (hl : p.Sound σ l)
    (hr : p.Sound σ r) (h : compareCode op l r (p.valueCode l) (p.valueCode r) = .ok code)
    (hrw : Width.Fills op.isSigned r.width l.width) (hlit : r.Exact l.width)
    (hd : 4 * (Ir.Expr.bin w op l r).depth ≤ n) (hn : n ≤ 2 ^ 32)
    (hx : l.eval (p.env σ s n) = some x) (hy : r.eval (p.env σ s n) = some y) :
    ∃ s', s.run σ code = some s' ∧
      s'.flags = some (.ofSub x (y.setWidth l.width.bits)) ∧ s.Keeps n s' := by
  obtain ⟨⟨operands, rhs⟩, hoperands, h⟩ := bind_eq_ok_iff.1 h
  obtain ⟨rax, hrax, h⟩ := bind_eq_ok_iff.1 h
  obtain ⟨hv, rfl⟩ := RegisterClass.view_eq_ok_iff.1 hrax
  cases h
  obtain ⟨s', hs', hax, hright, hk⟩ :=
    operandsCode_spec hl hr hoperands (.of_eq rfl) hrw hlit hd hn hx hy
  refine ⟨_, (run_append_of hs').trans (run_cons_of (exec_cmp (hright.read σ))), ?_,
    hk.trans .setFlags⟩
  rw [BitVec.setWidth_eq] at hax
  exact congrArg (fun z => some (Flags.ofSub z _)) hax

/-- The right operand waits on the stack while the code of the left one runs, and the instructions
of the operation do what its name says. -/
theorem binaryCode_spec {l r : Ir.Expr} {w : Width} {op : Ir.Op} {code : Listing} {s : Machine}
    {n : Nat} {v : BitVec w.bits} (hl : p.Sound σ l) (hr : p.Sound σ r)
    (h : binaryCode w op l r (p.valueCode l) (p.valueCode r) = .ok code) (hw : w ≠ .w64)
    (hlw : op.isCompare = true ∨ Width.Fills op.isSigned l.width w)
    (hrw : Width.Fills op.isSigned r.width (if op.isCompare then l.width else w))
    (hlit : r.Exact (if op.isCompare then l.width else w))
    (hd : 4 * (Ir.Expr.bin w op l r).depth ≤ n) (hn : n ≤ 2 ^ 32)
    (hv : (Ir.Expr.bin w op l r).eval (p.env σ s n) = some v) : Evaluates σ s n code w v := by
  obtain ⟨x, hx, hv⟩ := Option.bind_eq_some_iff.1 hv
  obtain ⟨y, hy, hv⟩ := Option.bind_eq_some_iff.1 hv
  unfold Ir.Op.binary? at hv
  unfold binaryCode at h
  -- a comparison sets flags, any other operation leaves its result in the accumulator
  split at h
  · rename_i c hc
    have hop : op.isCompare = true := by rw [← Ir.Op.isSome_condition?, hc]; rfl
    rw [if_pos hop] at hrw hlit hv
    obtain ⟨cmp, hcmp, h⟩ := bind_eq_ok_iff.1 h
    obtain ⟨set, hset, h⟩ := bind_eq_ok_iff.1 h
    cases h
    obtain ⟨s₁, hs₁, hflags, hk₁⟩ := compareCode_spec hl hr hcmp hrw hlit hd hn hx hy
    obtain ⟨s₂, hs₂, hview, hk₂⟩ := setCode_spec σ hset hflags
    refine ⟨s₂, (run_append_of hs₁).trans hs₂, ?_, hk₁.trans (hk₂.mono (Nat.zero_le n))⟩
    rw [Condition.holds_ofSub hc] at hv
    cases hv
    exact hview
  · rename_i hc
    have hop : op.isCompare = false := by rw [← Ir.Op.isSome_condition?, hc]; rfl
    rw [hop] at hlw hrw hlit hv
    simp only [Bool.false_eq_true, if_false, false_or] at hlw hrw hlit hv
    obtain ⟨⟨operands, rhs⟩, hoperands, h⟩ := bind_eq_ok_iff.1 h
    obtain ⟨apply, happly, h⟩ := bind_eq_ok_iff.1 h
    cases h
    obtain ⟨s₁, hs₁, hax, hright, hk₁⟩ :=
      operandsCode_spec hl hr hoperands hlw hrw hlit hd hn hx hy
    obtain ⟨s₂, hs₂, hview, hk₂⟩ := applyCode_spec σ happly hw hax hright hv
    exact ⟨s₂, (run_append_of hs₁).trans hs₂, hview, hk₁.trans (hk₂.mono (Nat.zero_le n))⟩

/-- The code of a unary operation computes it in the accumulator. -/
theorem unaryCode_spec {e : Ir.Expr} {w : Width} {op : Ir.Op} {code : Listing} {s : Machine}
    {n : Nat} {v : BitVec w.bits} (he : p.Sound σ e)
    (h : unaryCode w op e (p.valueCode e) = .ok code) (hw : w ≠ .w64)
    (hwidth : op = .neg ∨ op = .bitNot → e.width = w)
    (hd : 4 * e.depth ≤ n) (hn : n ≤ 2 ^ 32)
    (hv : (Ir.Expr.uni w op e).eval (p.env σ s n) = some v) : Evaluates σ s n code w v := by
  obtain ⟨x, hx, hv⟩ := Option.bind_eq_some_iff.1 hv
  obtain ⟨ce, hce, h⟩ := bind_eq_ok_iff.1 h
  obtain ⟨rax, hrax, h⟩ := bind_eq_ok_iff.1 h
  obtain ⟨hax, rfl⟩ := RegisterClass.view_eq_ok_iff.1 hrax
  obtain ⟨s₁, hs₁, hview₁, hk₁⟩ := he hd hn hx hce
  cases op
  case neg =>
    cases h
    cases hv
    obtain rfl := hwidth (.inl rfl)
    refine ⟨_, (run_append_of hs₁).trans (run_cons_of exec_neg), ?_,
      (hk₁.trans .setFlags).trans (.setView (.inl rfl))⟩
    rw [BitVec.setWidth_eq, ← hview₁]
    exact view_setView_same hw
  case bitNot =>
    cases h
    cases hv
    obtain rfl := hwidth (.inr rfl)
    refine ⟨_, (run_append_of hs₁).trans (run_cons_of exec_not), ?_,
      hk₁.trans (.setView (.inl rfl))⟩
    rw [BitVec.setWidth_eq, ← hview₁]
    exact view_setView_same hw
  case not =>
    cases hv
    obtain ⟨rax, hrax, h⟩ := bind_eq_ok_iff.1 h
    obtain ⟨hax, rfl⟩ := RegisterClass.view_eq_ok_iff.1 hrax
    obtain ⟨set, hset, h⟩ := bind_eq_ok_iff.1 h
    cases h
    obtain ⟨s₂, hs₂, hview, hk₂⟩ := setCode_spec σ
      (s := { s₁ with flags := some (.ofSub x 0) }) hset rfl
    refine ⟨s₂, ?_, ?_, (hk₁.trans .setFlags).trans (hk₂.mono (Nat.zero_le n))⟩
    · have hzero : s₁.read σ e.width (.int 0) = some 0 := by
        simp [Machine.read, Operand.int, Immediate.value]
      rw [List.append_assoc, run_append_of hs₁, ← hs₂, ← hview₁]
      exact run_cons_of (exec_cmp (r := ⟨.ax, e.width, hax⟩) hzero)
    · rw [hview]
      simp [Condition.holds, Flags.ofSub]
  case sCast =>
    obtain ⟨ext, hext, h⟩ := bind_eq_ok_iff.1 h
    cases h
    cases hv
    obtain ⟨s₂, hs₂, hview, -, hk₂⟩ := extendCode_spec σ (s := s₁) hext (.inl rfl)
    refine ⟨s₂, (run_append_of hs₁).trans hs₂, ?_, hk₁.trans (hk₂.mono (Nat.zero_le n))⟩
    rw [hview, if_pos rfl, hview₁]
  case uCast =>
    obtain ⟨ext, hext, h⟩ := bind_eq_ok_iff.1 h
    cases h
    cases hv
    obtain ⟨s₂, hs₂, hview, -, hk₂⟩ := extendCode_spec σ (s := s₁) hext (.inl rfl)
    refine ⟨s₂, (run_append_of hs₁).trans hs₂, ?_, hk₁.trans (hk₂.mono (Nat.zero_le n))⟩
    rw [hview, if_neg (by decide), hview₁]
  -- no other operation is unary
  all_goals cases hv

/-! ## Addresses -/

/-- An operand that is moved has an address that much further. -/
theorem address_moveBy {s : Machine} {m m' : MemRef} {k : Int64} (h : m.moveBy k = .ok m') :
    s.address σ m' = s.address σ m + k.toBitVec.setWidth 32 := by
  obtain ⟨offset, ho, h⟩ := bind_eq_ok_iff.1 h
  obtain ⟨rfl, -⟩ := Checked.addInt_eq_ok_iff.1 ho
  cases h
  simp only [address, Int64.toBitVec_add]
  rw [BitVec.setWidth_add _ _ (by decide)]
  ac_rfl

/-- An address further on. -/
theorem eval_add {m : Ir.Env} {w w' : Width} {a : Ir.Expr} {k : Int64} {v : BitVec w.bits}
    (hw : w = .w32) (hk : (Ir.Expr.int w' k).Exact w)
    (hv : (Ir.Expr.bin w .add a (.int w' k)).eval m = some v) :
    ∃ x, a.eval m = some x ∧ v.setWidth 32 = x.setWidth 32 + k.toBitVec.setWidth 32 := by
  obtain ⟨x, hx, hv⟩ := Option.bind_eq_some_iff.1 hv
  subst hw
  cases hv
  exact ⟨x, hx, (BitVec.setWidth_eq _).trans (congrArg (x.setWidth 32 + ·) hk.symm)⟩

/-- An address further back. -/
theorem eval_sub {m : Ir.Env} {w w' : Width} {a : Ir.Expr} {k : Int64} {v : BitVec w.bits}
    (hw : w = .w32) (hk : (Ir.Expr.int w' k).Exact w)
    (hv : (Ir.Expr.bin w .sub a (.int w' k)).eval m = some v) :
    ∃ x, a.eval m = some x ∧ v.setWidth 32 = x.setWidth 32 - k.toBitVec.setWidth 32 := by
  obtain ⟨x, hx, hv⟩ := Option.bind_eq_some_iff.1 hv
  subst hw
  cases hv
  exact ⟨x, hx, (BitVec.setWidth_eq _).trans (congrArg (x.setWidth 32 - ·) hk.symm)⟩

/-- An address passes through a node of 32 bits unchanged. -/
theorem setWidth_w32 {w : Width} (hw : w = .w32) (a : Address) :
    ((a.setWidth 64).setWidth w.bits).setWidth 32 = a := by
  subst hw
  simp [Width.bits, Width.bytes]

/-- A reference that takes no code reaches the memory that the expression points to. -/
theorem direct?_spec {s : Machine} {n : Nat} {e : Ir.Expr} (he : e.Mixed) :
    ∀ {m : MemRef} {v : BitVec e.width.bits}, p.direct? e = .ok (some m) → e.width = .w32 →
      e.Whole → e.eval (p.env σ s n) = some v → m.Steady ∧ s.address σ m = v.setWidth 32 := by
  -- by induction on the expression: entities, literals and sums with a constant have an address
  induction he with
  -- what has no address of its own
  | int | var | mem | sign | not | cast => intro m v h; cases h
  | str =>
    rintro m v h hw - hv
    obtain ⟨m', hm, h⟩ := bind_eq_ok_iff.1 h
    cases h
    obtain ⟨entry, l, hentry, hl, rfl⟩ := StringTable.memory_eq_ok_iff.1 hm
    obtain ⟨a, ha, rfl⟩ := Option.map_eq_some_iff.1 hv
    simp only [env, seen, hentry, Option.bind_eq_bind, Option.bind_some, hl, Option.map_some] at ha
    cases ha
    exact ⟨.labelled, address_labelled.trans (setWidth_w32 hw _).symm⟩
  | addr =>
    rintro m v h hw - hv
    obtain ⟨a, ha, rfl⟩ := Option.map_eq_some_iff.1 hv
    obtain ⟨spot, hspot, rfl⟩ := Option.map_eq_some_iff.1 ha
    obtain ⟨e, he, hspot⟩ := spot?_eq_some_iff.1 hspot
    obtain ⟨e', he', h⟩ := bind_eq_ok_iff.1 h
    obtain rfl := Except.ok.inj (he.symm.trans he')
    obtain ⟨st, hst, hm⟩ := bind_eq_ok_iff.1 h
    split at hm
    · cases hm
      have hst := Entity.getStorage_eq_ok_iff.1 hst
      refine ⟨.of_spot hspot hst, ?_⟩
      rw [Entity.address_of_spot hspot hst]
      exact (setWidth_w32 hw _).symm
    · cases hm
  | compare hw hop =>
    intro m v h
    unfold direct? at h
    split at h <;> simp_all [Ir.Op.isCompare]
  | @arithmetic w op l r hw hop hop' hl hr hlw hrw hlit ihl ihr =>
    intro m v h hw hwhole hv
    unfold direct? at h
    split at h <;> rename_i heq
    · cases heq
    · cases heq
    · cases heq
      obtain ⟨m?, hm, h⟩ := bind_eq_ok_iff.1 h
      obtain ⟨x, hx, hv⟩ := eval_add hw hlit hv
      obtain ⟨-, hlw, hwhole⟩ := hwhole (.inl rfl)
      cases m? with
      | none => cases h
      | some m₀ =>
        obtain ⟨m', hm', h⟩ := bind_eq_ok_iff.1 h
        cases h
        obtain ⟨hsteady, hadr⟩ := ihl hm hlw hwhole hx
        exact ⟨hsteady.moveBy hm', by rw [address_moveBy hm', hadr, hv]⟩
    · cases heq
      obtain ⟨m?, hm, h⟩ := bind_eq_ok_iff.1 h
      obtain ⟨x, hx, hv⟩ := eval_sub hw hlit hv
      obtain ⟨-, hlw, hwhole⟩ := hwhole (.inr rfl)
      cases m? with
      | none => cases h
      | some m₀ =>
        obtain ⟨k', hk', h⟩ := bind_eq_ok_iff.1 h
        obtain ⟨m', hm', h⟩ := bind_eq_ok_iff.1 h
        cases h
        obtain ⟨rfl, -⟩ := Checked.negInt_eq_ok_iff.1 hk'
        obtain ⟨hsteady, hadr⟩ := ihl hm hlw hwhole hx
        refine ⟨hsteady.moveBy hm', ?_⟩
        rw [address_moveBy hm', hadr, hv, Int64.toBitVec_neg,
          BitVec.setWidth_neg_of_le (by decide), BitVec.sub_eq_add_neg]
    · cases h

/-- The three ways to reach the memory that an expression points to. -/
theorem addressCode_eq_ok {e : Ir.Expr} {code : Listing} {m : MemRef}
    (h : p.addressCode e = .ok (code, m)) :
    (p.direct? e = .ok (some m) ∧ code = []) ∨
    (p.valueCode e = .ok code ∧ m = .based .eax 0) ∨
    ∃ w w' a k m₀, e = .bin w .add a (.int w' k) ∧ p.addressCode a = .ok (code, m₀) ∧
      m₀.moveBy k = .ok m := by
  -- unless the address is direct or a sum, the value is computed and used as a base
  have hvalue : ∀ {value : Except Fault Listing},
      ((do return (← value, MemRef.based .eax 0)) : Except Fault (Listing × MemRef)) =
        .ok (code, m) → value = .ok code ∧ m = .based .eax 0 := by
    intro value hv
    obtain ⟨c, hc, hv⟩ := bind_eq_ok_iff.1 hv
    cases hv
    exact ⟨hc, rfl⟩
  cases e
  case bin w op l r =>
    obtain ⟨m?, hm, hrest⟩ := bind_eq_ok_iff.1 h
    cases m? with
    | some m' =>
      cases hrest
      exact .inl ⟨hm, rfl⟩
    | none =>
      dsimp only at hrest
      -- a sum with a constant, whose base has the code
      split at hrest
      · rename_i hshift
        split at hshift
        · cases hshift
          obtain ⟨⟨code', m₀⟩, hbase, hmove⟩ := bind_eq_ok_iff.1 hrest
          obtain ⟨m', hm', hcode⟩ := bind_eq_ok_iff.1 hmove
          cases hcode
          exact .inr (.inr ⟨w, _, l, _, m₀, rfl, hbase, hm'⟩)
        · cases hshift
      · exact .inr (.inl (hvalue hrest))
  all_goals
    obtain ⟨m?, hm, hrest⟩ := bind_eq_ok_iff.1 h
    cases m? with
    | some m' =>
      cases hrest
      exact .inl ⟨hm, rfl⟩
    | none => exact .inr (.inl (hvalue hrest))

/-- The code for an address makes the memory there reachable. -/
def Reaches (p : Placement) (σ : Symbols) (e : Ir.Expr) : Prop :=
  ∀ {s : Machine} {n : Nat} {v : BitVec e.width.bits} {code : Listing} {m : MemRef},
    4 * e.depth ≤ n → n ≤ 2 ^ 32 → e.eval (p.env σ s n) = some v →
    p.addressCode e = .ok (code, m) →
    ∃ s', s.run σ code = some s' ∧ m.Steady ∧ s'.address σ m = v.setWidth 32 ∧ s.Keeps n s'

/-- An address reaches its memory if the code of the address is sound, and the code of the base that
a constant is added to. -/
theorem reaches_of_sound {e : Ir.Expr} (he : e.Mixed) (hw : e.width = .w32) (hwhole : e.Whole)
    (hsound : p.Sound σ e)
    (hbase : ∀ {w w' a k}, e = .bin w .add a (.int w' k) → p.Reaches σ a) : p.Reaches σ e := by
  intro s n v code m hd hn hv h
  rcases addressCode_eq_ok h with ⟨hm, rfl⟩ | ⟨hc, rfl⟩ | ⟨w, w', a, k, m₀, rfl, hc, hm⟩
  · obtain ⟨hsteady, hadr⟩ := direct?_spec he hm hw hwhole hv
    exact ⟨s, rfl, hsteady, hadr, .refl⟩
  · obtain ⟨s', hs', hview, hk⟩ := hsound hd hn hv hc
    refine ⟨s', hs', .based (.inl rfl), ?_, hk⟩
    rw [address_based, ← hview, view, hw]
    simp [Width.bits, Width.bytes, Register.eax]
  · have hlit : (Ir.Expr.int w' k).Exact w := by
      cases he with
      | arithmetic _ _ _ _ _ _ _ hlit => exact hlit
      | compare _ hop => cases hop
    obtain ⟨x, hx, hv⟩ := eval_add hw hlit hv
    have hd' : 4 * a.depth ≤ n := by simpa [Ir.Expr.depth, Ir.Expr.isLiteral] using hd
    obtain ⟨s', hs', hsteady, hadr, hk⟩ := hbase rfl hd' hn hx hc
    exact ⟨s', hs', hsteady.moveBy hm, by rw [address_moveBy hm, hadr, hv], hk⟩

/-- A constant of the assembler in `eax`. -/
theorem movImmediate_spec {s : Machine} {n : Nat} {w : Width} (hw : w ≠ .w64) (i : Immediate) :
    Evaluates σ s n [.mov (.imm i) (.reg .eax)] w ((i.value σ).setWidth w.bits) := by
  refine ⟨_, run_cons_of (exec_mov rfl), ?_, .setView (.inl rfl)⟩
  rw [view_of_le (w := .w32) (bits_le hw)]
  exact (congrArg _ (view_setView_same (by decide))).trans
    (BitVec.setWidth_setWidth_of_le _ (bits_le hw))

/-- The symbol of a literal stands in its entry. -/
theorem stringSymbol_eq_ok {i : StringId} {l : String} (h : p.stringSymbol i = .ok l) :
    ∃ e, p.strings.entries[i.index]? = some e ∧ e.symbol = some l := by
  obtain ⟨m, hm, h⟩ := bind_eq_ok_iff.1 h
  obtain ⟨e, l', he, hl, rfl⟩ := StringTable.memory_eq_ok_iff.1 hm
  have hrender : (MemRef.labelled l').render = l' := by
    simp [MemRef.render, MemRef.renderDisplacement, MemRef.renderRegisters, MemRef.labelled]
  rw [hrender] at h
  cases h
  exact ⟨e, he, hl⟩

/-- A variable is loaded from where it is kept. -/
theorem sound_var {w : Width} {i : EntityId} (hw : w ≠ .w64) : p.Sound σ (.var w i) := by
  intro s n v code hd hn hv h
  obtain ⟨spot, hspot, hv⟩ := Option.bind_eq_some_iff.1 hv
  obtain ⟨e, he, hspot⟩ := spot?_eq_some_iff.1 hspot
  obtain ⟨rax, hrax, h⟩ := bind_eq_ok_iff.1 h
  obtain ⟨hax, rfl⟩ := RegisterClass.view_eq_ok_iff.1 hrax
  obtain ⟨e', he', h⟩ := bind_eq_ok_iff.1 h
  obtain rfl := Except.ok.inj (he.symm.trans he')
  obtain ⟨st, hst, h⟩ := bind_eq_ok_iff.1 h
  cases h
  -- the operand of the load is where the storage of the entity is, as the environment reads it
  have hread : s.read σ w st.operand = some v := by
    rw [Entity.getStorage_eq_ok_iff] at hst
    cases spot with
    | slot k =>
      rw [Entity.storage_of_slot hspot] at hst
      cases hst
      rw [← Memory.load_of_load? hv]
      exact congrArg (fun a => some (s.memory.load a w.bytes)) address_based
    | data l =>
      rw [Entity.storage_of_data hspot] at hst
      cases hst
      rw [← Memory.load_of_load? hv]
      exact congrArg (fun a => some (s.memory.load a w.bytes)) address_labelled
    | code f =>
      rw [(Entity.storage_of_code hspot).1] at hst
      cases hst
      cases hv
      exact congrArg some (BitVec.setWidth_setWidth_of_le _ (bits_le_64 w))
  exact ⟨_, run_cons_of (exec_mov (r := ⟨.ax, w, hax⟩) hread), view_setView_same hw,
    .setView (.inl rfl)⟩

/-- The address of a variable is loaded or computed. -/
theorem sound_addr {w : Width} {i : EntityId} (hw : w ≠ .w64) : p.Sound σ (.addr w i) := by
  intro s n v code hd hn hv h
  obtain ⟨a, ha, rfl⟩ := Option.map_eq_some_iff.1 hv
  obtain ⟨spot, hspot, rfl⟩ := Option.map_eq_some_iff.1 ha
  obtain ⟨e, he, hspot⟩ := spot?_eq_some_iff.1 hspot
  obtain ⟨rax, hrax, h⟩ := bind_eq_ok_iff.1 h
  obtain ⟨e', he', h⟩ := bind_eq_ok_iff.1 h
  obtain rfl := Except.ok.inj (he.symm.trans he')
  obtain ⟨st, hst, h⟩ := bind_eq_ok_iff.1 h
  obtain ⟨i?, hi, h⟩ := bind_eq_ok_iff.1 h
  unfold Entity.address? at hi
  rw [hst] at hi
  rw [Entity.getStorage_eq_ok_iff] at hst
  -- an entity of the frame has its address computed, the others are immediates
  cases spot with
  | slot k =>
    rw [Entity.storage_of_slot hspot] at hst
    cases hst
    cases hi
    cases h
    refine ⟨s.setView .ax .w32 (s.address σ (.based .ebp k)), run_cons_of rfl, ?_,
      .setView (.inl rfl)⟩
    rw [view, regs_setView_w32, address_based]
    exact (BitVec.setWidth_setWidth_of_le _ (bits_le_64 w)).symm
  | data l =>
    rw [Entity.storage_of_data hspot] at hst
    cases hst
    cases hi
    cases h
    exact movImmediate_spec hw _
  | code f =>
    obtain ⟨hs, hf⟩ := Entity.storage_of_code hspot
    rw [hs] at hst
    cases hst
    simp only [hf, if_true] at hi
    cases hi
    cases h
    exact movImmediate_spec hw _

/-- What is in memory is loaded from the address that was computed. -/
theorem sound_mem {w : Width} {a : Ir.Expr} (hw : w ≠ .w64) (ha : p.Reaches σ a) :
    p.Sound σ (.mem w a) := by
  intro s n (v : BitVec w.bits) code hd hn hv h
  obtain ⟨x, hx, hv⟩ := Option.bind_eq_some_iff.1 hv
  obtain ⟨rax, hrax, h⟩ := bind_eq_ok_iff.1 h
  obtain ⟨hax, rfl⟩ := RegisterClass.view_eq_ok_iff.1 hrax
  obtain ⟨⟨code', m⟩, hcode', h⟩ := bind_eq_ok_iff.1 h
  cases h
  obtain ⟨s', hs', -, hadr, hk⟩ := ha hd hn hx hcode'
  have hload : s'.memory.load? (Below (s'.regs .sp) n) ((x.setWidth 64).setWidth 32) w = some v :=
    (env_le_of_keeps hk : (p.env σ s n).Le (p.env σ s' n)).load hv
  rw [BitVec.setWidth_setWidth_of_le _ (by decide)] at hload
  have hread : s'.read σ w (.mem m) = some v := by
    rw [Machine.read, hadr, Memory.load_of_load? hload]
  exact ⟨_, (run_append_of hs').trans (run_cons_of (exec_mov (r := ⟨.ax, w, hax⟩) hread)),
    view_setView_same hw, hk.trans (.setView (.inl rfl))⟩

/-- The code of an expression of mixed widths is correct, in both of its uses. -/
theorem mixedCode_spec {e : Ir.Expr} (he : e.Mixed) :
    p.Sound σ e ∧ (e.width = .w32 → e.Whole → p.Reaches σ e) := by
  -- the code for an address falls back on the code for the value
  have reaches : ∀ {e : Ir.Expr}, e.Mixed → p.Sound σ e →
      (e.width = .w32 → e.Whole → ∀ {w w' a k}, e = .bin w .add a (.int w' k) → p.Reaches σ a) →
      p.Sound σ e ∧ (e.width = .w32 → e.Whole → p.Reaches σ e) := fun he hs hb =>
    ⟨hs, fun hw hwhole => reaches_of_sound he hw hwhole hs (hb hw hwhole)⟩
  induction he with
  | int hw =>
    refine reaches (.int hw) ?_ nofun
    intro s n v code hd hn hv h
    obtain ⟨_, -, h⟩ := bind_eq_ok_iff.1 h
    cases h
    cases hv
    exact movImmediate_spec hw _
  | str hw =>
    refine reaches (.str hw) ?_ nofun
    intro s n v code hd hn hv h
    obtain ⟨_, -, h⟩ := bind_eq_ok_iff.1 h
    obtain ⟨l, hl, h⟩ := bind_eq_ok_iff.1 h
    cases h
    obtain ⟨entry, hentry, hl⟩ := stringSymbol_eq_ok hl
    obtain ⟨a, ha, rfl⟩ := Option.map_eq_some_iff.1 hv
    simp only [env, seen, hentry, Option.bind_eq_bind, Option.bind_some, hl, Option.map_some] at ha
    cases ha
    exact movImmediate_spec hw _
  | var hw => exact reaches (.var hw) (sound_var hw) nofun
  | addr hw => exact reaches (.addr hw) (sound_addr hw) nofun
  | mem hw ha haw hwhole ih =>
    exact reaches (.mem hw ha haw hwhole) (sound_mem hw (ih.2 haw hwhole)) nofun
  | @sign w op e hw hop he h ih =>
    refine reaches (.sign hw hop he h) ?_ nofun
    intro s n v code hd hn hv hc
    obtain ⟨_, -, hc⟩ := bind_eq_ok_iff.1 hc
    exact unaryCode_spec ih.1 hc hw (fun _ => h) hd hn hv
  | @not w e hw he ih =>
    refine reaches (.not hw he) ?_ nofun
    intro s n v code hd hn hv hc
    obtain ⟨_, -, hc⟩ := bind_eq_ok_iff.1 hc
    exact unaryCode_spec ih.1 hc hw nofun hd hn hv
  | @cast w op e hw hop he ih =>
    refine reaches (.cast hw hop he) ?_ nofun
    intro s n v code hd hn hv hc
    obtain ⟨_, -, hc⟩ := bind_eq_ok_iff.1 hc
    exact unaryCode_spec ih.1 hc hw (by rcases hop with rfl | rfl <;> nofun) hd hn hv
  | @compare w op l r hw hop hl hr hrw hlit ihl ihr =>
    refine reaches (.compare hw hop hl hr hrw hlit) ?_ ?_
    · intro s n v code hd hn hv hc
      obtain ⟨_, -, hc⟩ := bind_eq_ok_iff.1 hc
      exact binaryCode_spec ihl.1 ihr.1 hc hw (.inl hop) (by rwa [if_pos hop])
        (by rwa [if_pos hop]) hd hn hv
    · rintro - - _ _ _ _ ⟨⟩
      cases hop
  | @arithmetic w op l r hw hop hop' hl hr hlw hrw hlit ihl ihr =>
    refine reaches (.arithmetic hw hop hop' hl hr hlw hrw hlit) ?_ ?_
    · intro s n v code hd hn hv hc
      obtain ⟨_, -, hc⟩ := bind_eq_ok_iff.1 hc
      exact binaryCode_spec ihl.1 ihr.1 hc hw (.inr hlw) (by rwa [hop]) (by rwa [hop]) hd hn hv
    · rintro - hwhole _ _ _ _ ⟨⟩
      obtain ⟨-, hlw, hwhole⟩ := hwhole (.inl rfl)
      exact ihl.2 hlw hwhole

/-- **The code of an expression is correct**, in both of its uses. -/
theorem exprCode_spec {e : Ir.Expr} (he : e.Consistent) :
    p.Sound σ e ∧ (e.width = .w32 → p.Reaches σ e) :=
  ⟨(mixedCode_spec he.mixed).1, fun hw => (mixedCode_spec he.mixed).2 hw (he.whole hw)⟩

end Placement

end Backend386
