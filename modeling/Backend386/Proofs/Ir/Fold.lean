import Backend386.Proofs.Ir.Literals

/-!
# Constant folding keeps values

Folding replaces what can be computed by its value in modular arithmetic, whatever the parts that
cannot be computed stand for. What is left of the operations on literals divides by zero, or has no
value in 64 bits for another reason.

* `Ir.Expr.valueOver` — the value of an expression in modular arithmetic, from the values of the
  parts that folding does not look into;
* `Ir.Expr.Fits` — the widths of an expression fit together and its literals are in range;
* `Ir.Expr.fold_correct` — folding keeps the value.
-/

namespace Backend386.Ir

open Width

namespace Expr

/-! ## The value over parts that are not folded -/

/-- The value of an expression in modular arithmetic. `part` gives the values of the parts that
folding does not look into: variables, addresses, loads and calls. -/
def valueOver (part : (e : Expr) → Option (BitVec e.width.bits)) : Expr → Option Value
  | int w v => some ⟨w, w.low v⟩
  | uni w op e => do
    let x ← e.valueOver part
    (op.unary? w x.2).map (⟨w, ·⟩)
  | bin w op l r => do
    let x ← l.valueOver part
    let y ← r.valueOver part
    (op.result? w x.2 y.2).map (⟨w, ·⟩)
  | e => (part e).map (⟨e.width, ·⟩)

variable {part : (e : Expr) → Option (BitVec e.width.bits)}

/-- Modular arithmetic extends the evaluation that refuses overflow. -/
theorem valueOver_of_eval (m : Env) :
    ∀ (e : Expr) {x : BitVec e.width.bits}, e.eval m = some x →
      e.valueOver (eval m) = some ⟨e.width, x⟩
  | int w v, x, h => by
    obtain rfl := Option.some.inj h
    rfl
  | uni w op e, x, h => by
    obtain ⟨y, hy, hx⟩ := Option.bind_eq_some_iff.1 h
    rw [valueOver, valueOver_of_eval m e hy]
    exact congrArg (Option.map _) hx
  | bin w op l r, x, h => by
    obtain ⟨y, hy, h⟩ := Option.bind_eq_some_iff.1 h
    obtain ⟨z, hz, hx⟩ := Option.bind_eq_some_iff.1 h
    rw [valueOver, valueOver_of_eval m l hy, valueOver_of_eval m r hz]
    exact congrArg (Option.map _) (Op.result?_of_binary? hx)
  | str .., x, h | var .., x, h | addr .., x, h | mem .., x, h | call .., x, h => by
    simp [valueOver, h]

/-- An expression whose literals are in range and whose widths fit together: negation and complement
have the width of their operand, an arithmetic operator that of both operands, and a comparison is
made between operands of one width. -/
def Fits : Expr → Prop
  | int w v => w.Holds v
  | uni w op e => e.Fits ∧ (op = .neg ∨ op = .bitNot → e.width = w)
  | bin w op l r => l.Fits ∧ r.Fits ∧ l.width = r.width ∧ (op.isCompare = false → w = l.width)
  | _ => True

instance decidableFits : (e : Expr) → Decidable e.Fits
  | int w v => inferInstanceAs (Decidable (w.Holds v))
  | uni _ _ e =>
    have := decidableFits e
    inferInstanceAs (Decidable (_ ∧ _))
  | bin _ _ l r =>
    have := decidableFits l
    have := decidableFits r
    inferInstanceAs (Decidable (_ ∧ _ ∧ _ ∧ _))
  | str .. | var .. | addr .. | mem .. | call .. => inferInstanceAs (Decidable True)

/-- An expression is an operand of itself, and an operand of a node is one of its parent. -/
inductive Operand : Expr → Expr → Prop where
  | self (e : Expr) : Operand e e
  | uni {a e : Expr} (w : Width) (op : Op) (h : Operand a e) : Operand a (uni w op e)
  | left {a l : Expr} (w : Width) (op : Op) (r : Expr) (h : Operand a l) : Operand a (bin w op l r)
  | right {a r : Expr} (w : Width) (op : Op) (l : Expr) (h : Operand a r) : Operand a (bin w op l r)

/-- An operand of a unary operation is the operation or one of its operand. -/
theorem operand_uni_iff {a e : Expr} {w : Width} {op : Op} :
    Operand a (uni w op e) ↔ a = uni w op e ∨ Operand a e := by
  constructor
  · rintro (_ | ⟨_, _, h⟩)
    · exact .inl rfl
    · exact .inr h
  · rintro (rfl | h)
    · exact .self _
    · exact .uni w op h

/-- The same for a binary operation. -/
theorem operand_bin_iff {a l r : Expr} {w : Width} {op : Op} :
    Operand a (bin w op l r) ↔ a = bin w op l r ∨ Operand a l ∨ Operand a r := by
  constructor
  · rintro (_ | _ | ⟨_, _, _, h⟩ | ⟨_, _, _, h⟩)
    · exact .inl rfl
    · exact .inr (.inl h)
    · exact .inr (.inr h)
  · rintro (rfl | h | h)
    · exact .self _
    · exact .left w op r h
    · exact .right w op l h

/-- Why an operation on two literals is left in place: it divides by zero, its quotient does not fit
in 64 bits, or it shifts by 64 bits or more. -/
def NoValue (op : Op) (a b : Int64) : Prop :=
  op.divides = true ∧ b = 0 ∨
    (op = .sDiv ∨ op = .sMod) ∧ a = Int64.minValue ∧ b = -1 ∨
    op.shifts = true ∧ ¬ (0 ≤ b ∧ b < 64)

/-- What can not be evaluated has no value at all. -/
theorem noValue_of_evaluate? {op : Op} {w : Width} {a b : Int64} (hop : op.isUnary = false)
    (hb : w.Holds b) (h : op.evaluate? w a b = none) : NoValue op a b := by
  cases op <;> simp [Op.evaluate?, shiftCount?, Op.isUnary] at h hop
  case sDiv | sMod => by_cases hb : b = 0 <;> simp_all [NoValue, Op.divides]
  case uDiv | uMod => exact .inl ⟨rfl, hb.low_eq_zero_iff.1 (Op.zeroExtend_eq_zero_iff.1 h)⟩
  case shl | shr | sar => exact .inr (.inr ⟨rfl, by simpa using h⟩)

theorem evaluate?_zero {op : Op} (hop : op.divides = true) (w : Width) (a : Int64) :
    op.evaluate? w a 0 = none := by
  cases op <;> simp [Op.divides] at hop <;> cases w <;> rfl

/-! ## One node -/

/-- Folding a unary node gives a literal, if the operand is one, or leaves the node. -/
theorem foldUni_cases (w : Width) (op : Op) (e : Expr) :
    (foldUni w op e = uni w op e ∧ (e.isLiteral = true → op.isUnary = false)) ∨
      ∃ w' v v', e = int w' v ∧ foldUni w op e = int w v' := by
  cases e with
  | int w' v =>
    cases op <;> first | exact .inl ⟨rfl, fun _ => rfl⟩ | exact .inr ⟨w', v, _, rfl, rfl⟩
  | _ => exact .inl ⟨rfl, nofun⟩

/-- Folding a binary node gives a literal, if the operator has a value, or leaves the node. -/
theorem foldBin_cases (w : Width) (op : Op) (l r : Expr) :
    (foldBin w op l r = bin w op l r ∧
        ∀ wl a wr b, l = int wl a → r = int wr b → op.evaluate? wl a b = none) ∨
      ∃ wl a wr b v, l = int wl a ∧ r = int wr b ∧ op.evaluate? wl a b = some v ∧
        foldBin w op l r = int w (w.signExtend v) := by
  -- only two literals are folded, and only if the operation has a value there
  cases l with
  | int wl a =>
    cases r with
    | int wr b =>
      cases h : op.evaluate? wl a b with
      | none =>
        refine .inl ⟨by simp only [foldBin, h], ?_⟩
        rintro _ _ _ _ ⟨⟩ ⟨⟩
        exact h
      | some v => exact .inr ⟨wl, a, wr, b, v, rfl, rfl, h, by simp only [foldBin, h]⟩
    | _ => exact .inl ⟨rfl, by rintro _ _ _ _ - ⟨⟩⟩
  | _ => exact .inl ⟨rfl, by rintro _ _ _ _ ⟨⟩⟩

theorem width_foldUni (w : Width) (op : Op) (e : Expr) : (foldUni w op e).width = w := by
  obtain ⟨h, -⟩ | ⟨_, _, _, -, h⟩ := foldUni_cases w op e <;> rw [h] <;> rfl

theorem width_foldBin (w : Width) (op : Op) (l r : Expr) : (foldBin w op l r).width = w := by
  obtain ⟨h, -⟩ | ⟨_, _, _, _, _, -, -, -, h⟩ := foldBin_cases w op l r <;> rw [h] <;> rfl

@[simp] theorem width_fold (e : Expr) : e.fold.width = e.width := by
  cases e <;> first | rfl | exact width_foldUni .. | exact width_foldBin ..

/-- Folding a unary node keeps its value. -/
theorem valueOver_foldUni {w : Width} {op : Op} {e : Expr} (he : e.Fits)
    (hw : op = .neg ∨ op = .bitNot → e.width = w) :
    (foldUni w op e).valueOver part = (uni w op e).valueOver part := by
  cases e with
  | int w' v =>
    have hv : w'.Holds v := he
    cases op <;> try rfl
    case neg =>
      obtain rfl : w' = w := hw (.inl rfl)
      simp [foldUni, valueOver, Op.unary?, low_neg]
    case bitNot =>
      obtain rfl : w' = w := hw (.inr rfl)
      simp [foldUni, valueOver, Op.unary?, low_not]
    case not =>
      have hzero : (w'.low v == 0) = decide (v = 0) := by
        rw [Bool.eq_iff_iff, beq_iff_eq, decide_eq_true_eq, hv.low_eq_zero_iff]
      simp only [foldUni, valueOver, Op.unary?, low_truthValue, ← hzero]
      rfl
    case sCast => simp [foldUni, valueOver, Op.unary?, hv.low w]
    case uCast => simp [foldUni, valueOver, Op.unary?, low_zeroExtend]
  | _ => rfl

/-- Folding a binary node keeps its value. -/
theorem valueOver_foldBin {w : Width} {op : Op} {l r : Expr} (hl : l.Fits) (hr : r.Fits)
    (hlr : l.width = r.width) (hw : op.isCompare = false → w = l.width) :
    (foldBin w op l r).valueOver part = (bin w op l r).valueOver part := by
  obtain ⟨h, -⟩ | ⟨wl, a, wr, b, v, rfl, rfl, hv, h⟩ := foldBin_cases w op l r
  · rw [h]
  · obtain rfl : wl = wr := hlr
    have hresult := Op.low_evaluate?_of_holds hw hl hr hv
    rw [h, valueOver, valueOver, valueOver, valueOver, low_signExtend]
    exact (congrArg (Option.map fun x => (⟨w, x⟩ : Value)) hresult).symm

/-- Folding keeps literals within their widths. -/
theorem fits_foldUni {w : Width} {op : Op} {e : Expr} (he : e.Fits)
    (hw : op = .neg ∨ op = .bitNot → e.width = w) : (foldUni w op e).Fits := by
  cases e with
  | int w' v =>
    cases op
    case neg | bitNot | sCast | uCast => exact holds_signExtend w _
    case not => exact holds_truthValue w _
    all_goals exact ⟨he, hw⟩
  | _ => exact ⟨he, hw⟩

/-- So does folding a binary operation. -/
theorem fits_foldBin {w : Width} {op : Op} {l r : Expr} (hl : l.Fits) (hr : r.Fits)
    (hlr : l.width = r.width) (hw : op.isCompare = false → w = l.width) :
    (foldBin w op l r).Fits := by
  obtain ⟨h, -⟩ | ⟨_, _, _, _, v, -, -, -, h⟩ := foldBin_cases w op l r
  · rw [h]
    exact ⟨hl, hr, hlr, hw⟩
  · rw [h]
    exact holds_signExtend w v

/-! ## Whole expressions -/

/-- Literals stay in range, and widths still fit together. -/
theorem Fits.fold : ∀ {e : Expr}, e.Fits → e.fold.Fits
  | uni w op e, h => fits_foldUni h.1.fold (by rw [width_fold]; exact h.2)
  | bin w op l r, ⟨hl, hr, hlr, hw⟩ =>
    fits_foldBin hl.fold hr.fold (by rwa [width_fold, width_fold]) (by rwa [width_fold])
  | int .., h | str .., h | var .., h | addr .., h | mem .., h | call .., h => h

/-- Folding keeps the value. -/
theorem valueOver_fold : ∀ {e : Expr}, e.Fits → e.fold.valueOver part = e.valueOver part
  | uni w op e, h => by
    rw [Expr.fold, valueOver_foldUni h.1.fold (by rw [width_fold]; exact h.2), valueOver,
      valueOver_fold h.1, valueOver]
  | bin w op l r, ⟨hl, hr, hlr, hw⟩ => by
    rw [Expr.fold, valueOver_foldBin hl.fold hr.fold (by rwa [width_fold, width_fold])
      (by rwa [width_fold]), valueOver, valueOver_fold hl, valueOver_fold hr, valueOver]
  | int .., _ | str .., _ | var .., _ | addr .., _ | mem .., _ | call .., _ => rfl

/-- What is folded already is left alone. -/
theorem fold_fold : ∀ e : Expr, e.fold.fold = e.fold
  | uni w op e => by
    rw [Expr.fold]
    obtain ⟨h, -⟩ | ⟨_, _, _, -, h⟩ := foldUni_cases w op e.fold
    · rw [h, Expr.fold, fold_fold e, h]
    · rw [h]
      rfl
  | bin w op l r => by
    rw [Expr.fold]
    obtain ⟨h, -⟩ | ⟨_, _, _, _, _, -, -, -, h⟩ := foldBin_cases w op l.fold r.fold
    · rw [h, Expr.fold, fold_fold l, fold_fold r, h]
    · rw [h]
      rfl
  | int .. | str .. | var .. | addr .. | mem .. | call .. => rfl

/-- Each operand fits if the whole does. -/
theorem Fits.of_operand {a e : Expr} (h : Operand a e) (he : e.Fits) : a.Fits := by
  induction h with
  | self => exact he
  | uni _ _ _ ih => exact ih he.1
  | left _ _ _ _ ih => exact ih he.1
  | right _ _ _ _ ih => exact ih he.2.1

/-! ## What is left in place -/

theorem foldUni_of_operand {w w' : Width} {op op' : Op} {l r e : Expr}
    (h : Operand (bin w op l r) e) : foldUni w' op' e = uni w' op' e := by
  obtain ⟨h', -⟩ | ⟨_, _, _, rfl, -⟩ := foldUni_cases w' op' e
  · exact h'
  · cases h

/-- An operation on an operand that stayed an operation is not folded. -/
theorem foldBin_of_operand {w w' : Width} {op op' : Op} {l r a b : Expr}
    (h : Operand (bin w op l r) a ∨ Operand (bin w op l r) b) :
    foldBin w' op' a b = bin w' op' a b := by
  obtain ⟨h', -⟩ | ⟨_, _, _, _, _, rfl, rfl, -, -⟩ := foldBin_cases w' op' a b
  · exact h'
  · obtain h | h := h <;> cases h

/-- A division by zero stays where it is. -/
theorem operand_fold_of_zero {w w' : Width} {op : Op} {l r e : Expr}
    (h : Operand (bin w op l r) e) (hop : op.divides = true) (hr : r.fold = int w' 0) :
    Operand (bin w op l.fold r.fold) e.fold := by
  induction h with
  | self =>
    obtain ⟨h, -⟩ | ⟨_, _, _, _, _, -, hb, hv, -⟩ := foldBin_cases w op l.fold r.fold
    · rw [Expr.fold, h]
      exact .self _
    · rw [hr] at hb
      cases hb
      rw [evaluate?_zero hop] at hv
      cases hv
  | uni w op _ ih =>
    rw [Expr.fold, foldUni_of_operand ih]
    exact .uni w op ih
  | left w op _ _ ih =>
    rw [Expr.fold, foldBin_of_operand (.inl ih)]
    exact .left w op _ ih
  | right w op _ _ ih =>
    rw [Expr.fold, foldBin_of_operand (.inr ih)]
    exact .right w op _ ih

/-- Every unary operation on a literal is folded. -/
theorem not_isUnary_of_left {w w' : Width} {op : Op} {v : Int64} :
    ∀ {e : Expr}, Operand (uni w op (int w' v)) e.fold → op.isUnary = false
  | uni w'' op' e, h => by
    rw [Expr.fold] at h
    obtain ⟨heq, hop⟩ | ⟨_, _, _, -, heq⟩ := foldUni_cases w'' op' e.fold
    · rw [heq, operand_uni_iff] at h
      obtain h | h := h
      · obtain ⟨rfl, rfl, hint⟩ := uni.inj h
        exact hop (hint ▸ rfl)
      · exact not_isUnary_of_left h
    · rw [heq] at h
      nomatch h
  | bin w'' op' l r, h => by
    rw [Expr.fold] at h
    obtain ⟨heq, -⟩ | ⟨_, _, _, _, _, -, -, -, heq⟩ := foldBin_cases w'' op' l.fold r.fold
    · rw [heq, operand_bin_iff] at h
      obtain h | h | h := h
      · nomatch h
      · exact not_isUnary_of_left h
      · exact not_isUnary_of_left h
    · rw [heq] at h
      nomatch h
  | int .., h | str .., h | var .., h | addr .., h | mem .., h | call .., h => nomatch h

/-- Every binary operation on literals that has a value is folded. -/
theorem evaluate?_of_left {w wl wr : Width} {op : Op} {a b : Int64} :
    ∀ {e : Expr}, Operand (bin w op (int wl a) (int wr b)) e.fold → op.evaluate? wl a b = none
  | uni w'' op' e, h => by
    rw [Expr.fold] at h
    obtain ⟨heq, -⟩ | ⟨_, _, _, -, heq⟩ := foldUni_cases w'' op' e.fold
    · rw [heq, operand_uni_iff] at h
      obtain h | h := h
      · nomatch h
      · exact evaluate?_of_left h
    · rw [heq] at h
      nomatch h
  | bin w'' op' l r, h => by
    rw [Expr.fold] at h
    -- what is left of a node with two literals is one that has no value
    obtain ⟨heq, hnone⟩ | ⟨_, _, _, _, _, -, -, -, heq⟩ := foldBin_cases w'' op' l.fold r.fold
    · rw [heq, operand_bin_iff] at h
      obtain h | h | h := h
      · obtain ⟨-, rfl, hl, hr⟩ := bin.inj h
        exact hnone _ _ _ _ hl.symm hr.symm
      · exact evaluate?_of_left h
      · exact evaluate?_of_left h
    · rw [heq] at h
      nomatch h
  | int .., h | str .., h | var .., h | addr .., h | mem .., h | call .., h => nomatch h

/-! ## Folding is right -/

/-- Folding keeps the width and the value of an expression whatever the parts that it does not look
into stand for. Its literals are in range. Divisions by zero are left in place; of the other
operations on literals, only those are left that have no value in 64 bits. Folding again changes
nothing. -/
theorem fold_correct {e : Expr} (h : e.Fits) :
    e.fold.width = e.width ∧
      (∀ part, e.fold.valueOver part = e.valueOver part) ∧
      (∀ w v, Operand (int w v) e.fold → w.Holds v) ∧
      (∀ w op l r, Operand (bin w op l r) e → op.divides = true → r.fold = int r.width 0 →
        Operand (bin w op l.fold r.fold) e.fold) ∧
      (∀ w op w' v, Operand (uni w op (int w' v)) e.fold → op.isUnary = false) ∧
      (∀ w op wl a wr b, Operand (bin w op (int wl a) (int wr b)) e.fold → op.isUnary = false →
        NoValue op a b) ∧
      e.fold.fold = e.fold := by
  refine ⟨width_fold e, fun part => valueOver_fold h, ?_, ?_, ?_, ?_, fold_fold e⟩
  · intro w v hv
    exact h.fold.of_operand hv
  · intro w op l r hd hop hr
    exact operand_fold_of_zero hd hop hr
  · intro w op w' v hu
    exact not_isUnary_of_left hu
  · intro w op wl a wr b hb hop
    obtain ⟨-, hr, hlr, -⟩ : (bin w op (int wl a) (int wr b)).Fits := h.fold.of_operand hb
    obtain rfl : wl = wr := hlr
    exact noValue_of_evaluate? hop hr (evaluate?_of_left hb)

/-- `(-128 / -1 < 0) + x / ((y & 0) % 0)`: the quotient of two chars wraps to a negative one, and
the remainder by zero keeps all that it is part of. -/
def wrappedQuotient : Expr :=
  bin .w32 .add
    (bin .w32 .sLt (bin .w8 .sDiv (int .w8 (-128)) (int .w8 (-1))) (int .w8 0))
    (bin .w32 .uDiv (var .w32 ⟨0⟩)
      (bin .w32 .sMod (bin .w32 .bitAnd (var .w32 ⟨1⟩) (int .w32 0)) (int .w32 0)))

/-- A quotient wraps around, and the divisions by zero stay. -/
theorem fold_correct_wrappedQuotient :
    wrappedQuotient.Fits ∧
      wrappedQuotient.fold =
        bin .w32 .add (int .w32 1) (bin .w32 .uDiv (var .w32 ⟨0⟩)
          (bin .w32 .sMod (bin .w32 .bitAnd (var .w32 ⟨1⟩) (int .w32 0)) (int .w32 0))) ∧
      ∀ part, wrappedQuotient.fold.valueOver part = wrappedQuotient.valueOver part :=
  ⟨by decide, by rfl, (fold_correct (by decide)).2.1⟩

end Expr

end Backend386.Ir
