import Backend386.Proofs.Ir.Eval

/-!
# Operands of other widths

The operands of an operator need not have its width. A wider operand is cut; a narrower one is
filled up with zeros, except that operators on signed numbers fill with the sign and literals stand
as they are written. In the mixed expressions here the exceptions make no difference.

* `Ir.Expr.Mixed` — the expressions without calls whose widths may differ;
* `Ir.Expr.Whole` — the addresses whose parts have 32 bits, as far as a reference takes them apart.
-/

namespace Backend386

/-- What is widened for an operator is filled up with zeros, or there is nothing to widen. -/
def Width.Fills (signed : Bool) (narrow wide : Width) : Prop :=
  wide.bytes ≤ narrow.bytes ∨ signed = false

theorem Width.Fills.of_eq {signed : Bool} {narrow wide : Width} (h : narrow = wide) :
    Fills signed narrow wide :=
  .inl (h ▸ Nat.le_refl _)

namespace Ir.Expr

/-- A literal that is the same number at the width `w` as at its own. -/
def Exact (w : Width) : Expr → Prop
  | int w' v => v.toBitVec.setWidth w.bits = (v.toBitVec.setWidth w'.bits).setWidth w.bits
  | _ => True

theorem exact_of_le {w : Width} {e : Expr} (h : w.bytes ≤ e.width.bytes) : e.Exact w := by
  cases e with
  | int w' v => exact (BitVec.setWidth_setWidth_of_le _ (Nat.mul_le_mul_left 8 h)).symm
  | _ => trivial

/-- An address that is a sum or a difference with a literal has 32 bits, and so has what the literal
is added to or subtracted from. -/
def Whole : Expr → Prop
  | bin w op l (int _ _) => op = .add ∨ op = .sub → w = .w32 ∧ l.width = .w32 ∧ l.Whole
  | _ => True

/-- An expression without calls whose operands are cut or filled up with zeros. Addresses have
32 bits. -/
inductive Mixed : Expr → Prop where
  | int {w : Width} {v : Int64} (hw : w ≠ .w64) : Mixed (int w v)
  | str {w : Width} {s : StringId} (hw : w ≠ .w64) : Mixed (str w s)
  | var {w : Width} {v : EntityId} (hw : w ≠ .w64) : Mixed (var w v)
  | addr {w : Width} {v : EntityId} (hw : w ≠ .w64) : Mixed (addr w v)
  | mem {w : Width} {a : Expr} (hw : w ≠ .w64) (ha : a.Mixed) (h : a.width = .w32)
    (hwhole : a.Whole) : Mixed (mem w a)
  /-- negation and complement -/
  | sign {w : Width} {op : Op} {e : Expr} (hw : w ≠ .w64) (hop : op = .neg ∨ op = .bitNot)
    (he : e.Mixed) (h : e.width = w) : Mixed (uni w op e)
  | not {w : Width} {e : Expr} (hw : w ≠ .w64) (he : e.Mixed) : Mixed (uni w .not e)
  | cast {w : Width} {op : Op} {e : Expr} (hw : w ≠ .w64) (hop : op = .sCast ∨ op = .uCast)
    (he : e.Mixed) : Mixed (uni w op e)
  | compare {w : Width} {op : Op} {l r : Expr} (hw : w ≠ .w64) (hop : op.isCompare = true)
    (hl : l.Mixed) (hr : r.Mixed) (hrw : Width.Fills op.isSigned r.width l.width)
    (hlit : r.Exact l.width) : Mixed (bin w op l r)
  | arithmetic {w : Width} {op : Op} {l r : Expr} (hw : w ≠ .w64) (hop : op.isCompare = false)
    (hop' : op.isUnary = false) (hl : l.Mixed) (hr : r.Mixed)
    (hlw : Width.Fills op.isSigned l.width w) (hrw : Width.Fills op.isSigned r.width w)
    (hlit : r.Exact w) : Mixed (bin w op l r)

theorem Mixed.width_ne {e : Expr} (h : e.Mixed) : e.width ≠ .w64 := by
  cases h <;> assumption

/-- All parts of a consistent address have 32 bits. -/
theorem Consistent.whole {e : Expr} (he : e.Consistent) (hw : e.width = .w32) : e.Whole := by
  induction he with
  | @compare _ op _ r _ hop =>
    cases r with
    | int =>
      rintro (rfl | rfl) <;> cases hop
    | _ => trivial
  | @arithmetic w op l r _ _ _ _ _ hlw _ ihl =>
    cases r with
    | int => exact fun _ => ⟨hw, hlw.trans hw, ihl (hlw.trans hw)⟩
    | _ => trivial
  | _ => trivial

/-- Operands of one width need neither be cut nor filled up. -/
theorem Consistent.mixed {e : Expr} (he : e.Consistent) : e.Mixed := by
  induction he with
  | int hw => exact .int hw
  | str hw => exact .str hw
  | var hw => exact .var hw
  | addr hw => exact .addr hw
  | mem hw ha h ih => exact .mem hw ih h (ha.whole h)
  | sign hw hop _ h ih => exact .sign hw hop ih h
  | not hw _ ih => exact .not hw ih
  | cast hw hop _ ih => exact .cast hw hop ih
  | compare hw hop _ _ h ihl ihr =>
    exact .compare hw hop ihl ihr (.of_eq h.symm) (exact_of_le (by rw [h]))
  | arithmetic hw hop hop' _ _ hlw hrw ihl ihr =>
    exact .arithmetic hw hop hop' ihl ihr (.of_eq hlw) (.of_eq hrw) (exact_of_le (by rw [hrw]))

end Ir.Expr

end Backend386
