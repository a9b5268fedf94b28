import Backend386.I386.Placement
import Backend386.Proofs.Ir.Fold

/-!
# Spellings of literals

The same word can be written as several literals: all bits of an unsigned int are set in 4294967295
and in -1. Operators that mean the same for signed and for unsigned numbers, and the unsigned ones,
do not tell such spellings apart when they are folded. Equality does, when it compares two literals
that are not the results of other operations; where those are in range, what is folded into static
data is what the code would compute.

* `Ir.Expr.Signless`, `Ir.Expr.ComparesInRange` — expressions of such operators on literals;
* `Ir.Expr.Respelled` — an expression with other spellings of its literals;
* `Ir.Expr.fold_respelled` — folding does not tell them apart;
* `Ir.Expr.fold_tells_apart` — equality does, where literals are out of range.
-/

namespace Backend386

open Ir (Value)

/-- The word that a directive stores. -/
def Directive.word? : Directive → Option Value
  | byte v => some ⟨.w8, Width.w8.low v⟩
  | value v => some ⟨.w16, Width.w16.low v⟩
  | long (.int v) => some ⟨.w32, Width.w32.low v⟩
  | quad (.int v) => some ⟨.w64, Width.w64.low v⟩
  | _ => none

/-- A literal is stored as its low bits. -/
theorem Placement.dataDirective_int (p : Placement) (w : Width) (v : Int64) :
    ∃ d, p.dataDirective (.int w v) w.bytes = .ok d ∧ d.word? = some ⟨w, w.low v⟩ := by
  cases w
  · exact ⟨.byte v, rfl, rfl⟩
  · exact ⟨.value v, rfl, rfl⟩
  · exact ⟨.long (.int v), rfl, rfl⟩
  · exact ⟨.quad (.int v), rfl, rfl⟩

/-- Literals have the same low bits iff they differ by a multiple of the modulus. -/
theorem Width.low_eq_iff {w : Width} {a b : Int64} :
    w.low a = w.low b ↔ (2 ^ w.bits : Int) ∣ b.toInt - a.toInt := by
  have hsub : a.toInt - b.toInt = -(b.toInt - a.toInt) := by omega
  rw [← BitVec.toInt_inj, toInt_low, toInt_low, Int.bmod_eq_bmod_iff_bmod_sub_eq_zero,
    ← Int.dvd_iff_bmod_eq_zero, hsub, Int.dvd_neg]
  norm_cast

namespace Ir.Expr

open Width

/-- An expression of literals and of operators that mean the same for signed and for unsigned
numbers or are unsigned, between operands of one width. -/
def Signless : Expr → Prop
  | int .. => True
  | uni w op e => e.Signless ∧ (op = .uCast ∨ (op = .neg ∨ op = .bitNot) ∧ e.width = w)
  | bin w op l r =>
    l.Signless ∧ r.Signless ∧ l.width = r.width ∧ (op.isCompare = false → w = l.width) ∧
      (op.ignoresSpelling = true ∨ op = .eq ∨ op = .ne)
  | _ => False

/-- A literal that is written in the signed range of its width, or anything else. -/
def InRange : Expr → Prop
  | int w v => w.Holds v
  | _ => True

/-- The literals that are compared for equality as they stand are in range. -/
def ComparesInRange : Expr → Prop
  | uni _ _ e => e.ComparesInRange
  | bin _ op l r =>
    l.ComparesInRange ∧ r.ComparesInRange ∧ (op = .eq ∨ op = .ne → l.InRange ∧ r.InRange)
  | _ => True

/-- The same expression, with literals that are congruent modulo the power of two of their width. -/
inductive Respelled : Expr → Expr → Prop where
  | int {w : Width} {a b : Int64} (h : (2 ^ w.bits : Int) ∣ b.toInt - a.toInt) :
    Respelled (int w a) (int w b)
  | uni {e e' : Expr} (w : Width) (op : Op) (h : Respelled e e') :
    Respelled (uni w op e) (uni w op e')
  | bin {l l' r r' : Expr} (w : Width) (op : Op) (hl : Respelled l l') (hr : Respelled r r') :
    Respelled (bin w op l r) (bin w op l' r')

variable {part : (e : Expr) → Option (BitVec e.width.bits)} {e e' : Expr}

theorem Respelled.width (h : Respelled e e') : e.width = e'.width := by
  cases h <;> rfl

/-- Spelling a literal differently adds no sign. -/
theorem Respelled.signless (h : Respelled e e') (he : e.Signless) : e'.Signless := by
  induction h with
  | int => trivial
  | uni w op h ih => exact ⟨ih he.1, h.width ▸ he.2⟩
  | bin w op hl hr ihl ihr =>
    obtain ⟨hl', hr', hlr, hw, hop⟩ := he
    exact ⟨ihl hl', ihr hr', hl.width ▸ hr.width ▸ hlr, hl.width ▸ hw, hop⟩

/-- Modular arithmetic looks at the low bits of literals only. -/
theorem Respelled.valueOver (h : Respelled e e') : e.valueOver part = e'.valueOver part := by
  induction h with
  | int h => rw [Expr.valueOver, Expr.valueOver, low_eq_iff.2 h]
  | uni w op _ ih => rw [Expr.valueOver, Expr.valueOver, ih]
  | bin w op _ _ ihl ihr => rw [Expr.valueOver, Expr.valueOver, ihl, ihr]

/-- The literal that an expression is folded to is its value. One that is the result of an operation
is in range. -/
def FoldsTo (part : (e : Expr) → Option (BitVec e.width.bits)) (e : Expr) (w : Width) (v : Int64) :
    Prop :=
  e.fold = int w v ∧ e.valueOver part = some ⟨w, w.low v⟩ ∧ (e.InRange → w.Holds v)

/-- An expression that folding leaves without a literal has no value. -/
def FoldsNot (part : (e : Expr) → Option (BitVec e.width.bits)) (e : Expr) : Prop :=
  e.fold.isLiteral = false ∧ e.valueOver part = none

theorem FoldsNot.ne_int (h : FoldsNot part e) {w : Width} {v : Int64} : e.fold ≠ int w v := by
  intro heq
  have hfold := h.1
  rw [heq] at hfold
  cases hfold

theorem FoldsTo.width {w : Width} {v : Int64} (h : FoldsTo part e w v) : e.width = w := by
  rw [← width_fold, h.1]
  rfl

/-- What folds to a literal still does so below a unary operation. -/
theorem FoldsTo.uni {w w' : Width} {v : Int64} (h : FoldsTo part e w' v) {op : Op}
    (hop : op = .uCast ∨ (op = .neg ∨ op = .bitNot) ∧ e.width = w) :
    ∃ v', FoldsTo part (uni w op e) w v' := by
  obtain rfl := h.width
  obtain ⟨hfold, hvalue, -⟩ := h
  have hnode (v' : Int64) (hn : (Expr.uni w op e).fold = int w (w.signExtend v'))
      (hv : op.unary? w (e.width.low v) = some (w.low v')) :
      FoldsTo part (Expr.uni w op e) w (w.signExtend v') := by
    refine ⟨hn, ?_, fun _ => holds_signExtend w v'⟩
    rw [Expr.valueOver, hvalue, low_signExtend]
    exact congrArg (Option.map fun x => (⟨w, x⟩ : Value)) hv
  obtain rfl | ⟨rfl | rfl, rfl⟩ := hop
  · refine ⟨_, hnode _ (by rw [Expr.fold, hfold, foldUni]) ?_⟩
    rw [low_zeroExtend]
    rfl
  · refine ⟨_, hnode _ (by rw [Expr.fold, hfold, foldUni]) ?_⟩
    rw [low_neg, Op.unary?, BitVec.setWidth_eq]
  · refine ⟨_, hnode _ (by rw [Expr.fold, hfold, foldUni]) ?_⟩
    rw [low_not, Op.unary?, BitVec.setWidth_eq]

/-- An operation on what does not fold to a literal stays one. -/
theorem FoldsNot.uni (h : FoldsNot part e) (w : Width) (op : Op) :
    FoldsNot part (uni w op e) := by
  refine ⟨?_, by rw [Expr.valueOver, h.2]; rfl⟩
  rw [Expr.fold]
  obtain ⟨h', -⟩ | ⟨_, _, _, h', -⟩ := foldUni_cases w op e.fold
  · rw [h']
    rfl
  · exact absurd h' h.ne_int

/-- The same for either operand of a binary operation. -/
theorem FoldsNot.bin {l r : Expr} (h : FoldsNot part l ∨ FoldsNot part r) (w : Width) (op : Op) :
    FoldsNot part (bin w op l r) := by
  constructor
  · rw [Expr.fold]
    obtain ⟨h', -⟩ | ⟨_, _, _, _, _, hl, hr, -, -⟩ := foldBin_cases w op l.fold r.fold
    · rw [h']
      rfl
    · obtain h | h := h
      · exact absurd hl h.ne_int
      · exact absurd hr h.ne_int
  · rw [Expr.valueOver]
    obtain ⟨-, h⟩ | ⟨-, h⟩ := h <;> rw [h]
    · rfl
    · cases l.valueOver part <;> rfl

/-- Folding a comparison or a calculation that does not look at spellings. -/
theorem FoldsTo.bin {l r : Expr} {w w' : Width} {a b : Int64} (hl : FoldsTo part l w' a)
    (hr : FoldsTo part r w' b) {op : Op} (hw : op.isCompare = false → w = w')
    (hop : op.ignoresSpelling = true ∨ (op = .eq ∨ op = .ne) ∧ l.InRange ∧ r.InRange) :
    (∃ v, FoldsTo part (bin w op l r) w v) ∨ FoldsNot part (bin w op l r) := by
  have hvalue : (Expr.bin w op l r).valueOver part =
      (op.result? w (w'.low a) (w'.low b)).map (⟨w, ·⟩) := by
    rw [Expr.valueOver, hl.2.1, hr.2.1]
    rfl
  -- comparisons for equality depend on the spelling, and both of their operands are in range
  have hresult : op.result? w (w'.low a) (w'.low b) = (op.evaluate? w' a b).map w.low := by
    obtain hop | ⟨hop, hil, hir⟩ := hop
    · rw [Op.low_evaluate? hop hw]
    · cases hv : op.evaluate? w' a b with
      | none => obtain rfl | rfl := hop <;> cases hv
      | some v => exact Op.low_evaluate?_of_holds hw (hl.2.2 hil) (hr.2.2 hir) hv
  rw [hresult] at hvalue
  rw [FoldsNot, Expr.fold, hl.1, hr.1]
  -- a division by zero has no value and stays, everything else folds
  cases hv : op.evaluate? w' a b with
  | none =>
    refine .inr ⟨?_, by rw [hvalue, hv]; rfl⟩
    rw [foldBin, hv]
    rfl
  | some v =>
    refine .inl ⟨w.signExtend v, ?_, ?_, fun _ => holds_signExtend w v⟩
    · rw [Expr.fold, hl.1, hr.1, foldBin, hv]
    · rw [hvalue, hv, low_signExtend]
      rfl

/-- Folding such an expression gives the literal of its value, if it has one. -/
theorem fold_signless (part : (e : Expr) → Option (BitVec e.width.bits)) :
    ∀ {e : Expr}, e.Signless → e.ComparesInRange →
      (∃ v, FoldsTo part e e.width v) ∨ FoldsNot part e
  | int w v, _, _ => .inl ⟨v, rfl, rfl, id⟩
  | uni w op e, ⟨he, hop⟩, hc => by
    obtain ⟨v, h⟩ | h := fold_signless part he hc
    · exact .inl (h.uni hop)
    · exact .inr (h.uni w op)
  | bin w op l r, ⟨hl, hr, hlr, hw, hop⟩, ⟨hcl, hcr, hc⟩ => by
    obtain ⟨a, ha⟩ | h := fold_signless part hl hcl
    · obtain ⟨b, hb⟩ | h := fold_signless part hr hcr
      · exact ha.bin (hlr ▸ hb) hw (hop.imp_right fun h => ⟨h, hc h⟩)
      · exact .inr (.bin (.inr h) w op)
    · exact .inr (.bin (.inl h) w op)

/-! ## Spellings are not told apart -/

/-- Where the literals that are compared as they stand are in range, folding an expression with
other spellings of its literals gives a literal that differs by a multiple of the power of two of
the width, or none again. The directive that stores the folded value in static data stores the word
that the expression evaluates to. -/
theorem fold_respelled (h : Respelled e e') (hs : e.Signless) (hc : e.ComparesInRange)
    (hc' : e'.ComparesInRange) :
    e.fold.isLiteral = e'.fold.isLiteral ∧
      (∀ w v w' v', e.fold = int w v → e'.fold = int w' v' →
        w = w' ∧ (2 ^ w.bits : Int) ∣ v'.toInt - v.toInt) ∧
      ∀ m x, e.eval m = some x → ∀ p : Placement,
        ∃ d, p.dataDirective e.fold e.width.bytes = .ok d ∧ d.word? = some ⟨e.width, x⟩ := by
  have hfold (part) := fold_signless part hs hc
  have hfold' (part) := fold_signless part (h.signless hs) hc'
  refine ⟨?_, ?_, ?_⟩
  -- whether anything folds depends on its value, and this is the same for both
  · obtain ⟨v, hv⟩ | hn := hfold (fun _ => none)
    · obtain ⟨v', hv'⟩ | hn' := hfold' (fun _ => none)
      · rw [hv.1, hv'.1]
        rfl
      · rw [FoldsNot, ← h.valueOver, hv.2.1] at hn'
        cases hn'.2
    · obtain ⟨v', hv'⟩ | hn' := hfold' (fun _ => none)
      · rw [FoldsNot, h.valueOver, hv'.2.1] at hn
        cases hn.2
      · rw [hn.1, hn'.1]
  -- both literals have the value of the expression in their low bits
  · intro w v w' v' hv hv'
    obtain ⟨a, ha⟩ | hn := hfold (fun _ => none)
    · obtain ⟨b, hb⟩ | hn := hfold' (fun _ => none)
      · obtain ⟨rfl, rfl⟩ := Expr.int.inj (hv.symm.trans ha.1)
        obtain ⟨rfl, rfl⟩ := Expr.int.inj (hv'.symm.trans hb.1)
        refine ⟨h.width, low_eq_iff.1 ?_⟩
        have hsame := (ha.2.1.symm.trans h.valueOver).trans hb.2.1
        rw [← h.width] at hsame
        simpa using hsame
      · exact absurd hv' hn.ne_int
    · exact absurd hv hn.ne_int
  -- what has a value at run time has folded to that value
  · intro m x hx p
    have hvalue := valueOver_of_eval m e hx
    obtain ⟨v, hv⟩ | hn := hfold (eval m)
    · obtain ⟨d, hd, hword⟩ := p.dataDirective_int e.width v
      refine ⟨d, hv.1 ▸ hd, ?_⟩
      rw [hword, ← hvalue, hv.2.1]
    · cases hn.2.symm.trans hvalue

/-- The sum on the left is spelled with its full width, and with a sign. -/
theorem fold_respelled_sum :
    Respelled (bin .w32 .eq (bin .w32 .add (int .w32 4294967295) (int .w32 2)) (int .w32 1))
        (bin .w32 .eq (bin .w32 .add (int .w32 (-1)) (int .w32 2)) (int .w32 1)) ∧
      Signless (bin .w32 .eq (bin .w32 .add (int .w32 4294967295) (int .w32 2)) (int .w32 1)) ∧
      (bin .w32 .eq (bin .w32 .add (int .w32 4294967295) (int .w32 2)) (int .w32 1)).fold =
        int .w32 1 ∧
      (bin .w32 .eq (bin .w32 .add (int .w32 (-1)) (int .w32 2)) (int .w32 1)).fold =
        int .w32 1 ∧
      (2 ^ Width.w32.bits : Int) ∣ (1 : Int64).toInt - (1 : Int64).toInt := by
  have hspell : Respelled
      (bin .w32 .eq (bin .w32 .add (int .w32 4294967295) (int .w32 2)) (int .w32 1))
      (bin .w32 .eq (bin .w32 .add (int .w32 (-1)) (int .w32 2)) (int .w32 1)) :=
    .bin _ _ (.bin _ _ (.int (by decide)) (.int (by decide))) (.int (by decide))
  have hs : Signless
      (bin .w32 .eq (bin .w32 .add (int .w32 4294967295) (int .w32 2)) (int .w32 1)) := by
    simp [Signless, Expr.width, Op.ignoresSpelling]
  refine ⟨hspell, hs, rfl, rfl, ?_⟩
  have hone : Width.w32.Holds 1 := by decide
  exact ((fold_respelled hspell hs (by simpa [ComparesInRange, InRange] using hone)
    (by simpa [ComparesInRange, InRange] using hone)).2.1 _ _ _ _ rfl rfl).2

/-- The largest unsigned int is not equal to -1 when both are literals, and is when it is written as
-1 itself. The code that compares them finds them equal. -/
theorem fold_tells_apart :
    Respelled (bin .w32 .eq (int .w32 4294967295) (uni .w32 .neg (int .w32 1)))
        (bin .w32 .eq (int .w32 (-1)) (uni .w32 .neg (int .w32 1))) ∧
      Signless (bin .w32 .eq (int .w32 4294967295) (uni .w32 .neg (int .w32 1))) ∧
      (bin .w32 .eq (int .w32 4294967295) (uni .w32 .neg (int .w32 1))).fold = int .w32 0 ∧
      (bin .w32 .eq (int .w32 (-1)) (uni .w32 .neg (int .w32 1))).fold = int .w32 1 ∧
      ¬ (2 ^ Width.w32.bits : Int) ∣ (1 : Int64).toInt - (0 : Int64).toInt ∧
      ∀ m, (bin .w32 .eq (int .w32 4294967295) (uni .w32 .neg (int .w32 1))).eval m = some 1 := by
  refine ⟨.bin _ _ (.int (by decide)) (.uni _ _ (.int (by decide))), ?_, rfl, rfl, by decide,
    fun _ => rfl⟩
  simp [Signless, Expr.width]

end Ir.Expr

end Backend386
