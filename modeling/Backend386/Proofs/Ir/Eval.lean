import Mathlib.Data.BitVec
import Backend386.Ir.Expr

/-!
# The value of an intermediate expression

Values are words of the width of their node, and arithmetic is modular. An expression has no value
if it divides by zero, if a quotient does not fit, if a shift count reaches the width, or if
something that it reads has none. Calls are not expressions of this kind: they change memory, so
they belong to statements.

* `Ir.Env` — what an expression can see: variables, addresses and memory;
* `Ir.Expr.eval` — the value, and `Ir.Expr.result?` — the value with its width;
* `Ir.Expr.Consistent` — the expressions without calls whose widths fit together, up to 32 bits;
* `Ir.Expr.entities`, `Ir.Expr.reads` — what it mentions, and what it reads;
* `Ir.Expr.depth` — how many values are put aside at once while an expression is evaluated.
-/

namespace Backend386.Ir

/-- A word with its width. -/
abbrev Value := (w : Width) × BitVec w.bits

/-- What the evaluation of an expression can see. -/
structure Env where
  /-- the value of a variable at a width -/
  var : EntityId → (w : Width) → Option (BitVec w.bits)
  /-- the address of an entity -/
  address : EntityId → Option (BitVec 64)
  /-- the address of a string literal -/
  literal : StringId → Option (BitVec 64)
  /-- the value stored at an address -/
  load : BitVec 64 → (w : Width) → Option (BitVec w.bits)

namespace Op

variable {n : Nat}

/-- The word that a truth value is. -/
def word (c : Bool) : BitVec n :=
  if c then 1 else 0

theorem word_ne_zero {w : Width} {c : Bool} : (word c : BitVec w.bits) ≠ 0 ↔ c = true := by
  cases c <;> cases w <;> decide

/-- Whether a comparison holds. -/
def compare? (op : Op) (a b : BitVec n) : Option Bool :=
  match op with
  | eq => some (a == b)
  | ne => some (a != b)
  | sGt => some (b.slt a)
  | sGe => some (b.sle a)
  | sLt => some (a.slt b)
  | sLe => some (a.sle b)
  | uGt => some (b.ult a)
  | uGe => some (b.ule a)
  | uLt => some (a.ult b)
  | uLe => some (a.ule b)
  | _ => none

/-- The value of an operator that is no comparison on two words of one width. -/
def arithmetic? (op : Op) (a b : BitVec n) : Option (BitVec n) :=
  let quotientFits := b ≠ 0 ∧ ¬ (a = BitVec.intMin n ∧ b = -1)
  match op with
  | add => some (a + b)
  | sub => some (a - b)
  | mul => some (a * b)
  | sDiv => if quotientFits then some (a.sdiv b) else none
  | uDiv => if b ≠ 0 then some (a / b) else none
  | sMod => if quotientFits then some (a.srem b) else none
  | uMod => if b ≠ 0 then some (a % b) else none
  | bitAnd => some (a &&& b)
  | bitOr => some (a ||| b)
  | bitXor => some (a ^^^ b)
  | shl => if b.toNat < n then some (a <<< b.toNat) else none
  | shr => if b.toNat < n then some (a >>> b.toNat) else none
  | sar => if b.toNat < n then some (a.sshiftRight b.toNat) else none
  | _ => none

/-- The value of a binary node. Comparisons are made at the width of the left operand. -/
def binary? (op : Op) (w : Width) {m : Nat} (a : BitVec m) (b : BitVec n) :
    Option (BitVec w.bits) :=
  if op.isCompare then (op.compare? a (b.setWidth m)).map word
  else op.arithmetic? (a.setWidth w.bits) (b.setWidth w.bits)

/-- The value of a unary node. -/
def unary? (op : Op) (w : Width) (a : BitVec n) : Option (BitVec w.bits) :=
  match op with
  | neg => some (-(a.setWidth w.bits))
  | bitNot => some (~~~(a.setWidth w.bits))
  | not => some (word (a == 0))
  | sCast => some (a.signExtend w.bits)
  | uCast => some (a.setWidth w.bits)
  | _ => none

end Op

namespace Expr

/-- The value of an expression. -/
def eval (m : Env) : (e : Expr) → Option (BitVec e.width.bits)
  | int w v => some (v.toBitVec.setWidth w.bits)
  | str w s => (m.literal s).map (·.setWidth w.bits)
  | var w v => m.var v w
  | addr w v => (m.address v).map (·.setWidth w.bits)
  | mem w a => do m.load ((← a.eval m).setWidth 64) w
  | uni w op e => do op.unary? w (← e.eval m)
  | bin w op l r => do op.binary? w (← l.eval m) (← r.eval m)
  | call .. => none

/-- The values of a list of expressions, with their widths. -/
def evalAll (m : Env) : List Expr → Option (List Value)
  | [] => some []
  | e :: es => do
    let v ← e.eval m
    return ⟨e.width, v⟩ :: (← evalAll m es)

/-- The value of an expression, with its width. -/
def result? (m : Env) (e : Expr) : Option Value :=
  (e.eval m).map (⟨e.width, ·⟩)

/-! ## Values with their widths -/

section

variable {m : Env} {e x : Expr} {ptr : Width} {a : BitVec ptr.bits} {r : Value}

theorem result?_eq_some_iff : e.result? m = some r ↔ ∃ x, e.eval m = some x ∧ r = ⟨e.width, x⟩ := by
  rw [result?, Option.map_eq_some_iff]
  exact exists_congr fun x => and_congr_right fun _ => eq_comm

/-- The value as a word of any width. -/
theorem exists_eval_of_result? (h : e.result? m = some ⟨ptr, a⟩) :
    ∃ v, e.eval m = some v ∧ ∀ n, a.setWidth n = v.setWidth n := by
  obtain ⟨v, hv, hvalue⟩ := result?_eq_some_iff.1 h
  exact ⟨v, hv, fun n => congrArg (fun r : Value => r.2.setWidth n) hvalue⟩

theorem width_of_result? (h : e.result? m = some r) : e.width = r.1 := by
  obtain ⟨x, -, rfl⟩ := result?_eq_some_iff.1 h
  rfl

@[simp] theorem result?_int (w : Width) (k : Int64) :
    (int w k).result? m = some ⟨w, k.toBitVec.setWidth w.bits⟩ := rfl

@[simp] theorem result?_uni (w : Width) (op : Op) (e : Expr) :
    (uni w op e).result? m = (e.result? m).bind fun x => (op.unary? w x.2).map (⟨w, ·⟩) := by
  rw [result?, result?, eval]
  cases e.eval m <;> rfl

/-- Both operands of an operation have results. -/
@[simp] theorem result?_bin (w : Width) (op : Op) (l r : Expr) :
    (bin w op l r).result? m = (l.result? m).bind fun x => (r.result? m).bind fun y =>
      (op.binary? w x.2 y.2).map (⟨w, ·⟩) := by
  rw [result?, result?, result?, eval]
  cases l.eval m with
  | none => rfl
  | some x => cases r.eval m <;> rfl

/-- The address of an entity is a value as wide as a pointer. -/
theorem result?_addr {v : EntityId} (ha : m.address v = some (a.setWidth 64)) :
    (addr ptr v).result? m = some ⟨ptr, a⟩ := by
  have hword : (a.setWidth 64).setWidth ptr.bits = a := by
    rw [BitVec.setWidth_setWidth_of_le _ (by cases ptr <;> decide), BitVec.setWidth_eq]
  rw [result?, eval, ha]
  exact congrArg (fun b => some (⟨ptr, b⟩ : Value)) hword

theorem result?_mem (w : Width) (hx : x.result? m = some ⟨ptr, a⟩) :
    (mem w x).result? m = (m.load (a.setWidth 64) w).map (⟨w, ·⟩) := by
  obtain ⟨v, hv, hword⟩ := exists_eval_of_result? hx
  rw [result?, eval, hv, hword 64]
  rfl

end

end Expr

/-! ## Seeing more -/

/-- Everything that `m` sees, `m'` sees as well. -/
structure Env.Le (m m' : Env) : Prop where
  var : ∀ {v w x}, m.var v w = some x → m'.var v w = some x
  address : ∀ {v x}, m.address v = some x → m'.address v = some x
  literal : ∀ {s x}, m.literal s = some x → m'.literal s = some x
  load : ∀ {a w x}, m.load a w = some x → m'.load a w = some x

/-- A value does not depend on what else can be seen. -/
theorem Expr.eval_mono {m m' : Env} (h : m.Le m') :
    ∀ (e : Expr) {v : BitVec e.width.bits}, e.eval m = some v → e.eval m' = some v
  | int .., _, hv => hv
  | str w s, v, hv => by
    obtain ⟨a, ha, rfl⟩ := Option.map_eq_some_iff.1 hv
    exact Option.map_eq_some_iff.2 ⟨a, h.literal ha, rfl⟩
  | var .., _, hv => h.var hv
  | addr w x, v, hv => by
    obtain ⟨a, ha, rfl⟩ := Option.map_eq_some_iff.1 hv
    exact Option.map_eq_some_iff.2 ⟨a, h.address ha, rfl⟩
  | mem w a, v, hv => by
    obtain ⟨x, hx, hv⟩ := Option.bind_eq_some_iff.1 hv
    exact Option.bind_eq_some_iff.2 ⟨x, eval_mono h a hx, h.load hv⟩
  | uni w op e, v, hv => by
    obtain ⟨x, hx, hv⟩ := Option.bind_eq_some_iff.1 hv
    exact Option.bind_eq_some_iff.2 ⟨x, eval_mono h e hx, hv⟩
  | bin w op l r, v, hv => by
    obtain ⟨x, hx, hv⟩ := Option.bind_eq_some_iff.1 hv
    obtain ⟨y, hy, hv⟩ := Option.bind_eq_some_iff.1 hv
    exact Option.bind_eq_some_iff.2 ⟨x, eval_mono h l hx,
      Option.bind_eq_some_iff.2 ⟨y, eval_mono h r hy, hv⟩⟩
  | call .., _, hv => nomatch hv

/-- The first argument is evaluated, and so are the others. -/
theorem Expr.evalAll_eq_some_cons {m : Env} {e : Expr} {es : List Expr} {vs : List Value}
    (h : evalAll m (e :: es) = some vs) :
    ∃ v vs', e.eval m = some v ∧ evalAll m es = some vs' ∧ vs = ⟨e.width, v⟩ :: vs' := by
  obtain ⟨v, hv, h⟩ := Option.bind_eq_some_iff.1 h
  obtain ⟨vs', hvs', h⟩ := Option.bind_eq_some_iff.1 h
  exact ⟨v, vs', hv, hvs', (Option.some.inj h).symm⟩

/-- Arguments that can be read stay the same where more can be read. -/
theorem Expr.evalAll_mono {m m' : Env} (h : m.Le m') {es : List Expr} {vs : List Value}
    (hv : evalAll m es = some vs) : evalAll m' es = some vs := by
  induction es generalizing vs with
  | nil => exact hv
  | cons e es ih =>
    obtain ⟨v, vs', he, hes, rfl⟩ := evalAll_eq_some_cons hv
    exact Option.bind_eq_some_iff.2 ⟨v, eval_mono h e he,
      Option.bind_eq_some_iff.2 ⟨vs', ih hes, rfl⟩⟩

/-! ## Consistent expressions -/

namespace Expr

/-- An integer literal. -/
def isLiteral : Expr → Bool
  | int .. => true
  | _ => false

/-- An expression without calls whose widths fit together: the operands of an arithmetic operator
have the width of the node, the operands of a comparison have one width, and addresses have
32 bits. -/
inductive Consistent : Expr → Prop where
  | int {w : Width} {v : Int64} (hw : w ≠ .w64) : Consistent (int w v)
  | str {w : Width} {s : StringId} (hw : w ≠ .w64) : Consistent (str w s)
  | var {w : Width} {v : EntityId} (hw : w ≠ .w64) : Consistent (var w v)
  | addr {w : Width} {v : EntityId} (hw : w ≠ .w64) : Consistent (addr w v)
  | mem {w : Width} {a : Expr} (hw : w ≠ .w64) (ha : a.Consistent) (h : a.width = .w32) :
    Consistent (mem w a)
  /-- negation and complement -/
  | sign {w : Width} {op : Op} {e : Expr} (hw : w ≠ .w64) (hop : op = .neg ∨ op = .bitNot)
    (he : e.Consistent) (h : e.width = w) : Consistent (uni w op e)
  | not {w : Width} {e : Expr} (hw : w ≠ .w64) (he : e.Consistent) : Consistent (uni w .not e)
  | cast {w : Width} {op : Op} {e : Expr} (hw : w ≠ .w64) (hop : op = .sCast ∨ op = .uCast)
    (he : e.Consistent) : Consistent (uni w op e)
  | compare {w : Width} {op : Op} {l r : Expr} (hw : w ≠ .w64) (hop : op.isCompare = true)
    (hl : l.Consistent) (hr : r.Consistent) (h : l.width = r.width) : Consistent (bin w op l r)
  | arithmetic {w : Width} {op : Op} {l r : Expr} (hw : w ≠ .w64) (hop : op.isCompare = false)
    (hop' : op.isUnary = false) (hl : l.Consistent) (hr : r.Consistent) (hlw : l.width = w)
    (hrw : r.width = w) : Consistent (bin w op l r)

/-- How many values are put aside at once while an expression is evaluated. A right operand is
evaluated first and waits, unless it is a literal. -/
def depth : Expr → Nat
  | mem _ a => a.depth
  | uni _ _ e => e.depth
  | bin _ _ l r => if r.isLiteral then l.depth else max r.depth (l.depth + 1)
  | _ => 0

/-- How many values are on the stack at once while the arguments of a call are put there. -/
def argumentDepth : List Expr → Nat
  | [] => 0
  | e :: es => max (argumentDepth es) (es.length + e.depth + 1)

mutual

/-- The entities an expression mentions. -/
def entities : Expr → List EntityId
  | int .. | str .. => []
  | var _ v | addr _ v => [v]
  | mem _ e | uni _ _ e => e.entities
  | bin _ _ l r => l.entities ++ r.entities
  | call _ f args => f.entities ++ entitiesOfAll args

/-- The entities a list of expressions mentions. -/
def entitiesOfAll : List Expr → List EntityId
  | [] => []
  | e :: es => e.entities ++ entitiesOfAll es

end

mutual

/-- The variables and the places in memory that an expression reads. -/
def reads : Expr → List Expr
  | int .. | str .. | addr .. => []
  | var w v => [var w v]
  | mem w a => mem w a :: a.reads
  | uni _ _ e => e.reads
  | bin _ _ l r => l.reads ++ r.reads
  | call _ f args => f.reads ++ readsOfAll args

/-- The variables and the places in memory that a list of expressions reads. -/
def readsOfAll : List Expr → List Expr
  | [] => []
  | e :: es => e.reads ++ readsOfAll es

end

mutual

/-- The string literals an expression mentions. -/
def literals : Expr → List StringId
  | str _ s => [s]
  | mem _ e | uni _ _ e => e.literals
  | bin _ _ l r => l.literals ++ r.literals
  | call _ f args => f.literals ++ literalsOfAll args
  | _ => []

/-- The string literals a list of expressions mentions. -/
def literalsOfAll : List Expr → List StringId
  | [] => []
  | e :: es => e.literals ++ literalsOfAll es

end

end Expr

end Backend386.Ir
