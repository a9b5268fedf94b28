import Mathlib.Data.List.Basic
import Mathlib.Logic.Function.Basic
import Backend386.Proofs.Ir.Eval
import Backend386.Source.Entity
import Backend386.Types.Query

/-!
# The value of a source expression

The reference semantics of integer expressions with side effects. An expression is evaluated in a
store, and gives a value and the store it leaves. The right operand of an operator is evaluated
before the left one, the right side of an assignment before its target is read, and what stands
behind `&&`, `||` and `?:` only when it is needed. A named constant stands for its value.

* `Source.Context`, `Source.Store` — what names stand for, and what variables hold;
* `Source.BinaryOp.value?`, `Source.UnaryOp.value`, `IntType.convert` — the operators;
* `Source.Expr.eval` — the value of an expression, which operations such as a division by zero
  do not have;
* `Source.Typed` — the integer expressions whose annotations fit together.
-/

namespace Backend386

/-- An integer type: how many bits its values have, and how they are read. -/
structure IntType where
  width : Width
  signed : Bool
deriving DecidableEq, Repr

/-- The integer type that a type number stands for, if it is one. -/
def TypeTable.intType? (t : TypeTable) (id : TypeId) : Option IntType :=
  match t.realInfo id, t.sizeOf id with
  | .ok (.integer _ signed _), .ok size => (Width.ofBytes? size).map (⟨·, signed⟩)
  | _, _ => none

namespace Ir.Value

/-- Whether a value counts as true. -/
def holds (x : Value) : Bool :=
  x.2 != 0

/-- The value of a condition. -/
def ofBool (w : Width) (b : Bool) : Value :=
  ⟨w, Op.word b⟩

/-- The word at a width. -/
def bitsAt (x : Value) (w : Width) : BitVec w.bits :=
  x.2.setWidth w.bits

@[simp] theorem bitsAt_self (w : Width) (x : BitVec w.bits) : bitsAt ⟨w, x⟩ w = x :=
  BitVec.setWidth_eq x

@[simp] theorem holds_ofBool (w : Width) (b : Bool) : (ofBool w b).holds = b := by
  have h : ((Op.word b : BitVec w.bits) != 0) = true ↔ b = true := by
    rw [bne_iff_ne, Op.word_ne_zero]
  exact Bool.eq_iff_iff.2 h

end Ir.Value

/-- Converts a value of one integer type to another. -/
def IntType.convert (source target : IntType) (x : Ir.Value) : Ir.Value :=
  let bits := x.bitsAt source.width
  ⟨target.width, if source.signed then bits.signExtend _ else bits.setWidth _⟩

namespace Source

/-! ## Operators -/

namespace BinaryOp

/-- Operators whose value is 0 or 1. -/
def isComparison : BinaryOp → Bool
  | eq | ne | lt | le | gt | ge => true
  | _ => false

variable {n : Nat}

/-- Whether a comparison holds between two words. -/
def compare (op : BinaryOp) (signed : Bool) (a b : BitVec n) : Bool :=
  match op with
  | eq => a == b
  | ne => a != b
  | lt => if signed then a.slt b else a.ult b
  | le => if signed then a.sle b else a.ule b
  | gt => if signed then b.slt a else b.ult a
  | ge => if signed then b.sle a else b.ule a
  | _ => false

/-- The value of an operator that is no comparison. Divisions by zero, the one quotient that does
not fit and shifts by the width or more have none. -/
def calculate? (op : BinaryOp) (signed : Bool) (a b : BitVec n) : Option (BitVec n) :=
  let quotientFits := b ≠ 0 ∧ ¬ (signed ∧ a = BitVec.intMin n ∧ b = -1)
  match op with
  | add => some (a + b)
  | sub => some (a - b)
  | mul => some (a * b)
  | div => if quotientFits then some (if signed then a.sdiv b else a / b) else none
  | mod => if quotientFits then some (if signed then a.srem b else a % b) else none
  | bitAnd => some (a &&& b)
  | bitOr => some (a ||| b)
  | bitXor => some (a ^^^ b)
  | shl => if b.toNat < n then some (a <<< b.toNat) else none
  | shr =>
    if b.toNat < n then some (if signed then a.sshiftRight b.toNat else a >>> b.toNat) else none
  | _ => none

/-- The value of an operator on two values. A comparison reads them in the type of the left operand,
and any other operator in the type of the result. -/
def value? (op : BinaryOp) (type operand : IntType) (a b : Ir.Value) : Option Ir.Value :=
  if op.isComparison then
    some (.ofBool type.width
      (op.compare operand.signed (a.bitsAt operand.width) (b.bitsAt operand.width)))
  else
    (op.calculate? type.signed (a.bitsAt type.width) (b.bitsAt type.width)).map (⟨type.width, ·⟩)

end BinaryOp

/-- The value of a unary operator. -/
def UnaryOp.value (op : UnaryOp) (type : IntType) (x : Ir.Value) : Ir.Value :=
  match op with
  | plus => x
  | minus => ⟨type.width, -x.bitsAt type.width⟩
  | bitNot => ⟨type.width, ~~~x.bitsAt type.width⟩
  | not => .ofBool type.width !x.holds

/-- The value after an increment or a decrement. -/
def StepOp.value (op : StepOp) (x : Ir.Value) : Ir.Value :=
  match op with
  | inc => ⟨x.1, x.2 + 1⟩
  | dec => ⟨x.1, x.2 - 1⟩

/-! ## Names -/

/-- What names and type references stand for. -/
structure Context where
  types : TypeTable
  entities : EntityTable

namespace Context

/-- The integer type that a reference stands for. -/
def type? (Γ : Context) (ref : TypeRef) : Option IntType :=
  (Γ.types.lookup? ref).bind Γ.types.intType?

/-- The value of a named constant. -/
def constant? (Γ : Context) (id : EntityId) : Option Expr :=
  Γ.entities.entries[id.index]?.bind (·.constantValue?)

/-- The type of an integer variable. -/
def varType? (Γ : Context) (id : EntityId) : Option IntType :=
  match Γ.entities.entries[id.index]? with
  | some e => if e.isConstant then none else e.type.toOption.bind Γ.types.intType?
  | none => none

end Context

/-- What variables hold. A variable of fewer than 64 bits takes the low ones. -/
abbrev Store := EntityId → BitVec 64

namespace Store

/-- The value of a variable. -/
def read (σ : Store) (v : EntityId) (w : Width) : Ir.Value :=
  ⟨w, (σ v).setWidth w.bits⟩

/-- Gives a variable a value. -/
def write (σ : Store) (v : EntityId) (x : Ir.Value) : Store :=
  Function.update σ v (x.2.setWidth 64)

end Store

/-! ## Evaluation -/

/-- An evaluation: the value and the store it leaves, if it succeeds. -/
abbrev Evaluation := Store → Option (Ir.Value × Store)

namespace Expr

/-- The value of an expression. `inline` evaluates what a named constant stands for. -/
def evalUsing (Γ : Context) (inline : Expr → Evaluation) : Expr → Evaluation
  | .int n v, σ => do
    let type ← Γ.type? n.type
    return (⟨type.width, v.toBitVec.setWidth type.width.bits⟩, σ)
  | .var _ id, σ =>
    match Γ.constant? id with
    | some value => inline value σ
    | none => do
      let type ← Γ.varType? id
      return (σ.read id type.width, σ)
  | .unary n op e, σ => do
    let type ← Γ.type? n.type
    let (x, σ) ← evalUsing Γ inline e σ
    return (op.value type x, σ)
  | .binary n op l r, σ => do
    let type ← Γ.type? n.type
    let operand ← Γ.type? l.type
    let (b, σ) ← evalUsing Γ inline r σ
    let (a, σ) ← evalUsing Γ inline l σ
    return (← op.value? type operand a b, σ)
  | .logical n op l r, σ => do
    let type ← Γ.type? n.type
    let (a, σ) ← evalUsing Γ inline l σ
    -- what decides the result alone: a false left side of `&&`, a true one of `||`
    if a.holds = (op == .or) then
      return (.ofBool type.width a.holds, σ)
    let (b, σ) ← evalUsing Γ inline r σ
    return (.ofBool type.width b.holds, σ)
  | .assign _ (.var _ v) r, σ => do
    let (x, σ) ← evalUsing Γ inline r σ
    return (x, σ.write v x)
  | .opAssign _ op (.var _ v) r, σ => do
    let type ← Γ.varType? v
    let (b, σ) ← evalUsing Γ inline r σ
    let x ← op.value? type type (σ.read v type.width) b
    return (x, σ.write v x)
  | .preStep _ op (.var _ v), σ => do
    let type ← Γ.varType? v
    let x := op.value (σ.read v type.width)
    return (x, σ.write v x)
  | .postStep _ op (.var _ v), σ => do
    let type ← Γ.varType? v
    let x := σ.read v type.width
    return (x, σ.write v (op.value x))
  | .cond _ test yes no, σ => do
    let (a, σ) ← evalUsing Γ inline test σ
    if a.holds then evalUsing Γ inline yes σ else evalUsing Γ inline no σ
  | .cast n e, σ => do
    let type ← Γ.type? n.type
    let source ← Γ.type? e.type
    let (x, σ) ← evalUsing Γ inline e σ
    return (source.convert type x, σ)
  | _, _ => none

/-- A literal has the low bits of its number. -/
theorem evalUsing_int {Γ : Context} {inline : Expr → Evaluation} {n : Note} {v : Int64}
    {type : IntType} {σ : Store} (h : Γ.type? n.type = some type) :
    evalUsing Γ inline (.int n v) σ =
      some (⟨type.width, v.toBitVec.setWidth type.width.bits⟩, σ) := by
  rw [evalUsing, h]
  rfl

/-- The value of an expression in which constants stand for each other to a depth below `depth`. -/
def evalWithin (Γ : Context) : Nat → Expr → Evaluation
  | 0 => evalUsing Γ fun _ _ => none
  | depth + 1 => evalUsing Γ (evalWithin Γ depth)

/-- The value of an expression. Constants that do not refer to themselves are nested no deeper than
there are entities. -/
def eval (Γ : Context) : Expr → Evaluation :=
  evalWithin Γ Γ.entities.size

/-! ## What an expression reads and writes -/

/-- An expression and all expressions in it. `inline` gives those in the value of a constant. -/
def partsUsing (inline : EntityId → List Expr) : Expr → List Expr
  | e@(.var _ id) => e :: inline id
  | e@(.unary _ _ x) | e@(.preStep _ _ x) | e@(.postStep _ _ x) | e@(.cast _ x) =>
    e :: partsUsing inline x
  | e@(.binary _ _ l r) | e@(.logical _ _ l r) | e@(.assign _ l r) | e@(.opAssign _ _ l r) =>
    e :: (partsUsing inline l ++ partsUsing inline r)
  | e@(.cond _ test yes no) =>
    e :: (partsUsing inline test ++ partsUsing inline yes ++ partsUsing inline no)
  | e => [e]

/-- An expression and all expressions in it, constants followed to a depth below `depth`. -/
def partsWithin (Γ : Context) : Nat → Expr → List Expr
  | 0 => partsUsing fun _ => []
  | depth + 1 => partsUsing fun id => ((Γ.constant? id).map (partsWithin Γ depth)).getD []

/-- The variable that an expression is. -/
def var? (Γ : Context) : Expr → Option EntityId
  | .var _ v => if (Γ.constant? v).isNone then some v else none
  | _ => none

/-- The variable that an expression gives a value. -/
def target? : Expr → Option EntityId
  | .assign _ (.var _ v) _ | .opAssign _ _ (.var _ v) _ | .preStep _ _ (.var _ v)
  | .postStep _ _ (.var _ v) => some v
  | _ => none

/-- The variables that an expression reads or writes. -/
def mentions (Γ : Context) (depth : Nat) (e : Expr) : List EntityId :=
  (partsWithin Γ depth e).filterMap (var? Γ)

/-- The variables that an expression writes. -/
def writes (Γ : Context) (depth : Nat) (e : Expr) : List EntityId :=
  (partsWithin Γ depth e).filterMap target?

theorem mentions_subset {Γ : Context} {k : Nat} {e e' : Expr}
    (h : partsWithin Γ k e ⊆ partsWithin Γ k e') : e.mentions Γ k ⊆ e'.mentions Γ k :=
  List.filterMap_subset _ h

theorem writes_subset {Γ : Context} {k : Nat} {e e' : Expr}
    (h : partsWithin Γ k e ⊆ partsWithin Γ k e') : e.writes Γ k ⊆ e'.writes Γ k :=
  List.filterMap_subset _ h

theorem mem_partsWithin_self (Γ : Context) (k : Nat) (e : Expr) : e ∈ partsWithin Γ k e := by
  cases k <;> cases e <;> simp [partsWithin, partsUsing]

theorem mem_writes {Γ : Context} {k : Nat} {e : Expr} {v : EntityId} (h : e.target? = some v) :
    v ∈ e.writes Γ k :=
  List.mem_filterMap.2 ⟨e, mem_partsWithin_self Γ k e, h⟩

theorem mem_mentions {Γ : Context} {k : Nat} {n : Note} {e : Expr} {v : EntityId}
    (h : .var n v ∈ partsWithin Γ k e) (hv : Γ.constant? v = none) : v ∈ e.mentions Γ k :=
  List.mem_filterMap.2 ⟨_, h, by simp [var?, hv]⟩

/-! ### One equation for each form -/

section

variable {Γ : Context} {k : Nat} {n : Note}

@[simp] theorem partsWithin_int {v : Int64} :
    partsWithin Γ k (.int n v) = [.int n v] := by
  cases k <;> rfl

/-- A variable that is no constant has no parts but itself. -/
theorem partsWithin_var {v : EntityId} (h : Γ.constant? v = none) :
    partsWithin Γ k (.var n v) = [.var n v] := by
  cases k with
  | zero => rfl
  | succ k => simp [partsWithin, partsUsing, h]

/-- A constant has the parts of its value. -/
theorem partsWithin_constant {c : EntityId} {value : Expr} (h : Γ.constant? c = some value) :
    partsWithin Γ (k + 1) (.var n c) = .var n c :: partsWithin Γ k value := by
  simp [partsWithin, partsUsing, h]

@[simp] theorem partsWithin_unary {op : UnaryOp} {e : Expr} :
    partsWithin Γ k (.unary n op e) = .unary n op e :: partsWithin Γ k e := by
  cases k <;> rfl

@[simp] theorem partsWithin_binary {op : BinaryOp} {l r : Expr} :
    partsWithin Γ k (.binary n op l r) =
      .binary n op l r :: (partsWithin Γ k l ++ partsWithin Γ k r) := by
  cases k <;> rfl

@[simp] theorem partsWithin_logical {op : LogicalOp} {l r : Expr} :
    partsWithin Γ k (.logical n op l r) =
      .logical n op l r :: (partsWithin Γ k l ++ partsWithin Γ k r) := by
  cases k <;> rfl

@[simp] theorem partsWithin_assign {l r : Expr} :
    partsWithin Γ k (.assign n l r) =
      .assign n l r :: (partsWithin Γ k l ++ partsWithin Γ k r) := by
  cases k <;> rfl

@[simp] theorem partsWithin_opAssign {op : BinaryOp} {l r : Expr} :
    partsWithin Γ k (.opAssign n op l r) =
      .opAssign n op l r :: (partsWithin Γ k l ++ partsWithin Γ k r) := by
  cases k <;> rfl

@[simp] theorem partsWithin_preStep {op : StepOp} {e : Expr} :
    partsWithin Γ k (.preStep n op e) = .preStep n op e :: partsWithin Γ k e := by
  cases k <;> rfl

@[simp] theorem partsWithin_postStep {op : StepOp} {e : Expr} :
    partsWithin Γ k (.postStep n op e) = .postStep n op e :: partsWithin Γ k e := by
  cases k <;> rfl

@[simp] theorem partsWithin_cond {test yes no : Expr} :
    partsWithin Γ k (.cond n test yes no) =
      .cond n test yes no ::
        (partsWithin Γ k test ++ partsWithin Γ k yes ++ partsWithin Γ k no) := by
  cases k <;> rfl

@[simp] theorem partsWithin_cast {e : Expr} :
    partsWithin Γ k (.cast n e) = .cast n e :: partsWithin Γ k e := by
  cases k <;> rfl

end

end Expr

/-! ## Typed expressions -/

/-- A mention of an integer variable, annotated with its type. -/
structure Context.Declares (Γ : Context) (n : Note) (v : EntityId) (type : IntType) : Prop where
  note : Γ.type? n.type = some type
  var : Γ.varType? v = some type

/-- The left operand writes nothing that the right operand reads or writes. -/
def Undisturbed (Γ : Context) (depth : Nat) (l r : Expr) : Prop :=
  (l.writes Γ depth).Disjoint (r.mentions Γ depth)

/-- The integer expressions whose annotations fit together: the operands of an arithmetic operator
are as wide as the result, the operands of a comparison are as wide as each other, and so are the
sides of an assignment and the arms of a conditional. Operands do not disturb each other, and
constants stand for each other to a depth below `depth`. -/
inductive Typed (Γ : Context) : (depth : Nat) → Expr → IntType → Prop where
  | int {k : Nat} {n : Note} {v : Int64} {type : IntType} (h : Γ.type? n.type = some type) :
    Typed Γ k (.int n v) type
  | var {k : Nat} {n : Note} {v : EntityId} {type : IntType} (h : Γ.Declares n v type) :
    Typed Γ k (.var n v) type
  | constant {k : Nat} {n : Note} {c : EntityId} {value : Expr} {type type' : IntType}
    (h : Γ.type? n.type = some type) (hc : Γ.constant? c = some value)
    (hv : Typed Γ k value type') (hw : type'.width = type.width) :
    Typed Γ (k + 1) (.var n c) type
  | unary {k : Nat} {n : Note} {op : UnaryOp} {e : Expr} {type operand : IntType}
    (h : Γ.type? n.type = some type) (hop : op ≠ .not) (he : Typed Γ k e operand)
    (hw : operand.width = type.width) : Typed Γ k (.unary n op e) type
  | not {k : Nat} {n : Note} {e : Expr} {type operand : IntType}
    (h : Γ.type? n.type = some type) (he : Typed Γ k e operand) : Typed Γ k (.unary n .not e) type
  | arithmetic {k : Nat} {n : Note} {op : BinaryOp} {l r : Expr} {type left right : IntType}
    (h : Γ.type? n.type = some type) (hop : op.isComparison = false) (hl : Typed Γ k l left)
    (hr : Typed Γ k r right) (hlw : left.width = type.width) (hrw : right.width = type.width)
    (hd : Undisturbed Γ k l r) : Typed Γ k (.binary n op l r) type
  | comparison {k : Nat} {n : Note} {op : BinaryOp} {l r : Expr} {type left right : IntType}
    (h : Γ.type? n.type = some type) (hop : op.isComparison = true) (hl : Typed Γ k l left)
    (hr : Typed Γ k r right) (hw : right.width = left.width) (hd : Undisturbed Γ k l r) :
    Typed Γ k (.binary n op l r) type
  | logical {k : Nat} {n : Note} {op : LogicalOp} {l r : Expr} {type left right : IntType}
    (h : Γ.type? n.type = some type) (hl : Typed Γ k l left) (hr : Typed Γ k r right) :
    Typed Γ k (.logical n op l r) type
  | assign {k : Nat} {n m : Note} {v : EntityId} {r : Expr} {type target right : IntType}
    (h : Γ.type? n.type = some type) (hv : Γ.Declares m v target) (hr : Typed Γ k r right)
    (hw : target.width = type.width) (hrw : right.width = target.width) :
    Typed Γ k (.assign n (.var m v) r) type
  | opAssign {k : Nat} {n m : Note} {op : BinaryOp} {v : EntityId} {r : Expr}
    {type target right : IntType} (h : Γ.type? n.type = some type) (hv : Γ.Declares m v target)
    (hr : Typed Γ k r right) (hw : target.width = type.width) (hrw : right.width = target.width) :
    Typed Γ k (.opAssign n op (.var m v) r) type
  | preStep {k : Nat} {n m : Note} {op : StepOp} {v : EntityId} {type target : IntType}
    (h : Γ.type? n.type = some type) (hv : Γ.Declares m v target)
    (hw : target.width = type.width) : Typed Γ k (.preStep n op (.var m v)) type
  | postStep {k : Nat} {n m : Note} {op : StepOp} {v : EntityId} {type target : IntType}
    (h : Γ.type? n.type = some type) (hv : Γ.Declares m v target)
    (hw : target.width = type.width) : Typed Γ k (.postStep n op (.var m v)) type
  | cond {k : Nat} {n : Note} {test yes no : Expr} {type tested left right : IntType}
    (h : Γ.type? n.type = some type) (ht : Typed Γ k test tested) (hy : Typed Γ k yes left)
    (hn : Typed Γ k no right) (hyw : left.width = type.width) (hnw : right.width = type.width) :
    Typed Γ k (.cond n test yes no) type
  | cast {k : Nat} {n : Note} {e : Expr} {type source : IntType}
    (h : Γ.type? n.type = some type) (he : Typed Γ k e source) : Typed Γ k (.cast n e) type

/-- A typed expression is annotated with its type. -/
theorem Typed.note {Γ : Context} {k : Nat} {e : Expr} {type : IntType} (h : Typed Γ k e type) :
    Γ.type? e.type = some type := by
  cases h with
  | var h => exact h.note
  | _ => assumption

end Source

end Backend386
