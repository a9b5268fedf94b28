import Backend386.Proofs.Lowering.State

/-!
# What lowered code means

The code of an expression and the expression that is left over together stand for an evaluation.
Running the code and then evaluating what is left gives the value of the expression, and a store
that agrees with the one the evaluation leaves in all variables of the program. Where the
evaluation fails, the run fails or what is left has no value.

The operator that the lowering chooses computes what the source operator means, and on integer
types nothing is scaled.

* `Source.BinaryOp.value?_lowered`, `IntType.value_cast` — operators and conversions, and
  `Lower.binary_ok`, `Lower.arithmetic_ok` — the nodes that are made for them;
* `Source.Store.Agree`, `Lower.Keeps` — stores that are equal in the variables of the program, and
  stores that are equal in all that an expression does not write;
* `Lower.Ready` — states of the lowering that extend a context;
* `Lower.Delivers` — what the run of the code of an expression comes to;
* `Lower.Implements`, `Lower.Correct` — the code of an expression stands for its evaluation.
-/

namespace Backend386

open Ir (Value)

/-! ## Binary operators -/

namespace Source.BinaryOp

variable {n : Nat}

theorem isCompare_ofBinary (op : BinaryOp) (signed : Bool) :
    (Ir.Op.ofBinary op signed).isCompare = op.isComparison := by
  cases op <;> cases signed <;> rfl

theorem compare?_ofBinary {op : BinaryOp} {signed : Bool} (h : op.isComparison = true)
    (a b : BitVec n) :
    (Ir.Op.ofBinary op signed).compare? a b = some (op.compare signed a b) := by
  cases op <;> cases signed <;> first | rfl | simp [isComparison] at h

theorem arithmetic?_ofBinary {op : BinaryOp} {signed : Bool} (h : op.isComparison = false)
    (a b : BitVec n) :
    (Ir.Op.ofBinary op signed).arithmetic? a b = op.calculate? signed a b := by
  cases op <;> cases signed <;>
    first | (simp [isComparison] at h; done) | simp [Ir.Op.ofBinary, Ir.Op.arithmetic?, calculate?]

/-- Equality does not depend on signedness. -/
theorem compare_signed {op : BinaryOp} (ho : op.isOrdering = false) (signed signed' : Bool)
    (a b : BitVec n) :
    op.compare signed a b = op.compare signed' a b := by
  cases op <;> first | rfl | simp [isOrdering] at ho

/-- The lowered operator on operands of one width. Ordering comparisons take their signedness from
the operands and all else from the result. -/
theorem value?_lowered {op : BinaryOp} {type operand : IntType} {a b : Value}
    (ha : a.1 = operand.width) (hb : b.1 = operand.width)
    (h : op.isComparison = true ∨ operand.width = type.width) :
    ((Ir.Op.ofBinary op (if op.isOrdering then operand.signed else type.signed)).binary?
      type.width a.2 b.2).map (⟨type.width, ·⟩) = op.value? type operand a b := by
  obtain ⟨w, x⟩ := a
  obtain ⟨w', y⟩ := b
  obtain ⟨w, signed⟩ := operand
  dsimp only at ha hb
  subst ha hb
  rw [value?, Ir.Op.binary?, isCompare_ofBinary]
  -- comparisons look at their operands, everything else has the width of the result
  by_cases hc : op.isComparison = true
  · rw [if_pos hc, if_pos hc, compare?_ofBinary hc, Value.bitsAt_self, Value.bitsAt_self,
      BitVec.setWidth_eq]
    by_cases ho : op.isOrdering = true
    · rw [if_pos ho]
      rfl
    -- equality does not depend on the sign
    · rw [compare_signed (Bool.not_eq_true _ ▸ ho) _ signed]
      rfl
  · have hwidth := h.resolve_left hc
    have hc : op.isComparison = false := Bool.not_eq_true _ ▸ hc
    have ho : op.isOrdering = false := by cases op <;> first | rfl | cases hc
    rw [ho, hc, if_neg Bool.false_ne_true, if_neg Bool.false_ne_true, if_neg Bool.false_ne_true,
      arithmetic?_ofBinary hc]
    rfl

end Source.BinaryOp

/-- The lowered form of a unary operator. -/
theorem Source.UnaryOp.value_lowered {op : Source.UnaryOp} {op' : Ir.Op} (type : IntType)
    (h : Ir.Op.ofUnary op = .ok op') (x : Value) :
    (op'.unary? type.width x.2).map (fun y => (⟨type.width, y⟩ : Value)) =
      some (op.value type x) := by
  cases op with
  | plus => simp [Ir.Op.ofUnary] at h
  | not =>
    obtain rfl := Except.ok.inj h
    simp [Ir.Op.unary?, value, Value.ofBool, Value.holds, bne]
  | _ =>
    obtain rfl := Except.ok.inj h
    rfl

/-- An increment is an addition of one, and a decrement a subtraction. -/
theorem Source.StepOp.value_lowered (op : Source.StepOp) (w : Width) (x : BitVec w.bits) :
    ((Ir.Op.ofStep op).binary? w x ((1 : Int64).toBitVec.setWidth w.bits)).map
      (fun y => (⟨w, y⟩ : Value)) = some (op.value ⟨w, x⟩) := by
  have hone : (1 : Int64).toBitVec.setWidth w.bits = 1 := by cases w <;> rfl
  rw [hone]
  cases op <;>
    simp [Ir.Op.ofStep, Ir.Op.binary?, Ir.Op.isCompare, Ir.Op.arithmetic?, value]

/-! ## Conversions -/

namespace IntType

variable {source target : IntType}

/-- A conversion to a type of the same width keeps the word. -/
theorem convert_of_width (h : source.width = target.width) {x : Value} (hx : x.1 = source.width) :
    source.convert target x = x := by
  obtain ⟨w, x⟩ := x
  obtain ⟨w', signed⟩ := source
  obtain ⟨w'', signed'⟩ := target
  dsimp only at h hx
  subst hx h
  cases signed <;> simp [convert]

/-- The cast that is made when the width changes. -/
theorem value_cast {x : Value} (hx : x.1 = source.width) :
    ((if source.signed then Ir.Op.sCast else .uCast).unary? target.width x.2).map
      (fun y => (⟨target.width, y⟩ : Value)) = some (source.convert target x) := by
  obtain ⟨w, x⟩ := x
  obtain ⟨w', signed⟩ := source
  dsimp only at hx
  subst hx
  cases signed <;> simp [convert, Ir.Op.unary?]

end IntType

/-! ## The nodes that are made -/

namespace Lower

open TypeTable

variable {s : LowerState} {t l r : TypeId} {type left right : IntType}

/-- A binary operation on integers becomes one of the same name and sign. -/
theorem binary_ok {op : Source.BinaryOp} {x y : Ir.Expr} (ht : s.types.intType? t = some type)
    (hl : s.types.intType? l = some left) (hr : s.types.intType? r = some right) :
    binary t op l r x y s = .ok (.bin type.width
      (Ir.Op.ofBinary op (if op.isOrdering then left.signed else type.signed)) x y, s) := by
  have hsigned : s.types.isSigned (if op.isOrdering then l else t) =
      .ok (if op.isOrdering then left.signed else type.signed) := by
    split
    · exact isSigned_of_int hl
    · exact isSigned_of_int ht
  rw [binary, bind_ok (ask_ok hsigned), bind_ok (width_ok ht)]
  have hleft : ask (·.isPointerLike l) s = .ok (false, s) := ask_ok (isPointerLike_of_int hl)
  have hright : ask (·.isPointerLike r) s = .ok (false, s) := ask_ok (isPointerLike_of_int hr)
  cases op <;> simp [bind_ok hleft, bind_ok hright] <;> rfl

/-- Arithmetic is done in the width of its left operand. -/
theorem arithmetic_ok {op : Ir.Op} {x y : Ir.Expr} (ht : s.types.intType? t = some type) :
    arithmetic op t x y s = .ok (.bin x.width op x y, s) := by
  have hpointer : ask (·.isPointerLike t) s = .ok (false, s) := ask_ok (isPointerLike_of_int ht)
  rw [arithmetic]
  split
  · rw [bind_ok hpointer]
    rfl
  · rfl

/-- A cast changes something if the widths differ. -/
theorem castChanges_ok (hl : s.types.intType? l = some left)
    (hr : s.types.intType? r = some right) :
    castChanges l r s = .ok (decide (left.width ≠ right.width), s) := by
  have hbytes : (left.width.bytes ≠ right.width.bytes) = (left.width ≠ right.width) := by
    cases left.width <;> cases right.width <;> simp [Width.bytes]
  rw [castChanges, bind_ok (ask_ok (isScalar_of_int hl)), if_pos rfl,
    bind_ok (ask_ok (isScalar_of_int hr)), if_pos rfl, bind_ok (ask_ok (sizeOf_of_int hl)),
    bind_ok (ask_ok (sizeOf_of_int hr))]
  simp only [hbytes]
  rfl

end Lower

open Source (Context Store Evaluation)

/-! ## Stores -/

namespace Source.Store

variable {n : Nat} {σ τ ρ : Store}

/-- Two stores hold the same in the first `n` variables. -/
def Agree (n : Nat) (σ τ : Store) : Prop :=
  ∀ v : EntityId, v.index < n → σ v = τ v

namespace Agree

theorem refl (n : Nat) (σ : Store) : Agree n σ σ :=
  fun _ _ => rfl

theorem symm (h : Agree n σ τ) : Agree n τ σ :=
  fun v hv => (h v hv).symm

theorem trans (h : Agree n σ τ) (h' : Agree n τ ρ) : Agree n σ ρ :=
  fun v hv => (h v hv).trans (h' v hv)

/-- Writing one variable keeps two stores equal elsewhere. -/
theorem write (h : Agree n σ τ) (v : EntityId) (x : Ir.Value) :
    Agree n (σ.write v x) (τ.write v x) := by
  intro u hu
  by_cases huv : u = v
  · rw [huv, Store.write, Store.write, Function.update_self, Function.update_self]
  · rw [Store.write, Store.write, Function.update_of_ne huv, Function.update_of_ne huv, h u hu]

/-- A variable beyond the first `n` does not count. -/
theorem write_beyond (h : Agree n σ τ) {v : EntityId} (hv : n ≤ v.index) (x : Ir.Value) :
    Agree n (σ.write v x) τ := by
  intro u hu
  have huv : u ≠ v := by
    rintro rfl
    omega
  rw [Store.write, Function.update_of_ne huv, h u hu]

theorem read (h : Agree n σ τ) {v : EntityId} (hv : v.index < n) (w : Width) :
    σ.read v w = τ.read v w := by
  rw [Store.read, Store.read, h v hv]

end Agree

/-- A variable holds what it was given. -/
theorem read_write (σ : Store) (v : EntityId) (x : Ir.Value) : (σ.write v x).read v x.1 = x := by
  obtain ⟨w, x⟩ := x
  have hx : (x.setWidth 64).setWidth w.bits = x := by
    rw [BitVec.setWidth_setWidth_of_le _ (by cases w <;> decide), BitVec.setWidth_eq]
  rw [Store.read, Store.write, Function.update_self, hx]

theorem write_of_ne (σ : Store) {u v : EntityId} (h : u ≠ v) (x : Ir.Value) :
    σ.write v x u = σ u :=
  Function.update_of_ne h _ _

end Source.Store

open Source.Store (Agree)

namespace Lower

variable {n size size' : Nat} {σ σ' τ ρ : Store} {writes writes' : List EntityId}

/-- Of the first `size` variables only those of a list have changed, all of them variables of the
program, which are the first `n`. -/
def Keeps (n size : Nat) (writes : List EntityId) (σ σ' : Store) : Prop :=
  ∀ v : EntityId, v.index < size → (v.index < n → v ∉ writes) → σ' v = σ v

namespace Keeps

theorem refl : Keeps n size writes σ σ :=
  fun _ _ _ => rfl

theorem trans (h : Keeps n size writes σ τ) (h' : Keeps n size writes τ ρ) :
    Keeps n size writes σ ρ :=
  fun v hv hw => (h' v hv hw).trans (h v hv hw)

theorem mono (h : Keeps n size writes σ τ) (hsize : size' ≤ size) (hw : writes ⊆ writes') :
    Keeps n size' writes' σ τ :=
  fun v hv hw' => h v (hv.trans_le hsize) fun hn hv' => hw' hn (hw hv')

/-- A write to a later variable keeps the first `size` ones. -/
theorem write_beyond {v : EntityId} (hv : size ≤ v.index) (x : Ir.Value) :
    Keeps n size writes σ (σ.write v x) := by
  intro u hu _
  refine σ.write_of_ne ?_ x
  rintro rfl
  omega

/-- A variable that may be written is written. -/
theorem write_mem {v : EntityId} (hv : v.index < n) (hw : v ∈ writes) (x : Ir.Value) :
    Keeps n size writes σ (σ.write v x) := by
  intro u _ hu
  refine σ.write_of_ne ?_ x
  rintro rfl
  exact hu hv hw

/-- An expression keeps its value when nothing that it mentions is written. -/
theorem value? (h : Keeps n size writes σ τ) {r : Ir.Expr} (hr : ∀ v ∈ r.entities, v.index < size)
    (hw : ∀ v ∈ r.entities, v.index < n → v ∉ writes) : r.value? τ = r.value? σ :=
  Ir.Expr.value?_congr fun v hv => h v (hr v hv) (hw v hv)

end Keeps

/-! ## States -/

/-- The state of the lowering extends a context, and the labels that are placed come from its
supply. -/
structure Ready (Γ : Context) (s : LowerState) : Prop where
  profile : Γ.types.profile ∈ WidthProfile.all
  types : s.types = Γ.types
  entities : Γ.entities.entries <+: s.entities.entries
  placed : Ir.PlacedWithin 0 s.labels.next s.function.body.toList

namespace Ready

variable {Γ : Context} {s s' : LowerState} {lo : Nat} {code : List Ir.Stmt}

/-- A state that is ready stays so while code is written. -/
theorem emits (h : Ready Γ s) (he : Emits lo s s' code) : Ready Γ s' where
  profile := h.profile
  types := he.types.trans h.types
  entities := h.entities.trans he.entities
  placed := by
    rw [he.body]
    exact (h.placed.mono le_rfl he.labels).append (he.placed.mono (Nat.zero_le _) le_rfl)

theorem takeLabel (h : Ready Γ s) : Ready Γ s.takeLabel :=
  h.emits (@makes_newLabel s 0).toEmits

theorem takeTemporary (h : Ready Γ s) {type : TypeId} {ref : TypeRef}
    (href : s.types.refOf type = .ok ref) : Ready Γ (s.takeTemporary type ref) :=
  h.emits (@makes_temporary s 0 type ref href).toEmits

/-- A statement that is no label. -/
theorem push (h : Ready Γ s) {stmt : Ir.Stmt} (hs : stmt.placed? = none) :
    Ready Γ (s.push stmt) := by
  refine h.emits (@makes_emit s 0 stmt.location stmt.action fun l hl => ?_).toEmits
  simp [Ir.Stmt.placed?, hl] at hs

/-- A label from the supply. -/
theorem pushLabel (h : Ready Γ s) {l : Ir.Label} (hl : l.index < s.labels.next) :
    Ready Γ (s.push ⟨.label l, none⟩) :=
  h.emits (@makes_place s 0 l ⟨Nat.zero_le _, hl⟩).toEmits

theorem size_le (h : Ready Γ s) : Γ.entities.size ≤ s.entities.size :=
  h.entities.length_le

/-- A new label is placed nowhere yet. -/
theorem lacks (h : Ready Γ s) {l : Ir.Label} (hl : s.labels.next ≤ l.index) :
    Ir.Lacks l s.function.body.toList :=
  h.placed.lacks (.inr hl)

/-- A new label is looked for in new code. -/
theorem after? (h : Ready Γ s) (he : Emits lo s s' code) {body post : List Ir.Stmt}
    (hbody : body = s'.function.body.toList ++ post) {l : Ir.Label}
    (hl : s.labels.next ≤ l.index) : Ir.after? l body = Ir.after? l (code ++ post) := by
  rw [hbody, he.body, List.append_assoc, Ir.after?_append_of_lacks (h.lacks hl)]

theorem int (h : Ready Γ s) {id : TypeId} {type : IntType} (ht : Γ.types.intType? id = some type) :
    s.types.intType? id = some type := by
  rw [h.types, ht]

theorem typeId_ok (h : Ready Γ s) {ref : TypeRef} {id : TypeId}
    (hl : Γ.types.lookup? ref = some id) : typeId ref s = .ok (id, s) :=
  Lower.typeId_ok (by rw [h.types, hl])

theorem pointerWidth_ok (h : Ready Γ s) : ∃ w, pointerWidth s = .ok (w, s) :=
  Lower.pointerWidth_ok (by rw [h.types]; exact h.profile)

/-- An entity that is declared is found. -/
theorem entity_ok (h : Ready Γ s) {id : EntityId} {e : Entity}
    (he : Γ.entities.entries[id.index]? = some e) : entity id s = .ok (e, s) := by
  have hget : s.entities.get id = .ok e := by
    obtain ⟨more, hmore⟩ := h.entities
    have hlt : id.index < Γ.entities.entries.length := (List.getElem?_eq_some_iff.1 he).1
    rw [EntityTable.get, ← hmore, List.getElem?_append_left hlt, he]
  rw [entity, bind_ok (x := s) rfl]
  exact lift_ok hget

end Ready

end Lower

/-- The number of an integer type. -/
theorem Source.Context.type?_eq_some_iff {Γ : Context} {ref : TypeRef} {type : IntType} :
    Γ.type? ref = some type ↔
      ∃ id, Γ.types.lookup? ref = some id ∧ Γ.types.intType? id = some type :=
  Option.bind_eq_some_iff

/-- A variable of the program has an entity of an integer type, which is no constant. -/
theorem Source.Context.varType?_eq_some_iff {Γ : Context} {v : EntityId} {type : IntType} :
    Γ.varType? v = some type ↔
      ∃ e id, Γ.entities.entries[v.index]? = some e ∧ e.constantValue? = none ∧
        e.typeId = .ok id ∧ Γ.types.intType? id = some type := by
  have hconstant (e : Entity) : e.isConstant = true ↔ e.constantValue? ≠ none := by
    cases h : e.kind <;> simp [Entity.isConstant, Entity.constantValue?, h]
  rw [varType?]
  cases hv : Γ.entities.entries[v.index]? with
  | none => simp
  | some e =>
    by_cases hc : e.constantValue? = none
    · have hfalse : e.isConstant = false := by
        rw [← Bool.not_eq_true, hconstant]
        exact fun h => h hc
      cases ht : e.type <;> simp [hfalse, hc, Deferred.toOption, Entity.typeId, ht]
    · simp [(hconstant e).2 hc, hc]

namespace Source.Context

variable {Γ : Context} {v : EntityId} {type : IntType}

/-- Variables of the program are the first ones of the table. -/
theorem index_lt_of_varType? (h : Γ.varType? v = some type) : v.index < Γ.entities.size := by
  obtain ⟨e, _, he, -⟩ := varType?_eq_some_iff.1 h
  exact (List.getElem?_eq_some_iff.1 he).1

theorem constant?_of_varType? (h : Γ.varType? v = some type) : Γ.constant? v = none := by
  obtain ⟨e, _, he, hc, -⟩ := varType?_eq_some_iff.1 h
  rw [constant?, he]
  exact hc

end Source.Context

/-! ## Runs -/

namespace Lower

/-- What a run from `start` comes to, if `post` follows the code of an expression: it reaches `post`
and what is left of the expression has its value there, or the evaluation has failed. -/
inductive Delivers (n size : Nat) (writes : List EntityId) (body start post : List Ir.Stmt)
    (σ : Store) (result : Option Ir.Expr) : Option (Ir.Value × Store) → Prop where
  | value {σ' τ : Store} {x : Ir.Value} (run : Ir.Runs body (start, σ) (post, σ'))
    (keeps : Keeps n size writes σ σ') (agree : Agree n σ' τ)
    (value : ∀ r ∈ result, r.value? σ' = some x) :
    Delivers n size writes body start post σ result (some (x, τ))
  /-- what is left has no value -/
  | undefined {σ' : Store} {r : Ir.Expr} (run : Ir.Runs body (start, σ) (post, σ'))
    (keeps : Keeps n size writes σ σ') (left : result = some r) (value : r.value? σ' = none) :
    Delivers n size writes body start post σ result none
  | fails (h : Ir.Fails body (start, σ)) : Delivers n size writes body start post σ result none

namespace Delivers

variable {n size : Nat} {writes : List EntityId} {body start post : List Ir.Stmt} {σ : Store}
  {r : Ir.Expr} {out : Option (Ir.Value × Store)}

/-- Where the value of what is left is needed at once, the run goes on only if there is one. -/
theorem used (h : Delivers n size writes body start post σ (some r) out)
    (hpost : ∀ σ', r.value? σ' = none → Ir.Fails body (post, σ')) :
    out = none ∧ Ir.Fails body (start, σ) ∨
      ∃ x τ σ', out = some (x, τ) ∧ Ir.Runs body (start, σ) (post, σ') ∧
        Keeps n size writes σ σ' ∧ Agree n σ' τ ∧ r.value? σ' = some x := by
  cases h with
  | value run keeps agree value =>
    exact .inr ⟨_, _, _, rfl, run, keeps, agree, value r rfl⟩
  | undefined run keeps left value =>
    obtain rfl := Option.some.inj left
    exact .inl ⟨rfl, run.fails (hpost _ value)⟩
  | fails h => exact .inl ⟨rfl, h⟩

/-- Applying an operator to what is left applies it to the value. -/
theorem map {f : Ir.Value → Option Ir.Value} {r' : Ir.Expr}
    (h : Delivers n size writes body start post σ (some r) out)
    (hr : ∀ {σ'}, Keeps n size writes σ σ' → r'.value? σ' = (r.value? σ').bind f) :
    Delivers n size writes body start post σ (some r')
      (out.bind fun p => (f p.1).map (·, p.2)) := by
  cases h with
  | @value σ' τ x run keeps agree value =>
    have hx : r'.value? σ' = f x := by rw [hr keeps, value r rfl, Option.bind_some]
    cases hf : f x with
    | none =>
      rw [Option.bind_some, hf]
      exact .undefined run keeps rfl (hx.trans hf)
    | some y =>
      rw [Option.bind_some, hf]
      exact .value run keeps agree (by simpa using hx.trans hf)
  | undefined run keeps left value =>
    obtain rfl := Option.some.inj left
    exact .undefined run keeps rfl (by rw [hr keeps, value]; rfl)
  | fails h => exact .fails h

/-- An operation that keeps the value leaves the code as it is. -/
theorem same {f : Ir.Value → Ir.Value} {result : Option Ir.Expr}
    (h : Delivers n size writes body start post σ result out)
    (hf : ∀ r ∈ result, ∀ {σ' x}, r.value? σ' = some x → f x = x) :
    Delivers n size writes body start post σ result
      (out.bind fun p => (some (f p.1)).map (·, p.2)) := by
  cases h with
  | value run keeps agree value =>
    refine .value run keeps agree fun r hr => ?_
    rw [value r hr, hf r hr (value r hr)]
  | undefined run keeps left value => exact .undefined run keeps left value
  | fails h => exact .fails h

/-- A wider frame. -/
theorem mono {size' : Nat} {writes' : List EntityId} {result : Option Ir.Expr}
    (h : Delivers n size writes body start post σ result out) (hsize : size' ≤ size)
    (hw : writes ⊆ writes') : Delivers n size' writes' body start post σ result out := by
  cases h with
  | value run keeps agree value => exact .value run (keeps.mono hsize hw) agree value
  | undefined run keeps left value => exact .undefined run (keeps.mono hsize hw) left value
  | fails h => exact .fails h

/-- What follows a run. -/
theorem after {mid : List Ir.Stmt} {σ' : Store} {result : Option Ir.Expr}
    (hrun : Ir.Runs body (start, σ) (mid, σ')) (hkeeps : Keeps n size writes σ σ')
    (h : Delivers n size writes body mid post σ' result out) :
    Delivers n size writes body start post σ result out := by
  cases h with
  | value run keeps agree value => exact .value (hrun.trans run) (hkeeps.trans keeps) agree value
  | undefined run keeps left value =>
    exact .undefined (hrun.trans run) (hkeeps.trans keeps) left value
  | fails h => exact .fails (hrun.fails h)

/-- The right operand of a binary operator is evaluated first, and what is left of it keeps its
value while the code of the left operand runs. -/
theorem pair {size' : Nat} {writes' : List EntityId} {mid : List Ir.Stmt} {x y z : Ir.Expr}
    {left : Evaluation} {f : Ir.Value → Ir.Value → Option Ir.Value}
    (hsize : size ≤ size') (hw : writes' ⊆ writes)
    (hy : Delivers n size writes body start mid σ (some y) out)
    (hx : ∀ {σ' τ}, Agree n σ' τ → Delivers n size' writes' body mid post σ' (some x) (left τ))
    (hkept : ∀ {σ' σ''}, Keeps n size' writes' σ' σ'' → y.value? σ'' = y.value? σ')
    (hz : ∀ σ', z.value? σ' = (x.value? σ').bind fun a => (y.value? σ').bind (f a)) :
    Delivers n size writes body start post σ (some z)
      (out.bind fun p => (left p.2).bind fun q => (f q.1 p.1).map (·, q.2)) := by
  cases hy with
  | @value _ _ b run keeps agree value =>
    rw [Option.bind_some]
    refine .after run keeps (((hx agree).map (f := fun a => f a b) fun hk => ?_).mono hsize hw)
    rw [hz, hkept hk, value y rfl]
    rfl
  | @undefined σ₁ _ run keeps hleft value =>
    -- the left operand may still run, but the right one has no value afterwards either
    obtain rfl := Option.some.inj hleft
    have hnone : ((left σ₁).bind fun q => (none : Option Ir.Value).map (·, q.2)) = none := by
      cases left σ₁ <;> rfl
    rw [Option.bind_none, ← hnone]
    refine .after run keeps
      (((hx (Agree.refl n σ₁)).map (f := fun _ => none) fun hk => ?_).mono hsize hw)
    rw [hz, hkept hk, value]
    rfl
  | fails h => exact .fails h

end Delivers

/-! ## Expressions -/

/-- Code and what is left of an expression stand for an evaluation. -/
structure Implements (Γ : Context) (mentions writes : List EntityId) (type : IntType)
    (evaluation : Evaluation) (s s' : LowerState) (code : List Ir.Stmt)
    (result : Option Ir.Expr) : Prop where
  width : ∀ r ∈ result, r.width = type.width
  /-- all that is left reads variables of the expression and new temporaries -/
  entities : ∀ r ∈ result, ∀ v ∈ r.entities,
    v.index < s'.entities.size ∧ (v.index < s.entities.size → v ∈ mentions)
  delivers : ∀ {body post : List Ir.Stmt} {σ τ : Store},
    body = s'.function.body.toList ++ post → Agree Γ.entities.size σ τ →
      Delivers Γ.entities.size s.entities.size writes body (code ++ post) post σ result
        (evaluation τ)

/-- An expression mentions and writes what its operands do. -/
theorem Implements.mono {Γ : Context} {mentions mentions' writes writes' : List EntityId}
    {type : IntType} {evaluation : Evaluation} {s s' : LowerState} {code : List Ir.Stmt}
    {result : Option Ir.Expr} (h : Implements Γ mentions writes type evaluation s s' code result)
    (hm : mentions ⊆ mentions') (hw : writes ⊆ writes') :
    Implements Γ mentions' writes' type evaluation s s' code result where
  width := h.width
  entities := fun r hr v hv =>
    ⟨(h.entities r hr v hv).1, fun hlt => hm ((h.entities r hr v hv).2 hlt)⟩
  delivers := fun hbody hτ => (h.delivers hbody hτ).mono le_rfl hw

/-- Lowering an expression succeeds, in every state and whatever is asked of it, and the code stands
for its evaluation. -/
def Correct (Γ : Context) (mentions writes : List EntityId) (type : IntType)
    (evaluation : Evaluation) (lowered : Demand → Lower (Option Ir.Expr)) : Prop :=
  ∀ d s, Ready Γ s → ∃ result s' code, Makes s.labels.next (lowered d) s result s' code ∧
    Implements Γ mentions writes type evaluation s s' code result ∧
      (d = .value → result.isSome)

/-- Of the type, only the width counts. -/
theorem Correct.of_width {Γ : Context} {mentions writes : List EntityId} {type type' : IntType}
    {evaluation : Evaluation} {lowered : Demand → Lower (Option Ir.Expr)}
    (h : Correct Γ mentions writes type evaluation lowered) (hw : type.width = type'.width) :
    Correct Γ mentions writes type' evaluation lowered := by
  intro d s hs
  obtain ⟨result, s', code, hm, hi, hv⟩ := h d s hs
  exact ⟨result, s', code, hm, { hi with width := fun r hr => (hi.width r hr).trans hw }, hv⟩

/-- An expression that is lowered for its value leaves one. -/
theorem Correct.value {Γ : Context} {mentions writes : List EntityId} {type : IntType}
    {evaluation : Evaluation} {lowered : Demand → Lower (Option Ir.Expr)} {s : LowerState}
    (h : Correct Γ mentions writes type evaluation lowered) (hs : Ready Γ s) :
    ∃ r s' code, Makes s.labels.next (lowered .value) s (some r) s' code ∧
      Implements Γ mentions writes type evaluation s s' code (some r) := by
  obtain ⟨result, s', code, hm, hi, hv⟩ := h .value s hs
  obtain ⟨r, rfl⟩ := Option.isSome_iff_exists.1 (hv rfl)
  exact ⟨r, s', code, hm, hi⟩

end Lower

end Backend386
