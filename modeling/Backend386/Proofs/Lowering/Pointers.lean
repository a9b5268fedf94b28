import Backend386.Proofs.Lowering.Accesses
import Backend386.Proofs.Lowering.Expr
import Backend386.Proofs.Types.References

/-!
# Lowering of pointer arithmetic

Integers are scaled by the size of the elements when they are added to or subtracted from a pointer,
when they select an element, and when a pointer is stepped. What the operands are lowered to is put
together in the same way everywhere.

* `Source.StepOp.move` — further on, or back;
* `Ir.Expr.scaled`, `Ir.Expr.offsetBy`, `Ir.Expr.displaced` — so many elements, and so many bytes
  further on;
* `Lower.binary_displaced`, `Lower.binary_difference`, … — the nodes that are made.
-/

namespace Backend386

/-! ## Steps in both directions -/

namespace Source.StepOp

/-- The operator of `p + i` and of `p - i`. -/
def arith : StepOp → BinaryOp
  | inc => .add
  | dec => .sub

/-- A distance further on, or back. -/
def move {n : Nat} (step : StepOp) (a d : BitVec n) : BitVec n :=
  match step with
  | inc => a + d
  | dec => a - d

/-- The way back. -/
def reverse : StepOp → StepOp
  | inc => dec
  | dec => inc

theorem ofBinary_arith (step : StepOp) (signed : Bool) :
    Ir.Op.ofBinary step.arith signed = .ofStep step := by
  cases step <;> rfl

/-- Going a distance and then the same distance back leads to where one was. -/
@[simp] theorem reverse_move {n : Nat} (step : StepOp) (a d : BitVec n) :
    step.reverse.move (step.move a d) d = a := by
  cases step
  · exact BitVec.add_sub_cancel a d
  · exact BitVec.sub_add_cancel a d

theorem move_right_inj (step : StepOp) {n : Nat} {a d d' : BitVec n} :
    step.move a d = step.move a d' ↔ d = d' := by
  cases step
  · exact BitVec.add_right_inj a
  · exact BitVec.sub_right_inj a

end Source.StepOp

/-! ## Values -/

namespace Ir

theorem setWidth_int64_ofNat (n : Nat) (w : Width) :
    (Int64.ofNat n).toBitVec.setWidth w.bits = BitVec.ofNat w.bits n := by
  rw [Int64.toBitVec_ofNat']
  exact BitVec.setWidth_ofNat_of_le (by cases w <;> decide) n

theorem Op.binary?_ofStep (step : Source.StepOp) {w : Width} {m n : Nat} (a : BitVec m)
    (b : BitVec n) :
    (Op.ofStep step).binary? w a b = some (step.move (a.setWidth w.bits) (b.setWidth w.bits)) := by
  cases step <;> rfl

namespace Expr

/-- So many elements of a size, in bytes. -/
def scaled (ptr : Width) (count : Expr) (size : Nat) : Expr :=
  if size = 1 then count else .bin ptr .mul count (.int ptr (Int64.ofNat size))

/-- An address so many bytes further on. -/
def offsetBy (ptr : Width) (base : Expr) (offset : Nat) : Expr :=
  if offset = 0 then base else .bin ptr .add base (.int ptr (Int64.ofNat offset))

/-- A pointer so many elements further on, or back. -/
def displaced (step : Source.StepOp) (ptr : Width) (pointer count : Expr) (size : Nat) : Expr :=
  .bin ptr (.ofStep step) pointer (scaled ptr count size)

section

variable {m : Env} {e x y : Expr} {w w' ptr : Width} {a : BitVec ptr.bits} {v : BitVec w.bits}

/-- An index is scaled by the size of an element. -/
theorem result?_scaled (ptr : Width) (size : Nat) (hy : y.result? m = some ⟨w, v⟩) :
    ∃ r, (scaled ptr y size).result? m = some r ∧
      r.2.setWidth ptr.bits = v.setWidth ptr.bits * BitVec.ofNat ptr.bits size := by
  unfold scaled
  split
  · next h =>
    subst h
    exact ⟨_, hy, (BitVec.mul_one _).symm⟩
  · refine ⟨⟨ptr, v.setWidth ptr.bits * BitVec.ofNat ptr.bits size⟩, ?_, BitVec.setWidth_eq _⟩
    rw [result?_bin, hy, Option.bind_some, result?_int, Option.bind_some, setWidth_int64_ofNat]
    simp [Op.binary?, Op.isCompare, Op.arithmetic?]

/-- A pointer so many elements on is so many times the size of the elements on. -/
theorem result?_displaced {step : Source.StepOp} {size : Nat} (hx : x.result? m = some ⟨ptr, a⟩)
    (hy : y.result? m = some ⟨w, v⟩) :
    (displaced step ptr x y size).result? m =
      some ⟨ptr, step.move a (v.setWidth ptr.bits * BitVec.ofNat ptr.bits size)⟩ := by
  obtain ⟨r, hr, hvalue⟩ := result?_scaled ptr size hy
  rw [displaced, result?_bin, hx, Option.bind_some, hr, Option.bind_some, Op.binary?_ofStep, hvalue,
    BitVec.setWidth_eq]
  rfl

/-- The same with the operands in the other order. -/
theorem result?_scaled_add {size : Nat} (hx : x.result? m = some ⟨ptr, a⟩)
    (hy : y.result? m = some ⟨w, v⟩) :
    (bin ptr .add (scaled ptr y size) x).result? m =
      some ⟨ptr, a + v.setWidth ptr.bits * BitVec.ofNat ptr.bits size⟩ := by
  obtain ⟨r, hr, hvalue⟩ := result?_scaled ptr size hy
  rw [result?_bin, hr, Option.bind_some, hx, Option.bind_some]
  simp [Op.binary?, Op.isCompare, Op.arithmetic?, hvalue, BitVec.add_comm]

/-- An offset is added to the address. -/
theorem result?_offsetBy {offset : Nat} (hx : x.result? m = some ⟨ptr, a⟩) :
    (offsetBy ptr x offset).result? m = some ⟨ptr, a + BitVec.ofNat ptr.bits offset⟩ := by
  unfold offsetBy
  split
  · next h =>
    subst h
    rw [hx]
    exact congrArg (fun b => some (⟨ptr, b⟩ : Value)) (BitVec.add_zero a).symm
  · rw [result?_bin, hx, Option.bind_some, result?_int, Option.bind_some, setWidth_int64_ofNat]
    simp [Op.binary?, Op.isCompare, Op.arithmetic?]

end

end Expr

end Ir

/-! ## Types that are known -/

namespace TypeTable

variable {t : TypeTable} {id : TypeId} {w : Width}

theorem pointerWidth_ilp32 (h : t.profile = .ilp32) : t.pointerWidth = .ok .w32 := by
  rw [pointerWidth, h]
  rfl

/-- A type with a width has a real type. -/
theorem realInfo_of_registerWidth (h : t.registerWidth id = .ok w) :
    ∃ info, t.realInfo id = .ok info := by
  obtain ⟨byAddress, hbyAddress, -⟩ := bind_eq_ok_iff.1 h
  exact realInfo_of_isByAddress hbyAddress

theorem realInfo_of_isPointerLike {b : Bool} (h : t.isPointerLike id = .ok b) :
    ∃ info, t.realInfo id = .ok info := by
  obtain ⟨_, hpointer, -⟩ := bind_eq_ok_iff.1 h
  obtain ⟨info, hinfo, -⟩ := bind_eq_ok_iff.1 hpointer
  exact ⟨info, hinfo⟩

theorem exists_isSigned (h : ∃ info, t.realInfo id = .ok info) : ∃ b, t.isSigned id = .ok b := by
  obtain ⟨info, hinfo⟩ := h
  rw [isSigned, hinfo]
  cases info <;> exact ⟨_, rfl⟩

end TypeTable

/-! ## The nodes that are made -/

namespace Lower

open Ir.Expr (scaled offsetBy displaced)

variable {s s' : LowerState} {x y : Ir.Expr} {ptr w : Width} {type left right : TypeId}
  {size : Nat}

/-- A question that was answered before. -/
theorem Grown.ask_ok {α : Type} (h : Grown s s') (question : TypeTable → Except Fault α)
    [TypeTable.Lasting question] {a : α} (ha : question s.types = .ok a) :
    ask question s' = .ok (a, s') :=
  Lower.ask_ok (h.types.lasts question ha)

theorem pointerWidth_of (h : s.types.pointerWidth = .ok ptr) : pointerWidth s = .ok (ptr, s) := by
  rw [pointerWidth_eq]
  exact ask_ok h

theorem width_of (h : s.types.registerWidth type = .ok w) : width type s = .ok (w, s) := by
  rw [width_eq]
  exact ask_ok h

theorem isByAddress_of {b : Bool} (h : s.types.isByAddress type = .ok b) :
    isByAddress type s = .ok (b, s) := by
  rw [isByAddress_eq]
  exact ask_ok h

/-- What scales an index succeeds wherever pointers have a width. -/
theorem scale_ok (hptr : s.types.pointerWidth = .ok ptr) :
    scale y size s = .ok (scaled ptr y size, s) := by
  unfold scale scaled
  split
  · rfl
  · rw [bind_ok (pointerWidth_of hptr)]
    rfl

/-- So does what adds an offset. -/
theorem offsetAddress_ok {offset : Nat} (hptr : s.types.pointerWidth = .ok ptr) :
    offsetAddress x offset s = .ok (offsetBy ptr x offset, s) := by
  unfold offsetAddress offsetBy
  split
  · rfl
  · rw [bind_ok (pointerWidth_of hptr)]
    rfl

/-- An object that stands for its address. -/
theorem load_byAddress (h : s.types.isByAddress type = .ok true) : load type x s = .ok (x, s) := by
  rw [load, bind_ok (isByAddress_of h)]
  rfl

/-- An object that is read. -/
theorem load_value (h : s.types.isByAddress type = .ok false)
    (hw : s.types.registerWidth type = .ok w) : load type x s = .ok (.mem w x, s) := by
  rw [load, bind_ok (isByAddress_of h), if_neg Bool.false_ne_true, bind_ok (width_of hw)]
  rfl

/-- A pointer on the left: the right operand is scaled. -/
theorem binary_displaced (step : Source.StepOp) (hptr : s.types.pointerWidth = .ok ptr)
    (hw : s.types.registerWidth type = .ok ptr) (hl : s.types.isPointerLike left = .ok true)
    (hsize : s.types.elementSize left = .ok size)
    (hr : step = .dec → s.types.isPointerLike right = .ok false) :
    binary type step.arith left right x y s = .ok (displaced step ptr x y size, s) := by
  obtain ⟨signed, hsigned⟩ := TypeTable.exists_isSigned (TypeTable.realInfo_of_registerWidth hw)
  have hleft : ask (·.isPointerLike left) s = .ok (true, s) := ask_ok hl
  have helement : ask (·.elementSize left) s = .ok (size, s) := ask_ok hsize
  cases step with
  | inc =>
    rw [binary, Source.StepOp.arith, bind_ok (ask_ok hsigned), bind_ok (width_of hw)]
    simp only [reduceCtorEq, if_false, if_true, true_or, bind_ok hleft, bind_ok helement,
      bind_ok (scale_ok hptr)]
    rfl
  | dec =>
    have hright : ask (·.isPointerLike right) s = .ok (false, s) := ask_ok (hr rfl)
    rw [binary, Source.StepOp.arith, bind_ok (ask_ok hsigned), bind_ok (width_of hw)]
    simp only [if_true, or_true, bind_ok hleft, bind_ok hright, Bool.false_eq_true, if_false,
      bind_ok helement, bind_ok (scale_ok hptr)]
    rfl

/-- A pointer on the right of an addition: the left operand is scaled. -/
theorem binary_displacedLeft (hptr : s.types.pointerWidth = .ok ptr)
    (hw : s.types.registerWidth type = .ok ptr) (hl : s.types.isPointerLike left = .ok false)
    (hr : s.types.isPointerLike right = .ok true)
    (hsize : s.types.elementSize right = .ok size) :
    binary type .add left right x y s = .ok (.bin ptr .add (scaled ptr x size) y, s) := by
  obtain ⟨signed, hsigned⟩ := TypeTable.exists_isSigned (TypeTable.realInfo_of_registerWidth hw)
  have hleft : ask (·.isPointerLike left) s = .ok (false, s) := ask_ok hl
  have hright : ask (·.isPointerLike right) s = .ok (true, s) := ask_ok hr
  have helement : ask (·.elementSize right) s = .ok (size, s) := ask_ok hsize
  rw [binary, bind_ok (ask_ok hsigned), bind_ok (width_of hw)]
  simp only [reduceCtorEq, if_false, if_true, true_or, bind_ok hleft, bind_ok hright,
    Bool.false_eq_true, bind_ok helement, bind_ok (scale_ok hptr)]
  rfl

/-- The difference of two pointers, in elements. -/
def difference (w : Width) (x y : Ir.Expr) (size : Nat) : Ir.Expr :=
  if size = 1 then .bin w .sub x y
  else .bin w .sDiv (.bin w .sub x y) (.int w (Int64.ofNat size))

/-- The difference of two pointers is divided by the size of an element. -/
theorem binary_difference (hw : s.types.registerWidth type = .ok w)
    (hl : s.types.isPointerLike left = .ok true) (hr : s.types.isPointerLike right = .ok true)
    (hsize : s.types.elementSize left = .ok size) :
    binary type .sub left right x y s = .ok (difference w x y size, s) := by
  obtain ⟨signed, hsigned⟩ := TypeTable.exists_isSigned (TypeTable.realInfo_of_registerWidth hw)
  have hleft : ask (·.isPointerLike left) s = .ok (true, s) := ask_ok hl
  have hright : ask (·.isPointerLike right) s = .ok (true, s) := ask_ok hr
  have helement : ask (·.elementSize left) s = .ok (size, s) := ask_ok hsize
  rw [binary, bind_ok (ask_ok hsigned), bind_ok (width_of hw)]
  simp only [if_true, bind_ok hleft, bind_ok hright, bind_ok helement, difference]
  split <;> rfl

/-- A pointer that is stepped: the distance is scaled. -/
theorem arithmetic_displaced {step : Source.StepOp} (hptr : s.types.pointerWidth = .ok ptr)
    (hx : x.width = ptr) (ht : s.types.isPointerLike type = .ok true)
    (hsize : s.types.elementSize type = .ok size) :
    arithmetic (.ofStep step) type x y s = .ok (displaced step ptr x y size, s) := by
  subst hx
  have htype : ask (·.isPointerLike type) s = .ok (true, s) := ask_ok ht
  have helement : ask (·.elementSize type) s = .ok (size, s) := ask_ok hsize
  cases step <;>
  · simp only [arithmetic, Ir.Op.ofStep, true_or, or_true, if_true, bind_ok htype,
      bind_ok helement, bind_ok (scale_ok hptr)]
    rfl

/-! ### Objects -/

/-- The address of the object that a value was read from. -/
theorem objectAddress_of {place : Option Location} (h : s.types.AddressOf type x y) :
    objectAddress place type x s = .ok (y, s) := by
  rcases h with ⟨hb, rfl⟩ | ⟨hb, ptr, hptr, ha⟩
  · rw [objectAddress, bind_ok (isByAddress_of hb)]
    rfl
  · rw [objectAddress, bind_ok (isByAddress_of hb), if_neg Bool.false_ne_true,
      bind_ok (pointerWidth_of hptr), ha]
    rfl

/-- What is read from an address has the address. -/
theorem load_address (hptr : s.types.pointerWidth = .ok ptr)
    (hw : s.types.registerWidth type = .ok w) :
    ∃ y, load type x s = .ok (y, s) ∧ s.types.AddressOf type y x := by
  obtain ⟨b, hb, -⟩ := Backend386.bind_eq_ok_iff.1 hw
  cases b with
  | true => exact ⟨x, load_byAddress hb, .inl ⟨hb, rfl⟩⟩
  | false => exact ⟨.mem w x, load_value hb hw, .inr ⟨hb, ptr, hptr, rfl⟩⟩

/-- A member is loaded from its offset. -/
theorem member_ok {composite part : TypeId} {name : String} {offset : Nat}
    (hm : s.types.member? composite name = .ok (some (part, offset)))
    (hptr : s.types.pointerWidth = .ok ptr)
    (hy : load type (offsetBy ptr x offset) s = .ok (y, s)) :
    member type composite x name s = .ok (y, s) := by
  have hask : ask (·.member? composite name) s = .ok (some (part, offset), s) := ask_ok hm
  rw [member, bind_ok hask]
  dsimp only
  rw [bind_ok (offsetAddress_ok hptr), hy]

/-- There are pointers to every type that was looked up. -/
theorem exists_pointerTo {ref : TypeRef} (h : s.types.lookup? ref = some type) :
    ∃ types id, pointerTo type s = .ok (id, { s with types }) ∧ s.types.Extends types ∧
      types.refOf id = .ok (.pointer ref) := by
  have hpointer : ∃ types id, s.types.intern (.pointer ref) = .ok (types, id) := by
    rw [TypeTable.intern.eq_def]
    cases hfound : s.types.lookup? (.pointer ref) with
    | some id => exact ⟨_, _, rfl⟩
    | none =>
      have href : s.types.intern ref = .ok (s.types, type) := by
        rw [TypeTable.intern.eq_def]
        simp [h]
      exact ⟨_, _, Backend386.bind_eq_ok_iff.2
        ⟨_, href, TypeTable.put_eq_ok_iff.2 ⟨hfound, rfl, rfl⟩⟩⟩
  obtain ⟨types, id, hpointer⟩ := hpointer
  refine ⟨types, id, ?_, (TypeTable.intern_extends hpointer).1,
    TypeTable.refOf_of_lookup? (TypeTable.intern_lookup? hpointer)⟩
  have hask : ask (·.pointerTo type) s = .ok ((types, id), s) :=
    ask_ok (Backend386.bind_eq_ok_iff.2 ⟨ref, TypeTable.refOf_of_lookup? h, hpointer⟩)
  rw [pointerTo, bind_ok hask]
  rfl

/-- A value that waits in a new temporary. -/
theorem storeTemporary_ok {loc : Option Location} {ref : TypeRef}
    (href : s.types.refOf type = .ok ref)
    (hptr : s.types.pointerWidth = .ok ptr) : storeTemporary loc type x s =
      .ok (⟨s.entities.size⟩,
        (s.takeTemporary type ref).push ⟨.assign (.addr ptr ⟨s.entities.size⟩) x, loc⟩) :=
  (makes_storeTemporary href (pointerWidth_of hptr) : Makes 0 _ _ _ _ _).run

section

variable {d : Demand} {loc : Option Location} {step : Source.StepOp} {v : EntityId}
  (hptr : s.types.pointerWidth = .ok ptr) (ht : s.types.isPointerLike type = .ok true)
  (hsize : s.types.elementSize type = .ok size)

include hptr ht hsize

/-- A pointer variable is stepped in place. -/
theorem opAssign_var : opAssign d loc (.ofStep step) type (.var ptr v) y s =
    .ok (d.answer (.var ptr v),
      s.push ⟨.assign (.addr ptr v) (displaced step ptr (.var ptr v) y size), loc⟩) := by
  rw [opAssign, bind_ok (pointerWidth_of hptr)]
  exact bind_ok (arithmetic_displaced hptr rfl ht hsize)

/-- A pointer in memory is stepped through a temporary that holds its address. -/
theorem opAssign_mem {ref : TypeRef} (href : s.types.lookup? ref = some type) :
    let tmp : EntityId := ⟨s.entities.size⟩
    let object : Ir.Expr := .mem ptr (.var ptr tmp)
    ∃ s', opAssign d loc (.ofStep step) type (.mem ptr x) y s = .ok (d.answer object, s') ∧
      s'.function.body.toList = s.function.body.toList ++
        [⟨.assign (.addr ptr tmp) x, loc⟩,
          ⟨.assign (.var ptr tmp) (displaced step ptr object y size), loc⟩] := by
  intro tmp object
  obtain ⟨types, id, hpointer, hext, hrefs⟩ := exists_pointerTo href
  set s₁ : LowerState := { s with types }
  let s₂ := (s₁.takeTemporary id (.pointer ref)).push ⟨.assign (.addr ptr tmp) x, loc⟩
  have hstore : storeTemporary loc id x s₁ = .ok (tmp, s₂) :=
    storeTemporary_ok hrefs (hext.lasts TypeTable.pointerWidth hptr)
  have hvalue : arithmetic (.ofStep step) type object y s₂ =
      .ok (displaced step ptr object y size, s₂) :=
    arithmetic_displaced (hext.lasts TypeTable.pointerWidth hptr) rfl
      (hext.lasts (·.isPointerLike type) ht) (hext.lasts (·.elementSize type) hsize)
  refine ⟨s₂.push ⟨.assign (.var ptr tmp) (displaced step ptr object y size), loc⟩, ?_,
    by simp [s₂, s₁]⟩
  rw [opAssign, bind_ok (pointerWidth_of hptr)]
  dsimp only [Ir.Expr.addressOf?]
  rw [bind_ok hpointer, bind_ok hstore]
  exact bind_ok hvalue

/-- The old value of a pointer variable is kept in a temporary. -/
theorem postStep_var {ref : TypeRef} (href : s.types.lookup? ref = some type) :
    let old : EntityId := ⟨s.entities.size⟩
    ∃ s', postStep .value loc (.ofStep step) type ptr (.var ptr v) s =
        .ok (some (.var ptr old), s') ∧
      s'.function.body.toList = s.function.body.toList ++
        [⟨.assign (.addr ptr old) (.var ptr v), loc⟩,
          ⟨.assign (.addr ptr v) (displaced step ptr (.var ptr old) (.int ptr 1) size), loc⟩] := by
  intro old
  let s₁ := (s.takeTemporary type ref).push ⟨.assign (.addr ptr old) (.var ptr v), loc⟩
  have hvalue : arithmetic (.ofStep step) type (.var ptr old) (.int ptr 1) s₁ =
      .ok (displaced step ptr (.var ptr old) (.int ptr 1) size, s₁) :=
    arithmetic_displaced hptr rfl ht hsize
  refine ⟨s₁.push ⟨.assign (.addr ptr v)
    (displaced step ptr (.var ptr old) (.int ptr 1) size), loc⟩, ?_, by simp [s₁]⟩
  rw [postStep, bind_ok (pointerWidth_of hptr)]
  dsimp only
  rw [bind_ok (storeTemporary_ok (TypeTable.refOf_of_lookup? href) hptr)]
  exact bind_ok hvalue

end

end Lower

end Backend386
