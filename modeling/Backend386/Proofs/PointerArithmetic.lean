import Backend386.Proofs.AccessWidths
import Backend386.Proofs.Ir.Store
import Backend386.Proofs.Lowering.Nodes

/-!
# Pointer differences undo pointer additions

Pointers are moved by the size of their elements in four places: by an addition or a subtraction, by
the selection of an element, by a compound assignment and by a step. All four go by the same
distance, so they undo each other, and the difference of two pointers finds the number of elements
again.

* `Source.Expr.Denotes` — what an expression is worth, wherever it is lowered later;
* `Source.Expr.Denotes.displace`, `Source.Expr.Denotes.difference`, … — the arithmetic of pointers;
* `LowerState.IsVariable`, `Source.StepForm` — variables, and the ways to step them;
* `Source.StepForm.IsStep.runs`, `Source.StepForm.undoneBy` — a step moves the variable, and a step
  back moves it back;
* `Source.pointer_arithmetic` — the laws, all together.
-/

namespace Backend386

/-! ## Quotients -/

/-- So many elements of a size, divided by the size. -/
theorem binary?_sDiv_scaled {v : BitVec 32} {size : Nat} (hsize : ¬ 2 ^ 32 ∣ size)
    (hsmall : (v.toInt * size).natAbs < 2 ^ 31) :
    Ir.Op.sDiv.binary? .w32 (v * BitVec.ofNat 32 size) (BitVec.ofNat 32 size) = some v := by
  -- the distance is read as a signed number, which it fits in
  have hdistance : (v * BitVec.ofNat 32 size).toInt = v.toInt * size := by
    have hword : v * BitVec.ofNat 32 size = BitVec.ofInt 32 (v.toInt * size) := by
      rw [BitVec.ofInt_mul, BitVec.ofInt_toInt, BitVec.ofInt_natCast]
    rw [hword, BitVec.toInt_ofInt]
    exact Int.bmod_eq_of_le (by omega) (by omega)
  have hne : BitVec.ofNat 32 size ≠ 0#32 := by
    intro h
    have hzero := congrArg BitVec.toNat h
    rw [BitVec.toNat_ofNat] at hzero
    exact hsize (Nat.dvd_of_mod_eq_zero hzero)
  -- the quotient overflows for the least number only, and the distance is not that small
  have hmin : v * BitVec.ofNat 32 size ≠ BitVec.intMin 32 := by
    intro h
    have hleast : (BitVec.intMin 32).toInt = -2 ^ 31 := by decide
    rw [h, hleast] at hdistance
    omega
  have hquotient : (v * BitVec.ofNat 32 size).sdiv (BitVec.ofNat 32 size) = v := by
    refine BitVec.eq_of_toInt_eq ?_
    rw [BitVec.toInt_sdiv_of_ne_or_ne _ _ (.inl hmin), hdistance]
    by_cases hv : v.toInt = 0
    · rw [hv, Int.zero_mul, Int.zero_tdiv]
    · -- an index that is not zero bounds the size
      have hle : size ≤ (v.toInt * size).natAbs := by
        rw [Int.natAbs_mul, Int.natAbs_natCast]
        exact Nat.le_mul_of_pos_left size (Int.natAbs_pos.2 hv)
      have hsigned : (BitVec.ofNat 32 size).toInt = size := by
        rw [← BitVec.ofInt_natCast, BitVec.toInt_ofInt]
        exact Int.bmod_eq_of_le (by omega) (by omega)
      have hpos : (size : Int) ≠ 0 := by
        intro h
        exact hsize (by rw [Int.natCast_eq_zero.1 h]; exact Nat.dvd_zero _)
      rw [hsigned, Int.mul_tdiv_cancel _ hpos]
  -- the widths agree already, so nothing is extended before the division
  change Ir.Op.sDiv.arithmetic? (BitVec.setWidth 32 _) (BitVec.setWidth 32 _) = _
  rw [BitVec.setWidth_eq, BitVec.setWidth_eq]
  exact (if_pos ⟨hne, fun h => hmin h.1⟩).trans (congrArg some hquotient)

namespace Ir.Expr

variable {m : Env} {x y : Expr} {a b v : BitVec 32} {size : Nat}

/-- The difference of two pointers that are so many elements apart. -/
theorem result?_difference (hx : x.result? m = some ⟨.w32, a⟩) (hy : y.result? m = some ⟨.w32, b⟩)
    (hapart : a - b = v * BitVec.ofNat 32 size) (hsize : ¬ 2 ^ 32 ∣ size)
    (hsmall : (v.toInt * size).natAbs < 2 ^ 31) :
    (Lower.difference .w32 x y size).result? m = some ⟨.w32, v⟩ := by
  have hsub : (bin .w32 .sub x y).result? m = some ⟨.w32, v * BitVec.ofNat 32 size⟩ := by
    rw [result?_bin, hx, Option.bind_some, hy, Option.bind_some, ← hapart,
      ← BitVec.setWidth_eq a, ← BitVec.setWidth_eq b]
    rfl
  unfold Lower.difference
  split
  · next h =>
    subst h
    rw [hsub]
    exact congrArg (fun b => some (⟨.w32, b⟩ : Value)) (BitVec.mul_one v)
  · rw [result?_bin, hsub, Option.bind_some, result?_int, Option.bind_some, setWidth_int64_ofNat]
    exact congrArg (Option.map _) (binary?_sDiv_scaled hsize hsmall)

end Ir.Expr

/-! ## Values -/

namespace Source.Expr

open Lower (Steps LooksUp)

/-- Wherever it is lowered later, the expression becomes one that is worth `r`. -/
def Denotes (depth : Nat) (m : Ir.Env) (s : LowerState) (e : Expr) (r : Ir.Value) : Prop :=
  ∀ s₁, Steps .all s s₁ → ∃ x s₂, e.LowersTo depth s₁ x s₂ ∧ x.result? m = some r

namespace Denotes

variable {depth : Nat} {m : Ir.Env} {s : LowerState} {n n' : Note} {p i i' l r : Expr}
  {ptr w : Width}
  {a v : BitVec ptr.bits} {size : Nat}

section

variable (hptr : s.types.pointerWidth = .ok ptr)
  (hp : s.types.Resolves p.type (·.HasElements p.type size))
  (hx : p.Denotes depth m s ⟨ptr, a⟩) (hy : i.Denotes depth m s ⟨ptr, v⟩)

include hptr hp hx hy

/-- `p + i` and `p - i`. -/
theorem displace (hn : s.types.Resolves n.type (·.HasWidth n.type ptr))
    (hi : s.types.Resolves i.type (·.IsPlain i.type)) (step : StepOp) :
    (Expr.binary n step.arith p i).Denotes depth m s
      ⟨ptr, step.move a (v * BitVec.ofNat ptr.bits size)⟩ := by
  intro s₁ h
  obtain ⟨s₀, hlooked, ⟨type, htype, hwidth⟩, ⟨left, hleft, hlike, hsize⟩, right, hright, hother⟩ :=
    LooksUp.three (hn.later h.interns) (hp.later h.interns) (hi.later h.interns)
  have h₀ : Steps .all s s₀ := h.trans hlooked.steps
  obtain ⟨y, s₂, hylower, hyvalue⟩ := hy _ h₀
  obtain ⟨x, s₃, hxlower, hxvalue⟩ := hx _ (h₀.trans hylower.steps)
  have hgrown := (hylower.grown.trans hxlower.grown).types
  have hz := Lower.binary_displaced (x := x) (y := y) step
    (hgrown.lasts TypeTable.pointerWidth (h₀.grown.types.lasts TypeTable.pointerWidth hptr))
    (hgrown.lasts (·.registerWidth type) hwidth) (hgrown.lasts (·.isPointerLike left) hlike)
    (hgrown.lasts (·.elementSize left) hsize)
    fun _ => hgrown.lasts (·.isPointerLike right) hother
  exact ⟨_, s₃, .binary hlooked htype hleft hright hylower hxlower hz,
    (Ir.Expr.result?_displaced hxvalue hyvalue).trans (by rw [BitVec.setWidth_eq])⟩

/-- `(p + i) - i` and `(p - i) + i`. -/
theorem displace_reverse (hn : s.types.Resolves n.type (·.HasElements n.type size))
    (hw : s.types.Resolves n.type (·.HasWidth n.type ptr))
    (hw' : s.types.Resolves n'.type (·.HasWidth n'.type ptr))
    (hi : s.types.Resolves i.type (·.IsPlain i.type))
    (hi' : s.types.Resolves i'.type (·.IsPlain i'.type)) (hy' : i'.Denotes depth m s ⟨ptr, v⟩)
    (step : StepOp) :
    (Expr.binary n' step.reverse.arith (.binary n step.arith p i) i').Denotes depth m s
      ⟨ptr, a⟩ := by
  have hthere := hx.displace hptr hp hy hw hi step
  have hback := displace (p := .binary n step.arith p i) hptr hn hthere hy' hw' hi' step.reverse
  rwa [StepOp.reverse_move] at hback

/-- `i + p`. -/
theorem displaceLeft (hn : s.types.Resolves n.type (·.HasWidth n.type ptr))
    (hi : s.types.Resolves i.type (·.IsPlain i.type)) :
    (Expr.binary n .add i p).Denotes depth m s
      ⟨ptr, a + v * BitVec.ofNat ptr.bits size⟩ := by
  intro s₁ h
  obtain ⟨s₀, hlooked, ⟨type, htype, hwidth⟩, ⟨left, hleft, hother⟩, right, hright, hlike, hsize⟩ :=
    LooksUp.three (hn.later h.interns) (hi.later h.interns) (hp.later h.interns)
  have h₀ : Steps .all s s₀ := h.trans hlooked.steps
  obtain ⟨x, s₂, hxlower, hxvalue⟩ := hx _ h₀
  obtain ⟨y, s₃, hylower, hyvalue⟩ := hy _ (h₀.trans hxlower.steps)
  have hgrown := (hxlower.grown.trans hylower.grown).types
  have hz := Lower.binary_displacedLeft (x := y) (y := x)
    (hgrown.lasts TypeTable.pointerWidth (h₀.grown.types.lasts TypeTable.pointerWidth hptr))
    (hgrown.lasts (·.registerWidth type) hwidth) (hgrown.lasts (·.isPointerLike left) hother)
    (hgrown.lasts (·.isPointerLike right) hlike) (hgrown.lasts (·.elementSize right) hsize)
  exact ⟨_, s₃, .binary hlooked htype hleft hright hxlower hylower hz,
    (Ir.Expr.result?_scaled_add hxvalue hyvalue).trans (by rw [BitVec.setWidth_eq])⟩

/-- `&p[i]`, for elements of any type with a width. -/
theorem elementAddress {P : TypeTable → Prop} (hn : s.types.Resolves n.type P)
    (hn' : s.types.Resolves n'.type (·.HasWidth n'.type w)) :
    (Expr.addr n (.index n' p i)).Denotes depth m s
      ⟨ptr, a + v * BitVec.ofNat ptr.bits size⟩ := by
  intro s₁ h
  obtain ⟨s₀, hlooked, -, element, helement, hwidth⟩ :=
    LooksUp.two (hn.later h.interns) (hn'.later h.interns)
  have h₀ : Steps .all s s₀ := h.trans hlooked.steps
  -- the index looks its own type up again, and then that of the pointer
  obtain ⟨s₂, hlooked', left, hleft, -, hsize⟩ := LooksUp.one (hp.later h₀.interns)
  have h₂ : Steps .all s s₂ := h₀.trans hlooked'.steps
  obtain ⟨y, s₃, hylower, hyvalue⟩ := hy _ h₂
  obtain ⟨x, s₄, hxlower, hxvalue⟩ := hx _ (h₂.trans hylower.steps)
  have hptr₂ := h₂.grown.types.lasts TypeTable.pointerWidth hptr
  have hgrown := (hylower.grown.trans hxlower.grown).types
  obtain ⟨z, hz, haddress⟩ := Lower.load_address (x := .displaced .inc ptr x y size)
    (hgrown.lasts TypeTable.pointerWidth hptr₂)
    ((hlooked'.grown.types.trans hgrown).lasts (·.registerWidth element) hwidth)
  have hindex : Expr.LowersTo depth (.index n' p i) s₀ z s₄ :=
    .index (.again helement hlooked') (hlooked'.grown.types.lookup? helement) hleft hsize hptr₂
      hylower hxlower hz
  exact ⟨_, s₄, .addr hlooked helement hindex haddress,
    (Ir.Expr.result?_displaced hxvalue hyvalue).trans (by rw [BitVec.setWidth_eq]; rfl)⟩

end

/-- The difference of two pointers that are so many elements apart. -/
theorem difference {size' : Nat} {a b v : BitVec 32}
    (hn : s.types.Resolves n.type (·.HasWidth n.type .w32))
    (hl : s.types.Resolves l.type (·.HasElements l.type size))
    (hr : s.types.Resolves r.type (·.HasElements r.type size'))
    (hx : l.Denotes depth m s ⟨.w32, a⟩) (hy : r.Denotes depth m s ⟨.w32, b⟩)
    (hapart : a - b = v * BitVec.ofNat 32 size) (hsize : ¬ 2 ^ 32 ∣ size)
    (hsmall : (v.toInt * size).natAbs < 2 ^ 31) :
    (Expr.binary n .sub l r).Denotes depth m s ⟨.w32, v⟩ := by
  intro s₁ h
  obtain ⟨s₀, hlooked, ⟨type, htype, hwidth⟩, ⟨left, hleft, hlike, helement⟩,
    right, hright, hlike', -⟩ :=
    LooksUp.three (hn.later h.interns) (hl.later h.interns) (hr.later h.interns)
  have h₀ : Steps .all s s₀ := h.trans hlooked.steps
  obtain ⟨y, s₂, hylower, hyvalue⟩ := hy _ h₀
  obtain ⟨x, s₃, hxlower, hxvalue⟩ := hx _ (h₀.trans hylower.steps)
  have hgrown := (hylower.grown.trans hxlower.grown).types
  have hz := Lower.binary_difference (x := x) (y := y) (hgrown.lasts (·.registerWidth type) hwidth)
    (hgrown.lasts (·.isPointerLike left) hlike) (hgrown.lasts (·.isPointerLike right) hlike')
    (hgrown.lasts (·.elementSize left) helement)
  exact ⟨_, s₃, .binary hlooked htype hleft hright hylower hxlower hz,
    Ir.Expr.result?_difference hxvalue hyvalue hapart hsize hsmall⟩

end Denotes

end Source.Expr

/-! ## Variables -/

namespace LowerState

open Lower (Grown LooksUp)

/-- A variable whose values have a width. -/
def IsVariable (s : LowerState) (u : EntityId) (w : Width) : Prop :=
  ∃ entity type, s.entities.get u = .ok entity ∧ entity.constantValue? = none ∧
    entity.type = .settled type ∧ s.types.isByAddress type = .ok false ∧
    s.types.registerWidth type = .ok w

variable {s s' : LowerState} {u : EntityId} {w : Width}

theorem IsVariable.mono (h : Grown s s') (hu : s.IsVariable u w) : s'.IsVariable u w :=
  let ⟨entity, type, he, hc, ht, hb, hw⟩ := hu
  ⟨entity, type, h.get he, hc, ht, h.types.lasts (·.isByAddress type) hb,
    h.types.lasts (·.registerWidth type) hw⟩

/-- A variable is not made later. -/
theorem IsVariable.ne_size (hu : s.IsVariable u w) : u ≠ ⟨s.entities.size⟩ := by
  obtain ⟨entity, -, he, -⟩ := hu
  rintro rfl
  exact Nat.lt_irrefl _ (EntityTable.lt_of_get he)

/-- A variable is lowered to itself. -/
theorem IsVariable.lowersTo {depth : Nat} {n : Source.Note} (h : LooksUp [n.type] s s')
    (hu : s'.IsVariable u w) : Source.Expr.LowersTo depth (.var n u) s (.var w u) s' := by
  obtain ⟨entity, declared, he, hc, ht, hb, hw⟩ := hu
  refine .var h he hc ht ?_
  rw [Lower.designated, Lower.bind_ok (Lower.isByAddress_of hb), if_neg Bool.false_ne_true,
    Lower.bind_ok (Lower.width_of hw)]
  rfl

/-- A variable denotes what it holds. -/
theorem IsVariable.denotes {depth : Nat} {m : Ir.Env} {n : Source.Note} {P : TypeTable → Prop}
    {a : BitVec w.bits} (hn : s.types.Resolves n.type P) (hu : s.IsVariable u w)
    (hm : m.var u w = some a) : Source.Expr.Denotes depth m s (.var n u) ⟨w, a⟩ := by
  intro s₁ h
  obtain ⟨s', hlooked, -⟩ := LooksUp.one (hn.later h.interns)
  exact ⟨_, s', (hu.mono (h.grown.trans hlooked.grown)).lowersTo hlooked,
    Ir.Expr.result?_eq_some_iff.2 ⟨a, hm, rfl⟩⟩

/-- The address of a variable. -/
theorem IsVariable.addr_denotes {depth : Nat} {m : Ir.Env} {n n' : Source.Note}
    {P : TypeTable → Prop} {ptr : Width} {a : BitVec ptr.bits}
    (hptr : s.types.pointerWidth = .ok ptr) (hn : s.types.Resolves n.type P)
    (hn' : s.types.Resolves n'.type fun t =>
      ∃ id, t.lookup? n'.type = some id ∧ t.isByAddress id = .ok false)
    (hu : s.IsVariable u w) (hm : m.address u = some (a.setWidth 64)) :
    Source.Expr.Denotes depth m s (.addr n (.var n' u)) ⟨ptr, a⟩ := by
  intro s₁ h
  obtain ⟨s', hlooked, -, id, hid, hb⟩ := LooksUp.two (hn.later h.interns) (hn'.later h.interns)
  have hgrown := h.grown.trans hlooked.grown
  exact ⟨.addr ptr u, s', .addr hlooked hid ((hu.mono hgrown).lowersTo (.again hid rfl))
    (.inr ⟨hb, ptr, hgrown.types.lasts TypeTable.pointerWidth hptr, rfl⟩),
    Ir.Expr.result?_addr hm⟩

end LowerState

/-! ## Steps -/

namespace Source

/-- The ways to step a variable in place. -/
inductive StepForm where
  /-- `++p` -/
  | before
  /-- `p++` -/
  | after
  /-- `p += 1` -/
  | compound
deriving DecidableEq

namespace StepForm

/-- The expression, in either direction. -/
def expr (form : StepForm) (n : Note) (step : StepOp) (p one : Expr) : Expr :=
  match form with
  | before => .preStep n step p
  | after => .postStep n step p
  | compound => .opAssign n step.arith p one

/-- The value of the expression, of what the variable held and what it holds then. -/
def value {α : Type} (form : StepForm) (old new : α) : α :=
  match form with
  | after => old
  | _ => new

open Ir.Expr (displaced)
open Lower (LooksUp)

variable {form : StepForm} {step : StepOp} {depth : Nat} {s : LowerState} {n n₁ np : Note}
  {u : EntityId} {size : Nat} {w : Width}

theorem value?_of_read {σ : Store} {r : Ir.Value} (h : σ.read u w = r) :
    (Ir.Expr.var w u).value? σ = some r :=
  congrArg some h

/-- What is assigned. -/
theorem value?_stepped {σ : Store} {x : Ir.Expr} {a : BitVec 32}
    (hx : x.value? σ = some ⟨.w32, a⟩) :
    (displaced step .w32 x (.int w 1) size).value? σ =
      some ⟨.w32, step.move a (BitVec.ofNat 32 size)⟩ := by
  have hone : ((1 : Int64).toBitVec.setWidth w.bits).setWidth 32 = 1 := by cases w <;> decide
  have hdistance : ((1 : Int64).toBitVec.setWidth w.bits).setWidth 32 * BitVec.ofNat 32 size =
      BitVec.ofNat 32 size := by
    rw [hone]
    exact BitVec.one_mul _
  have hvalue : (displaced step .w32 x (.int w 1) size).value? σ = _ :=
    Ir.Expr.result?_displaced hx (Ir.Expr.result?_int w 1)
  exact hvalue.trans (congrArg (fun d => some (⟨.w32, step.move a d⟩ : Ir.Value)) hdistance)

/-- A variable that is stepped in place holds the next or the previous pointer. -/
theorem runs_stepped {σ : Store} {a : BitVec 32} {loc : Option Location} {body rest : List Ir.Stmt}
    (hread : σ.read u .w32 = ⟨.w32, a⟩) :
    ∃ σ', Ir.Runs body
        (⟨.assign (.addr .w32 u) (displaced step .w32 (.var .w32 u) (.int w 1) size), loc⟩ :: rest,
          σ)
        (rest, σ') ∧
      σ'.read u .w32 = ⟨.w32, step.move a (BitVec.ofNat 32 size)⟩ :=
  ⟨_, Ir.runs_assign (value?_stepped (value?_of_read hread)), Store.read_write ..⟩

/-- An expression of a form that steps the variable `u`, whose elements have a size. -/
def IsStep (form : StepForm) (step : StepOp) (t : TypeTable) (u : EntityId) (size : Nat)
    (e : Expr) :
    Prop :=
  ∃ n np n₁ w, e = form.expr n step (.var np u) (.int n₁ 1) ∧ t.Resolves n.type (fun _ => True) ∧
    t.Resolves np.type (fun t => t.HasElements np.type size ∧ t.HasWidth np.type .w32) ∧
    t.Resolves n₁.type (·.HasWidth n₁.type w)

theorem IsStep.later {t t' : TypeTable} {e : Expr}
    (h : Relation.ReflTransGen TypeTable.Interns t t') (he : form.IsStep step t u size e) :
    form.IsStep step t' u size e :=
  let ⟨n, np, n₁, w, he, hn, hp, hone⟩ := he
  ⟨n, np, n₁, w, he, hn.later h, hp.later h, hone.later h⟩

/-- A variable that is stepped holds the next or the previous pointer, and the expression has the
value of its form. -/
theorem IsStep.runs {e : Expr} (depth : Nat) (he : form.IsStep step s.types u size e)
    (hptr : s.types.pointerWidth = .ok .w32) (hu : s.IsVariable u .w32) :
    ∃ x s' code, e.LowersTo depth s x s' ∧
      s'.function.body.toList = s.function.body.toList ++ code ∧
      ∀ (body rest : List Ir.Stmt) {σ : Store} {a : BitVec 32}, σ.read u .w32 = ⟨.w32, a⟩ →
        ∃ σ', Ir.Runs body (code ++ rest, σ) (rest, σ') ∧
          σ'.read u .w32 = ⟨.w32, step.move a (BitVec.ofNat 32 size)⟩ ∧
          x.value? σ' = some ⟨.w32, form.value a (step.move a (BitVec.ofNat 32 size))⟩ := by
  obtain ⟨n, np, n₁, w, rfl, hn, hp, hone⟩ := he
  obtain ⟨s₀, hlooked, -, ⟨pointer, hpointer, hlike, hsize⟩, pointer', hpointer', hwidth⟩ :=
    LooksUp.two hn hp
  obtain rfl := Option.some.inj (hpointer.symm.trans hpointer')
  have hptr₀ := hlooked.grown.types.lasts TypeTable.pointerWidth hptr
  have hu₀ := hu.mono hlooked.grown
  have hvar : Expr.LowersTo depth (.var np u) s₀ (.var .w32 u) s₀ :=
    hu₀.lowersTo (.again hpointer rfl)
  have hbody₀ := congrArg (fun f : Ir.Function => f.body.toList) hlooked.function_eq
  cases form with
  | before =>
    refine ⟨_, _, [_], .preStep hlooked hpointer hwidth hvar (Lower.opAssign_var hptr₀ hlike hsize),
      LowerState.push_body.trans (by rw [hbody₀]), fun _ _ _ _ hread => ?_⟩
    obtain ⟨σ', hrun, hnew⟩ := runs_stepped hread
    exact ⟨σ', hrun, hnew, value?_of_read hnew⟩
  | after =>
    -- the old value is kept in a temporary, which is another variable
    obtain ⟨s', hstep, hbody⟩ := Lower.postStep_var hptr₀ hlike hsize hpointer
    refine ⟨_, s', _, .postStep hlooked hpointer hwidth hvar hstep, hbody.trans (by rw [hbody₀]),
      fun body rest σ a hread => ?_⟩
    have hold : (σ.write ⟨s₀.entities.size⟩ ⟨.w32, a⟩).read ⟨s₀.entities.size⟩ .w32 = ⟨.w32, a⟩ :=
      Store.read_write ..
    refine ⟨_, (Ir.runs_assign (value?_of_read hread)).trans
      (Ir.runs_assign (value?_stepped (value?_of_read hold))), Store.read_write .., ?_⟩
    rw [Lower.value?_var_write_of_ne hu₀.ne_size.symm]
    exact value?_of_read hold
  | compound =>
    obtain ⟨signed, hsigned⟩ :=
      TypeTable.exists_isSigned (TypeTable.realInfo_of_isPointerLike hlike)
    -- the type of the literal is looked up between those of the node and the assignment
    obtain ⟨s₁, hlooked', hwidth₁⟩ := LooksUp.one (hone.later hlooked.steps.interns)
    have hgrown := hlooked'.grown.types
    have hvar₁ : Expr.LowersTo depth (.var np u) s₁ (.var .w32 u) s₁ :=
      (hu₀.mono hlooked'.grown).lowersTo (.again (hgrown.lookup? hpointer) rfl)
    have hptr₁ := hgrown.lasts TypeTable.pointerWidth hptr₀
    have hlike₁ := hgrown.lasts (·.isPointerLike pointer) hlike
    have hsize₁ := hgrown.lasts (·.elementSize pointer) hsize
    refine ⟨_, _, [_], .opAssign hlooked hpointer hsigned (.int hlooked' hwidth₁) hvar₁
      (StepOp.ofBinary_arith step signed ▸ Lower.opAssign_var hptr₁ hlike₁ hsize₁),
      LowerState.push_body.trans (by rw [hlooked'.function_eq, hbody₀]), fun _ _ _ _ hread => ?_⟩
    obtain ⟨σ', hrun, hnew⟩ := runs_stepped hread
    exact ⟨σ', hrun, hnew, value?_of_read hnew⟩

/-- The variable `u` is stepped by `e`, and then stepped back by `e'`. In between it holds the next
or the previous pointer, and in the end the old one again. -/
def UndoneBy (form form' : StepForm) (depth : Nat) (s : LowerState) (step : StepOp) (u : EntityId)
    (size : Nat) (e e' : Expr) : Prop :=
  ∃ x x' s₁ s₂ code code', e.LowersTo depth s x s₁ ∧ e'.LowersTo depth s₁ x' s₂ ∧
    s₂.function.body.toList = s.function.body.toList ++ (code ++ code') ∧
    ∀ (body : List Ir.Stmt) {σ : Store} {a : BitVec 32}, σ.read u .w32 = ⟨.w32, a⟩ →
      let b := step.move a (BitVec.ofNat 32 size)
      ∃ σ₁ σ₂, Ir.Runs body (code ++ code', σ) (code', σ₁) ∧ Ir.Runs body (code', σ₁) ([], σ₂) ∧
        σ₁.read u .w32 = ⟨.w32, b⟩ ∧ x.value? σ₁ = some ⟨.w32, form.value a b⟩ ∧
        σ₂.read u .w32 = ⟨.w32, a⟩ ∧ x'.value? σ₂ = some ⟨.w32, form'.value b a⟩

/-- A step is undone by the reverse step. -/
theorem undoneBy {form' : StepForm} {e e' : Expr} (hptr : s.types.pointerWidth = .ok .w32)
    (hu : s.IsVariable u .w32) (he : form.IsStep step s.types u size e)
    (he' : form'.IsStep step.reverse s.types u size e') :
    form.UndoneBy form' depth s step u size e e' := by
  obtain ⟨x, s₁, code, hlower, hbody, hruns⟩ := he.runs depth hptr hu
  have hgrown := hlower.grown
  obtain ⟨x', s₂, code', hlower', hbody', hruns'⟩ := (he'.later hlower.steps.interns).runs depth
    (hgrown.types.lasts TypeTable.pointerWidth hptr) (hu.mono hgrown)
  refine ⟨x, x', s₁, s₂, code, code', hlower, hlower', by rw [hbody', hbody, List.append_assoc], ?_⟩
  intro body σ a hread b
  have hback : step.reverse.move b (BitVec.ofNat 32 size) = a := step.reverse_move ..
  obtain ⟨σ₁, hrun, hnew, hvalue⟩ := hruns body code' hread
  obtain ⟨σ₂, hrun', hold, hvalue'⟩ := hruns' body [] hnew
  rw [List.append_nil] at hrun'
  exact ⟨σ₁, σ₂, hrun, hrun', hnew, hvalue,
    hold.trans (congrArg (fun c => (⟨.w32, c⟩ : Ir.Value)) hback),
    hvalue'.trans (congrArg (fun c => some (⟨.w32, form'.value b c⟩ : Ir.Value)) hback)⟩

end StepForm

/-! ## The laws -/

/-- **The arithmetic of pointers.** The pointers or arrays `p` and `p'` and the integers `i` and
`i'` are worth `a` and `v` wherever they are lowered, and the types of the nodes are as they should
be whenever they are looked up. Then the difference of `p + i` and `p'` is the integer again, unless
the size of the elements counts for nothing in 32 bits; `p + i` less `i'`, and `p - i` with `i'`
added, are the pointer again; and `&p[i]`, `p + i` and `i + p` have one value. A variable that holds
a pointer holds the next or the previous one after a step in any form, which a step back in any form
undoes. -/
theorem pointer_arithmetic {depth : Nat} {m : Ir.Env} {s : LowerState} {p p' i i' : Expr}
    {n n' difference element : Note} {size : Nat} {w : Width} {a v : BitVec 32}
    (hprofile : s.types.profile = .ilp32)
    (hp : s.types.Resolves p.type (·.HasElements p.type size))
    (hp' : s.types.Resolves p'.type (·.HasElements p'.type size))
    (hi : s.types.Resolves i.type (·.IsPlain i.type))
    (hi' : s.types.Resolves i'.type (·.IsPlain i'.type))
    (hn : s.types.Resolves n.type (·.HasElements n.type size))
    (hnw : s.types.Resolves n.type (·.HasWidth n.type .w32))
    (hnw' : s.types.Resolves n'.type (·.HasWidth n'.type .w32))
    (hdifference : s.types.Resolves difference.type (·.HasWidth difference.type .w32))
    (helement : s.types.Resolves element.type (·.HasWidth element.type w))
    (hx : p.Denotes depth m s ⟨.w32, a⟩) (hx' : p'.Denotes depth m s ⟨.w32, a⟩)
    (hy : i.Denotes depth m s ⟨.w32, v⟩) (hy' : i'.Denotes depth m s ⟨.w32, v⟩) :
    (¬ 2 ^ 32 ∣ size → (v.toInt * size).natAbs < 2 ^ 31 →
      (Expr.binary difference .sub (.binary n .add p i) p').Denotes depth m s ⟨.w32, v⟩) ∧
    (Expr.binary n' .sub (.binary n .add p i) i').Denotes depth m s ⟨.w32, a⟩ ∧
    (Expr.binary n' .add (.binary n .sub p i) i').Denotes depth m s ⟨.w32, a⟩ ∧
    (let r : BitVec 32 := a + v * BitVec.ofNat 32 size
     (Expr.addr n (.index element p i)).Denotes depth m s ⟨.w32, r⟩ ∧
     (Expr.binary n .add p i).Denotes depth m s ⟨.w32, r⟩ ∧
     (Expr.binary n .add i p).Denotes depth m s ⟨.w32, r⟩) ∧
    ∀ (form form' : StepForm) (step : StepOp) {u : EntityId} {e e' : Expr}, s.IsVariable u .w32 →
      form.IsStep step s.types u size e → form'.IsStep step.reverse s.types u size e' →
      form.UndoneBy form' depth s step u size e e' := by
  have hptr := TypeTable.pointerWidth_ilp32 hprofile
  -- the sum is all that the forms share: the others are undone from it
  have hadd := hx.displace hptr hp hy hnw hi .inc
  refine ⟨fun hsize hsmall => ?_, hx.displace_reverse hptr hp hy hn hnw hnw' hi hi' hy' .inc,
    hx.displace_reverse hptr hp hy hn hnw hnw' hi hi' hy' .dec,
    ⟨?_, hadd, hx.displaceLeft hptr hp hy hnw hi⟩, ?_⟩
  · have hapart : a + v * BitVec.ofNat 32 size - a = v * BitVec.ofNat 32 size := by
      rw [BitVec.add_comm, BitVec.add_sub_cancel]
    exact hadd.difference hdifference hn hp' hx' hapart hsize hsmall
  · exact hx.elementAddress hptr hp hy hn helement
  · exact fun _ _ _ _ _ _ hu he he' => StepForm.undoneBy hptr hu he he'

/-- An annotation with the type of pointers to pointers to `int`, which has not been looked up. -/
def Note.pointerPointer : Note where
  type := .pointer (.pointer (.integer .int true))

/-- With 8188 as the address of `p`, and 3 in `k`: `(&p + k) - &p` is 3, and `p -= 1` undoes `p++`.
-/
theorem pointer_arithmetic_ints :
    let m : Ir.Env := { Ir.storeWorld.env fun _ => 3 with address := fun _ => some 8188 }
    let p : Expr := .addr .pointerPointer pointerVar
    pointerTypes.lookup? p.type = none ∧
      (Expr.binary .int .sub (.binary .pointerPointer .add p countVar) p).Denotes 0 m
        pointerState ⟨.w32, 3⟩ ∧
      StepForm.after.UndoneBy .compound 0 pointerState .inc ⟨0⟩ 4
        (.postStep .pointer .inc pointerVar)
        (.opAssign .pointer .sub pointerVar (.int .int 1)) := by
  intro m p
  -- the table holds the integers, and a pointer to one of them is registered after the check
  have hcheck : checkedTypes .ilp32 [] = .ok (.initial .ilp32, []) := rfl
  have hintern : (TypeTable.initial .ilp32).intern (.pointer (.integer .int true)) =
      .ok (pointerTypes, ⟨9⟩) := rfl
  have hcanonical := ((TypeTable.Canonical.initial .ilp32).intern hintern).canonical
  have hmeasured := (checkedTypes_measured (by decide) hcheck rfl).of_interns
    (.single ⟨_, _, hintern⟩)
  have hsize : pointerTypes.sizeOf ⟨9⟩ = .ok 4 := by decide
  have hptr : pointerTypes.pointerWidth = .ok .w32 := by decide
  have hpp := hcanonical.resolves_pointer hmeasured pointerTypes_pointer hsize hptr
  -- each hypothesis is computed in the table as it is at first, and it lasts while the table grows
  have hp : pointerTypes.HasElements Note.pointer.type 4 :=
    ⟨⟨9⟩, pointerTypes_pointer, by decide, by decide⟩
  have hpw : pointerTypes.HasWidth Note.pointer.type .w32 := ⟨⟨9⟩, pointerTypes_pointer, by decide⟩
  have hi : pointerTypes.IsPlain Note.int.type := ⟨⟨5⟩, pointerTypes_int, by decide⟩
  have hiw : pointerTypes.HasWidth Note.int.type .w32 := ⟨⟨5⟩, pointerTypes_int, by decide⟩
  have hp' := TypeTable.Resolves.of_lookup? pointerTypes_pointer fun _ h =>
    And.intro (hp.mono h) (hpw.mono h)
  have hi' := TypeTable.Resolves.of_lookup? pointerTypes_int fun _ h => hi.mono h
  have hiw' : pointerState.types.Resolves Note.int.type (·.HasWidth Note.int.type .w32) :=
    .of_lookup? pointerTypes_int fun _ h => hiw.mono h
  have hpvar : pointerState.IsVariable ⟨0⟩ .w32 := ⟨_, ⟨9⟩, rfl, rfl, rfl, by decide, by decide⟩
  have hkvar : pointerState.IsVariable ⟨2⟩ .w32 := ⟨_, ⟨5⟩, rfl, rfl, rfl, by decide, by decide⟩
  have hx : p.Denotes 0 m pointerState ⟨.w32, 8188⟩ :=
    hpvar.addr_denotes hptr hpp (.of_lookup? pointerTypes_pointer fun _ h =>
      ⟨⟨9⟩, h.lookup? pointerTypes_pointer, h.lasts (·.isByAddress ⟨9⟩) (by decide)⟩) (by decide)
  have hy : countVar.Denotes 0 m pointerState ⟨.w32, 3⟩ := hkvar.denotes hi' (by decide)
  have hnn : pointerState.types.Resolves Note.pointerPointer.type
      (·.HasElements Note.pointerPointer.type 4) := hpp.imp fun _ h => h.1
  have hnw : pointerState.types.Resolves Note.pointerPointer.type
      (·.HasWidth Note.pointerPointer.type .w32) := hpp.imp fun _ h => h.2
  have helement : pointerState.types.Resolves Note.pointer.type
      (·.HasWidth Note.pointer.type .w32) := hp'.imp fun _ h => h.2
  obtain ⟨hdifference, -, -, -, hsteps⟩ :=
    pointer_arithmetic rfl hnn hnn hi' hi' hnn hnw hnw hiw' helement hx hx hy hy
  have hone : pointerTypes.Resolves Note.pointer.type fun _ => True := hp'.imp fun _ _ => trivial
  exact ⟨by decide, hdifference (by decide) (by decide), hsteps .after .compound .inc hpvar
    ⟨.pointer, .pointer, .int, .w32, rfl, hone, hp', hiw'⟩
    ⟨.pointer, .pointer, .int, .w32, rfl, hone, hp', hiw'⟩⟩

/-- Pointers `p` to arrays of 4 GiB, and an integer. -/
def hugeState : LowerState where
  types := {
    profile := .ilp32
    entries := TypeTable.basicEntries .ilp32 ++
      [⟨.array (.integer .int true) (some 1073741824), .array ⟨5⟩ (some 1073741824)⟩,
        ⟨.pointer (.array (.integer .int true) (some 1073741824)), .pointer ⟨9⟩⟩] }
  entities := {
    entries := [
      { name := "p", ref := .pointer (.array (.integer .int true) (some 1073741824)),
        kind := .definedVariable none, type := .settled ⟨10⟩ }] }

/-- The size of such an array is 0 in 32 bits: the difference of `p + 0` and `p` divides by it, and
has no value. -/
theorem huge_difference_undefined :
    let p : Expr := .var { type := .pointer (.array (.integer .int true) (some 1073741824)) } ⟨0⟩
    let m := Ir.storeWorld.env fun _ => 4096
    hugeState.types.HasElements p.type (2 ^ 32) ∧ ((0 : BitVec 32).toInt * 2 ^ 32).natAbs < 2 ^ 31 ∧
      ∃ x s', (Expr.binary .int .sub (.binary ⟨p.type, none⟩ .add p (.int .int 0)) p).LowersTo 0
        hugeState x s' ∧ x.result? m = none := by
  intro p m
  have hlookup : hugeState.types.lookup? p.type = some ⟨10⟩ := by decide
  have hint : hugeState.types.lookup? Note.int.type = some ⟨5⟩ := by decide
  have hlike : hugeState.types.isPointerLike ⟨10⟩ = .ok true := by decide
  have hsize : hugeState.types.elementSize ⟨10⟩ = .ok (2 ^ 32) := by decide
  have hptr : hugeState.types.pointerWidth = .ok .w32 := by decide
  have hintw : hugeState.types.registerWidth ⟨5⟩ = .ok .w32 := by decide
  have hvar : hugeState.IsVariable ⟨0⟩ .w32 := ⟨_, ⟨10⟩, rfl, rfl, rfl, by decide, by decide⟩
  have hp : p.LowersTo 0 hugeState (.var .w32 ⟨0⟩) hugeState := hvar.lowersTo (.again hlookup rfl)
  have hi : (Expr.int .int 0).LowersTo 0 hugeState (.int .w32 0) hugeState :=
    .int (.again hint rfl) ⟨_, hint, hintw⟩
  have hsum : (Expr.binary ⟨p.type, none⟩ .add p (.int .int 0)).LowersTo 0 hugeState _ hugeState :=
    .binary (.again hlookup (.again hlookup (.again hint rfl))) hlookup hlookup hint hi hp
      (Lower.binary_displaced .inc hptr (by decide) hlike hsize nofun)
  refine ⟨⟨_, hlookup, hlike, hsize⟩, by decide, _, _,
    .binary (.again hint (.again hlookup (.again hlookup rfl))) hint hlookup hlookup hp hsum
      (Lower.binary_difference hintw hlike hlike hsize), by decide⟩

end Source

end Backend386
