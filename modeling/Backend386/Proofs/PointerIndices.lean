import Backend386.Proofs.I386.ExprTotal
import Backend386.Proofs.I386.StmtCode
import Backend386.Proofs.Lowering.Nodes

/-!
# Indices of every integer type

A pointer goes on or back by an index in five forms: `p[i]`, `p + i`, `i + p`, `p - i` and `p += i`.
The index may be narrower than the pointer; the code fills it up with zeros, whatever its type. This
keeps the number that the index stands for, unless that is negative.

* `IntType.number` — the number that a word of an integer type stands for;
* `Source.IndexForm` — the five forms, and `Source.IndexForm.address` — what they compute;
* `Source.IndexForm.Outcome` — what the address is used for in each of them;
* `Placement.Computes`, `Placement.Points`, `Placement.Stores` — what code does with an expression;
* `Source.IndexForm.address_widened` — all forms compute the address, by an index that is filled up.
-/

namespace Backend386

/-! ## Numbers -/

/-- Integers have the same bits if they differ by a multiple of the range. -/
theorem ofInt_eq_ofInt_iff {n : Nat} {x y : Int} :
    BitVec.ofInt n x = BitVec.ofInt n y ↔ ((2 ^ n : Nat) : Int) ∣ x - y := by
  have hne : ((2 ^ n : Nat) : Int) ≠ 0 := Int.natCast_ne_zero.2 (Nat.two_pow_pos n).ne'
  have hx := Int.emod_nonneg x hne
  have hy := Int.emod_nonneg y hne
  rw [← BitVec.toNat_inj, BitVec.toNat_ofInt, BitVec.toNat_ofInt, Int.dvd_iff_emod_eq_zero,
    ← Int.emod_eq_emod_iff_emod_sub_eq_zero]
  omega

namespace IntType

/-- The number that a word of an integer type stands for. -/
def number (type : IntType) (v : BitVec type.width.bits) : Int :=
  if type.signed then v.toInt else v.toNat

variable {type : IntType} {v : BitVec type.width.bits}

/-- A negative number is the word less one more than the largest word. -/
theorem number_cases (type : IntType) (v : BitVec type.width.bits) :
    (0 ≤ type.number v ∧ type.number v = v.toNat) ∨
      (type.number v < 0 ∧ type.number v = v.toNat - 2 ^ type.width.bits) := by
  have hv : (v.toNat : Int) < 2 ^ type.width.bits := mod_cast v.isLt
  unfold number
  split
  · rw [BitVec.toInt_eq_toNat_cond]
    split <;> [left; right] <;> push_cast <;> omega
  · exact .inl ⟨Int.natCast_nonneg _, rfl⟩

/-- So many elements of a size, counted by a word that is filled up with zeros. The distance is
right for a negative number only where the bits that are missing make no difference. -/
theorem filled_eq_iff {size : Nat} :
    v.setWidth 32 * BitVec.ofNat 32 size = BitVec.ofInt 32 (size * type.number v) ↔
      0 ≤ type.number v ∨ 2 ^ 32 ∣ size * 2 ^ type.width.bits := by
  have hfilled : v.setWidth 32 * BitVec.ofNat 32 size = BitVec.ofInt 32 (size * v.toNat) := by
    rw [← BitVec.ofNat_toNat, ← BitVec.ofNat_mul, mul_comm, ← Nat.cast_mul, BitVec.ofInt_natCast]
  rw [hfilled]
  rcases number_cases type v with ⟨hnonneg, hnumber⟩ | ⟨hneg, hnumber⟩
  · rw [hnumber]
    simp
  · have hgap : (size : Int) * v.toNat - size * (v.toNat - 2 ^ type.width.bits) =
        ((size * 2 ^ type.width.bits : Nat) : Int) := by
      rw [Int.mul_sub, Int.sub_sub_self]
      push_cast
      rfl
    rw [hnumber, ofInt_eq_ofInt_iff, hgap, or_iff_right (by omega)]
    exact Int.natCast_dvd_natCast

end IntType

/-! ## Forms -/

namespace Source

/-- The ways to write that a pointer goes on or back by an index. -/
inductive IndexForm where
  /-- `p[i]` -/
  | element
  /-- `p + i` -/
  | sum
  /-- `i + p` -/
  | flipped
  /-- `p - i` -/
  | back
  /-- `p += i` -/
  | advance
deriving DecidableEq

namespace IndexForm

/-- The expression. -/
def expr (form : IndexForm) (n : Note) (p i : Expr) : Expr :=
  match form with
  | element => .index n p i
  | sum => .binary n .add p i
  | flipped => .binary n .add i p
  | back => .binary n .sub p i
  | advance => .opAssign n .add p i

/-- The direction in which the pointer goes. -/
def step : IndexForm → StepOp
  | back => .dec
  | _ => .inc

/-- The types that are looked up before the operands are lowered. -/
def refs (form : IndexForm) (n : Note) (p i : Expr) : List TypeRef :=
  match form with
  | element | advance => [n.type, p.type]
  | sum | back => [n.type, p.type, i.type]
  | flipped => [n.type, i.type, p.type]

/-- Of the pointer and the index, what is lowered first. -/
def first {α : Type} (form : IndexForm) (p i : α) : α :=
  match form with
  | flipped => p
  | _ => i

/-- Of the pointer and the index, what is lowered second. -/
def second {α : Type} (form : IndexForm) (p i : α) : α :=
  match form with
  | flipped => i
  | _ => p

/-- The address that is computed from the lowered operands. -/
def address (form : IndexForm) (x y : Ir.Expr) (size : Nat) : Ir.Expr :=
  match form with
  | flipped => .bin .w32 .add (.scaled .w32 y size) x
  | form => .displaced form.step .w32 x y size

/-- What an expression of a form is lowered to after its operands, the pointer operand being `x`:
the address, what is read there, or an object that the address is assigned to. The address is
computed from `pointer`. -/
inductive Outcome (n : Note) (type : TypeId) (x : Ir.Expr) (s : LowerState) :
    IndexForm → (pointer address result : Ir.Expr) → LowerState → Prop where
  | element {address result : Ir.Expr} (h : Lower.load type address s = .ok (result, s)) :
    Outcome n type x s .element x address result s
  | value {form : IndexForm} {address : Ir.Expr} (h : form ≠ .element) (h' : form ≠ .advance) :
    Outcome n type x s form x address address s
  | inPlace {address : Ir.Expr} {v : EntityId} (hx : x = .var .w32 v) :
    Outcome n type x s .advance x address x
      (s.push ⟨.assign (.addr .w32 v) address, n.location⟩)
  /-- An object that is no variable is reached through a new temporary that points to it. -/
  | throughTemporary {address a : Ir.Expr} {s' : LowerState} (hx : x = .mem .w32 a)
    (hbody : s'.function.body.toList = s.function.body.toList ++
      [⟨.assign (.addr .w32 ⟨s.entities.size⟩) a, n.location⟩,
        ⟨.assign (.var .w32 ⟨s.entities.size⟩) address, n.location⟩]) :
    Outcome n type x s .advance (.mem .w32 (.var .w32 ⟨s.entities.size⟩)) address
      (.mem .w32 (.var .w32 ⟨s.entities.size⟩)) s'

variable {form : IndexForm} {x y : Ir.Expr} {size : Nat}

theorem address_of_ne (h : form ≠ .flipped) :
    form.address x y size = .displaced form.step .w32 x y size := by
  cases form <;> first | rfl | exact absurd rfl h

/-- The address, in terms of the words of its operands. -/
theorem result?_address {m : Ir.Env} {w : Width} {a : BitVec 32} {v : BitVec w.bits}
    (hx : x.result? m = some ⟨.w32, a⟩) (hy : y.result? m = some ⟨w, v⟩) :
    (form.address x y size).result? m =
      some ⟨.w32, form.step.move a (v.setWidth 32 * BitVec.ofNat 32 size)⟩ := by
  by_cases h : form = .flipped
  · subst h
    exact Ir.Expr.result?_scaled_add hx hy
  · rw [address_of_ne h]
    exact Ir.Expr.result?_displaced hx hy

/-! ### Lowering -/

/-- A pointer and an index of known types, lowered in the order of a form after the types were
looked up. -/
structure Operands (form : IndexForm) (depth : Nat) (n : Note) (p i : Expr) (s s₀ : LowerState)
    (type : TypeId) (int : IntType) (size : Nat) (x y : Ir.Expr) (s' : LowerState) : Prop where
  profile : s.types.profile = .ilp32
  looked : Lower.LooksUp (form.refs n p i) s s₀
  node : s₀.types.lookup? n.type = some type
  width : ∃ w, s₀.types.registerWidth type = .ok w ∧ (form ≠ .element → w = .w32)
  pointer : s₀.types.HasElements p.type size
  lowered : ∃ s₁, (form.first p i).LowersTo depth s₀ (form.first x y) s₁ ∧
    (form.second p i).LowersTo depth s₁ (form.second x y) s'
  index : ∃ id, s'.types.lookup? i.type = some id ∧ s'.types.intType? id = some int
  object : form = .advance → (∃ v, x = .var .w32 v) ∨ ∃ a, x = .mem .w32 a

/-- Every form computes its address, and uses it. -/
theorem Operands.lowersTo {depth : Nat} {n : Note} {p i : Expr} {s s₀ s' : LowerState}
    {type : TypeId} {int : IntType} (h : form.Operands depth n p i s s₀ type int size x y s') :
    ∃ pointer result s'', (form.expr n p i).LowersTo depth s result s'' ∧
      Outcome n type x s' form pointer (form.address pointer y size) result s'' := by
  obtain ⟨w, hw, hw32⟩ := h.width
  obtain ⟨pointer, hp, hlike, hsize⟩ := h.pointer
  obtain ⟨index, hi, hint⟩ := h.index
  obtain ⟨s₁, hfirst, hsecond⟩ := h.lowered
  have hlooked := h.looked
  have hgrown := (hfirst.grown.trans hsecond.grown).types
  have hptr := hlooked.grown.types.lasts TypeTable.pointerWidth
    (TypeTable.pointerWidth_ilp32 h.profile)
  have hother := TypeTable.isPointerLike_of_int hint
  -- the same answers are given after the operands were lowered
  have hptr' := hgrown.lasts TypeTable.pointerWidth hptr
  have hw' := hgrown.lasts (·.registerWidth type) hw
  have hlike' := hgrown.lasts (·.isPointerLike pointer) hlike
  have hsize' := hgrown.lasts (·.elementSize pointer) hsize
  -- a type of the index that was looked up before is the one that it has in the end
  have hindex (hmem : i.type ∈ form.refs n p i) : s₀.types.lookup? i.type = some index :=
    hlooked.lookup?_of_extends hmem hgrown hi
  cases form with
  | element =>
    obtain ⟨r, hr, -⟩ := Lower.load_address (x := address .element x y size) hptr' hw'
    exact ⟨x, r, s', .index hlooked h.node hp hsize hptr hfirst hsecond hr, .element hr⟩
  | sum =>
    obtain rfl := hw32 nofun
    exact ⟨x, _, s', .binary hlooked h.node hp (hindex (by simp [refs])) hfirst hsecond
      (Lower.binary_displaced .inc hptr' hw' hlike' hsize' nofun), .value nofun nofun⟩
  | flipped =>
    obtain rfl := hw32 nofun
    exact ⟨x, _, s', .binary hlooked h.node (hindex (by simp [refs])) hp hfirst hsecond
      (Lower.binary_displacedLeft hptr' hw' hother hlike' hsize'), .value nofun nofun⟩
  | back =>
    obtain rfl := hw32 nofun
    exact ⟨x, _, s', .binary hlooked h.node hp (hindex (by simp [refs])) hfirst hsecond
      (Lower.binary_displaced .dec hptr' hw' hlike' hsize' fun _ => hother),
      .value nofun nofun⟩
  | advance =>
    obtain ⟨signed, hsigned⟩ :=
      TypeTable.exists_isSigned (TypeTable.realInfo_of_isPointerLike hlike)
    have assigned {result s''}
      (hz : Lower.opAssign .value n.location (.ofStep .inc) pointer x y s' =
        .ok (some result, s'')) : Expr.LowersTo depth (.opAssign n .add p i) s result s'' :=
      .opAssign hlooked hp hsigned hfirst hsecond (StepOp.ofBinary_arith .inc signed ▸ hz)
    obtain ⟨v, rfl⟩ | ⟨a, rfl⟩ := h.object rfl
    · exact ⟨_, _, _, assigned (Lower.opAssign_var hptr' hlike' hsize'), .inPlace rfl⟩
    · obtain ⟨s'', hz, hbody⟩ := Lower.opAssign_mem hptr' hlike' hsize' (hgrown.lookup? hp)
      exact ⟨_, _, s'', assigned hz, .throughTemporary rfl hbody⟩

end IndexForm

end Source

/-! ## Widths -/

namespace Ir.Expr

variable {x y : Expr} {size : Nat}

/-- A scaled index is computed from the same variables. -/
theorem Mixed.scaled (hy : y.Mixed) : (scaled .w32 y size).Mixed := by
  unfold Expr.scaled
  split
  · exact hy
  · exact .arithmetic (by decide) rfl rfl hy (.int (by decide)) (.inr rfl) (.of_eq rfl)
      (exact_of_le (Nat.le_refl _))

theorem exact_scaled (hy : size = 1 → y.Exact .w32) : (scaled .w32 y size).Exact .w32 := by
  unfold scaled
  split
  · next h => exact hy h
  · trivial

/-- Neither the pointer nor the index of an address needs more than cutting or filling up. -/
theorem Mixed.address (form : Source.IndexForm) (hx : x.Mixed) (hxw : x.width = .w32)
    (hy : y.Mixed) (hexact : size = 1 → y.Exact .w32) : (form.address x y size).Mixed := by
  by_cases h : form = .flipped
  · subst h
    exact .arithmetic (by decide) rfl rfl hy.scaled hx (.inr rfl) (.inr rfl)
      (exact_of_le (by rw [hxw]))
  · rw [Source.IndexForm.address_of_ne h]
    cases form.step <;>
      exact .arithmetic (by decide) rfl rfl hx hy.scaled (.inr rfl) (.inr rfl) (exact_scaled hexact)

theorem whole_displaced {step : Source.StepOp} (hxw : x.width = .w32) (hx : x.Whole) :
    (displaced step .w32 x y size).Whole := by
  unfold displaced
  cases scaled .w32 y size <;> first | trivial | exact fun _ => ⟨rfl, hxw, hx⟩

end Ir.Expr

/-! ## Code -/

namespace Placement

open Machine

/-- The code of an expression leaves a word in `eax`. -/
def Computes (p : Placement) (σ : Symbols) (s : Machine) (n : Nat) (e : Ir.Expr) (r : BitVec 32) :
    Prop :=
  ∃ code, p.valueCode e = .ok code ∧ Evaluates σ s n code .w32 r

/-- The code that reaches the memory at an address. -/
def Points (p : Placement) (σ : Symbols) (s : Machine) (n : Nat) (e : Ir.Expr) (r : BitVec 32) :
    Prop :=
  ∃ code m s', p.addressCode e = .ok (code, m) ∧ s.run σ code = some s' ∧ s'.address σ m = r ∧
    s.Keeps n s'

/-- The code of an assignment leaves a word at an address. -/
def Stores (p : Placement) (σ : Symbols) (s : Machine) (n : Nat) (target e : Ir.Expr)
    (a : Address) (r : BitVec 32) : Prop :=
  ∃ code s', p.storeCode target e = .ok code ∧ s.Keeps n s' ∧
    s.run σ code = some { s' with memory := s'.memory.store a 4 r }

variable {p : Placement} {σ : Symbols} {s : Machine} {n : Nat} {e target : Ir.Expr}
  {r : BitVec 32}

/-- A store is compiled if its target is located and its value is compiled. -/
theorem storeCode_ok (ht : target.Mixed) (hp : p.Locates target) (hreach : p.reach target < 2 ^ 63)
    (he : ∃ code, p.valueCode e = .ok code) (hw : e.width ≠ .w64) :
    ∃ code, p.storeCode target e = .ok code := by
  obtain ⟨first, hfirst⟩ := he
  obtain ⟨m?, hm, -⟩ := direct?_ok ht hp hreach
  obtain ⟨rax, hrax⟩ := RegisterClass.view_ax_ok hw
  obtain ⟨rcx, hrcx⟩ := RegisterClass.view_cx_ok hw
  obtain ⟨-, addressing, m, haddressing, -⟩ := mixedCode_ok ht hp hreach
  cases m? with
  | some m =>
    exact ⟨_, bind_eq_ok_iff.2 ⟨_, hm, bind_eq_ok_iff.2 ⟨first, hfirst,
      bind_eq_ok_iff.2 ⟨rax, hrax, rfl⟩⟩⟩⟩
  | none =>
    exact ⟨_, bind_eq_ok_iff.2 ⟨_, hm, bind_eq_ok_iff.2 ⟨first, hfirst,
      bind_eq_ok_iff.2 ⟨_, haddressing, bind_eq_ok_iff.2 ⟨rcx, hrcx, rfl⟩⟩⟩⟩⟩

section

variable (he : e.Mixed) (hp : p.Locates e) (hreach : p.reach e < 2 ^ 63) (hn : n ≤ 2 ^ 32)
  (hr : e.result? (p.env σ s n) = some ⟨.w32, r⟩)

include he hp hreach hn hr

theorem computes_of_mixed (hd : 4 * e.depth ≤ n) : p.Computes σ s n e r := by
  obtain ⟨v, hv, hvalue⟩ := Ir.Expr.result?_eq_some_iff.1 hr
  obtain ⟨code, hcode⟩ := (mixedCode_ok he hp hreach).1
  have hrun := (mixedCode_spec he).1 hd hn hv hcode
  exact ⟨code, hcode, (congrArg (fun x : Ir.Value => Evaluates σ s n code x.1 x.2) hvalue).mpr hrun⟩

/-- An address that is computed from variables is where the code points. -/
theorem points_of_mixed (hwhole : e.Whole) (hd : 4 * e.depth ≤ n) : p.Points σ s n e r := by
  have hw : e.width = .w32 := Ir.Expr.width_of_result? hr
  obtain ⟨v, hv, hword⟩ := Ir.Expr.exists_eval_of_result? hr
  obtain ⟨code, m, hcode, -⟩ := (mixedCode_ok he hp hreach).2
  obtain ⟨s', hs', -, hadr, hk⟩ := (mixedCode_spec he).2 hw hwhole hd hn hv hcode
  have hword : r.setWidth 32 = v.setWidth 32 := hword 32
  exact ⟨code, m, s', hcode, hs', by rw [hadr, ← hword, BitVec.setWidth_eq], hk⟩

/-- The address of what is assigned is found after the word was computed. -/
theorem stores_of_mixed (hd : 4 * e.depth ≤ n) (ht : target.Consistent)
    (hlocates : p.Locates target)
    (hfar : p.reach target < 2 ^ 63) (hroom : 4 + 4 * target.depth ≤ n) {a : BitVec 32}
    (ha : target.result? (p.env σ s n) = some ⟨.w32, a⟩) : p.Stores σ s n target e a r := by
  have hw : e.width = .w32 := Ir.Expr.width_of_result? hr
  have htw : target.width = .w32 := Ir.Expr.width_of_result? ha
  obtain ⟨first, hfirst, s₁, hs₁, hview, hk₁⟩ := computes_of_mixed he hp hreach hn hr hd
  obtain ⟨code, hcode⟩ := storeCode_ok ht.mixed hlocates hfar ⟨first, hfirst⟩ he.width_ne
  obtain ⟨first', rest, hfirst', rfl, hrest⟩ := storeCode_spec σ ht htw hcode
  obtain rfl := Except.ok.inj (hfirst.symm.trans hfirst')
  obtain ⟨t, ht, hword⟩ := Ir.Expr.exists_eval_of_result? ha
  have hword : a.setWidth 32 = t.setWidth 32 := hword 32
  obtain ⟨s₂, hk₂, hs₂⟩ := hrest hroom hn (Ir.Expr.eval_mono (env_le_of_keeps hk₁) target ht)
  rw [hw, hview, ← hword, BitVec.setWidth_eq] at hs₂
  exact ⟨_, s₂, hcode, hk₁.trans hk₂, (run_append_of hs₁).trans hs₂⟩

end

end Placement

/-! ## Indices -/

namespace Source.IndexForm

open Ir.Expr (Mixed Whole Exact)

variable {form : IndexForm} {depth : Nat} {n : Note} {p i : Expr} {s s₀ s' : LowerState}
  {type : TypeId} {int : IntType} {size : Nat} {x y : Ir.Expr}

/-- What an address is computed from has the width of a pointer, as the pointer operand has. -/
theorem Outcome.mixed_pointer {pointer address result : Ir.Expr} {s'' : LowerState}
    (h : Outcome n type x s form pointer address result s'') (hx : x.Mixed) (hxw : x.width = .w32)
    (hwhole : x.Whole) : pointer.Mixed ∧ pointer.width = .w32 ∧ pointer.Whole := by
  cases h with
  | throughTemporary => exact ⟨.mem (by decide) (.var (by decide)) rfl trivial, rfl, trivial⟩
  | _ => exact ⟨hx, hxw, hwhole⟩

/-- What an address is assigned to mentions what the address is computed from. -/
theorem Outcome.target {pointer address result target : Ir.Expr} {s'' : LowerState}
    (h : Outcome n type x s .advance pointer address result s'')
    (ht : pointer.addressOf? .w32 = some target) : target.Consistent ∧ target.depth = 0 ∧
      target.entities = pointer.entities ∧ target.literals = pointer.literals := by
  cases h with
  | value _ h => exact absurd rfl h
  | inPlace hx =>
    subst hx
    cases ht
    exact ⟨.addr (by decide), rfl, rfl, rfl⟩
  | throughTemporary =>
    cases ht
    exact ⟨.var (by decide), rfl, rfl, rfl⟩

/-- **The address of an index of any integer type.** Every form is lowered, and what it is lowered
to uses an address, for which there is code wherever the entities are placed. From the pointer and
the word of the index, the code computes an address with the index filled up with zeros: this is as
many elements from the pointer as the index says exactly if the index is not negative, or the bits
that are missing make no difference. The code leaves the address in `eax`; it makes the element
there reachable, and stores the address in the pointer. -/
theorem address_widened (h : form.Operands depth n p i s s₀ type int size x y s')
    (hx : x.Mixed) (hxw : x.width = .w32) (hwhole : x.Whole) (hy : y.Mixed)
    (hexact : size = 1 → y.Exact .w32) :
    ∃ pointer result s'', (form.expr n p i).LowersTo depth s result s'' ∧
      Outcome n type x s' form pointer (form.address pointer y size) result s'' ∧
      ∀ (q : Placement) (σ : Symbols) (m : Machine) {room : Nat} {a : BitVec 32}
        {v : BitVec int.width.bits},
        let address := form.address pointer y size
        q.Locates address → q.reach address < 2 ^ 63 → 4 * (address.depth + 1) ≤ room →
        room ≤ 2 ^ 32 → pointer.result? (q.env σ m room) = some ⟨.w32, a⟩ →
        y.result? (q.env σ m room) = some ⟨int.width, v⟩ →
        ∃ r, q.Computes σ m room address r ∧
          (form = .element → q.Points σ m room address r) ∧
          (form = .advance → ∀ target t, pointer.addressOf? .w32 = some target →
            q.reach target < 2 ^ 63 → target.result? (q.env σ m room) = some ⟨.w32, t⟩ →
            q.Stores σ m room target address t r) ∧
          (r = form.step.move a (BitVec.ofInt 32 (size * int.number v)) ↔
            0 ≤ int.number v ∨ 2 ^ 32 ∣ size * 2 ^ int.width.bits) := by
  obtain ⟨pointer, result, s'', hlower, houtcome⟩ := h.lowersTo
  -- what is read of the source is known from the way it was lowered
  obtain ⟨hpointer, hpw, hpwhole⟩ := houtcome.mixed_pointer hx hxw hwhole
  refine ⟨pointer, result, s'', hlower, houtcome, ?_⟩
  intro q σ m room a v address hlocates hreach hroom hmax ha hv
  -- the address is mixed, so its code computes the value that it has in the model
  have hmixed : address.Mixed := .address form hpointer hpw hy hexact
  have hvalue : address.result? (q.env σ m room) = _ := result?_address ha hv
  have hdepth : 4 * address.depth ≤ room := by omega
  refine ⟨_, Placement.computes_of_mixed hmixed hlocates hreach hmax hvalue hdepth, ?_, ?_, ?_⟩
  · rintro rfl
    -- an element is pointed to: its address is put into an operand
    exact Placement.points_of_mixed hmixed hlocates hreach hmax hvalue
      (Ir.Expr.whole_displaced hpw hpwhole) hdepth
  -- a step of a pointer writes the sum back to where the pointer was read
  · rintro rfl target t htarget hfar ht
    obtain ⟨hconsistent, hdepth₀, hentities, hliterals⟩ := houtcome.target htarget
    have hleft : q.Locates target :=
      ⟨fun e he => hlocates.left.entities e (hentities ▸ he),
        fun i hi => hlocates.left.literals i (hliterals ▸ hi)⟩
    exact Placement.stores_of_mixed hmixed hlocates hreach hmax hvalue hdepth hconsistent hleft hfar
      (by omega) ht
  -- the two sums differ exactly by how the index is extended
  · rw [← IntType.filled_eq_iff]
    exact form.step.move_right_inj

/-- The variables `p` and `i`, as operands of an index form. -/
theorem operands_variables {form : IndexForm} (hform : form = .sum ∨ form = .back) :
    form.Operands 0 .pointer pointerVar charVar pointerState pointerState ⟨9⟩
      ⟨.w8, true⟩ 4 (.var .w32 ⟨0⟩) (.var .w8 ⟨1⟩) pointerState where
  profile := rfl
  looked := by
    have hlooked : Lower.LooksUp [Note.pointer.type, pointerVar.type, charVar.type] pointerState
        pointerState :=
      .again pointerTypes_pointer (.again pointerTypes_pointer (.again pointerTypes_char rfl))
    rcases hform with rfl | rfl <;> exact hlooked
  node := pointerTypes_pointer
  width := ⟨.w32, by decide, fun _ => rfl⟩
  pointer := ⟨⟨9⟩, pointerTypes_pointer, by decide, by decide⟩
  lowered := by
    have hp : pointerVar.LowersTo 0 pointerState (.var .w32 ⟨0⟩) pointerState :=
      .var (.again pointerTypes_pointer rfl) rfl rfl rfl rfl
    have hi : charVar.LowersTo 0 pointerState (.var .w8 ⟨1⟩) pointerState :=
      .var (.again pointerTypes_char rfl) rfl rfl rfl rfl
    rcases hform with rfl | rfl <;> exact ⟨pointerState, hi, hp⟩
  index := ⟨⟨1⟩, pointerTypes_char, by decide⟩
  object := by rcases hform with rfl | rfl <;> nofun

/-- With 4096 in `p` and 3 in `i`, the code of `p - i` leaves 4084 in `eax`. -/
theorem address_widened_back :
    let q : Placement := ⟨pointerEntities, ⟨[]⟩⟩
    let m : Machine := {
      regs := fun c => if c = .sp then 4096 else 8192
      memory := fun a => if a = 8189 then 16 else if a = 8184 then 3 else 0
      flags := none }
    ∃ result s'', (back.expr .pointer pointerVar charVar).LowersTo 0
        pointerState result s'' ∧ q.Computes (fun _ => 0) m 16 result 4084 := by
  intro q m
  obtain ⟨pointer, result, s'', hlower, houtcome, hcode⟩ :=
    address_widened (operands_variables (.inr rfl)) (.var (by decide)) rfl trivial
      (.var (by decide))
      nofun
  cases houtcome
  obtain ⟨r, hcomputes, -, -, hr⟩ := @hcode q (fun _ => 0) m 16 4096 3
    ⟨by decide, nofun⟩ (by decide) (by decide) (by decide) (by decide) (by decide)
  obtain rfl := hr.2 (by decide)
  exact ⟨_, _, hlower, hcomputes⟩

/-- With 4096 in `p` and -1 in `i`, the code of `p + i` leaves 5116 in `eax`, which is 255 elements
on instead of one element back. -/
theorem negative_index_filled :
    let q : Placement := ⟨pointerEntities, ⟨[]⟩⟩
    let m : Machine := {
      regs := fun c => if c = .sp then 4096 else 8192
      memory := fun a => if a = 8189 then 16 else if a = 8184 then 255 else 0
      flags := none }
    ∃ result s'', (sum.expr .pointer pointerVar charVar).LowersTo 0
        pointerState result s'' ∧
      (Ir.Expr.var .w8 ⟨1⟩).result? (q.env (fun _ => 0) m 16) = some ⟨.w8, 255⟩ ∧
      IntType.number ⟨.w8, true⟩ 255 = -1 ∧ q.Computes (fun _ => 0) m 16 result 5116 ∧
      StepOp.inc.move 4096 (BitVec.ofInt 32 (4 * -1)) = 4092#32 := by
  intro q m
  obtain ⟨pointer, result, s'', hlower, houtcome⟩ := (operands_variables (.inl rfl)).lowersTo
  cases houtcome
  -- the index is negative as the source has it, and it is not as the code fills it up
  have hmixed : (sum.address (.var .w32 ⟨0⟩) (.var .w8 ⟨1⟩) 4).Mixed :=
    .address sum (.var (by decide)) rfl (.var (by decide)) nofun
  exact ⟨_, _, hlower, by decide, by decide, Placement.computes_of_mixed hmixed ⟨by decide, nofun⟩
    (by decide) (by decide) (by decide) (by decide), by decide⟩

end Source.IndexForm

end Backend386
