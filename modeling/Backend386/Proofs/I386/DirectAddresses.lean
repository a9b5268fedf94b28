import Backend386.Proofs.I386.ExprTotal
import Backend386.Proofs.I386.StackRuns

/-!
# References agree with computed addresses

Chains of sums and differences with literals are folded into the displacement of a reference, as far
as they start at an entity or a string literal; the code for an address folds the sums on top of any
other address too. The displacement has 64 bits and the address has 32, and the two stay congruent.
This holds wherever entities are placed: nothing is asked of their storage.

* `Placement.ReadsSums` — the assembler adds numbers to symbols;
* `Placement.valueCode_direct` — the address of a reference that takes no code;
* `Placement.Continues` — the code for a value goes on where the code for a reference stops;
* `Placement.addressCode_agrees` — both uses of an expression mean one address.
-/

namespace Backend386

open Machine RegisterClass

/-- The constant that stands for the address of an entity in memory: a symbol, to which the offset
is added in the text. -/
theorem Entity.address?_memory {e : Entity} {m : MemRef} (h : e.getStorage = .ok (.memory m)) :
    e.address? = .ok none ∨ ∃ l, m = { symbol := some l, offset := m.offset } ∧
      e.address? =
        .ok (some (.symbol (if m.offset = 0 then l else l ++ "+" ++ m.offset.toInt.repr))) := by
  unfold address?
  rw [h]
  obtain ⟨base, index, offset, symbol⟩ := m
  cases base <;> cases index <;> cases symbol <;> first
    | exact .inl rfl
    | exact .inr ⟨_, rfl, rfl⟩

namespace Placement

variable {p : Placement} {σ : Symbols} {s : Machine}

/-- The assembler takes the text of a symbol and a number for their sum, wherever an entity lives so
far from a symbol. -/
def ReadsSums (p : Placement) (σ : Symbols) : Prop :=
  ∀ {v : EntityId} {e : Entity} {l : String} {k : Int64}, p.entities.get v = .ok e →
    e.storage = .settled (.memory { symbol := some l, offset := k }) → k ≠ 0 →
    σ (l ++ "+" ++ k.toInt.repr) = σ l + k.toBitVec.setWidth 32

/-! ## Addresses that take no code -/

/-- A constant of the assembler is copied to `eax`. -/
theorem run_movSymbol (l : String) :
    s.run σ [.mov (.imm (.symbol l)) (.reg .eax)] = some (s.setView .ax .w32 (σ l)) := by
  have hread : s.read σ .w32 (.imm (.symbol l)) = some (σ l) :=
    congrArg some (BitVec.setWidth_setWidth_of_le _ (by decide))
  exact run_cons_of (exec_mov (r := .eax) hread)

/-- The address of an entity in memory is the one that its storage refers to. -/
theorem entityAddressCode_memory {v : EntityId} {e : Entity} {m : MemRef}
    (he : p.entities.get v = .ok e) (hm : e.getStorage = .ok (.memory m)) :
    ∃ code, p.entityAddressCode v = .ok code ∧ ∀ {σ : Symbols} {s : Machine}, p.ReadsSums σ →
      s.run σ code = some (s.setView .ax .w32 (s.address σ m)) := by
  rcases Entity.address?_memory hm with hnone | ⟨l, hl, hsome⟩
  · exact ⟨_, bind_eq_ok_iff.2 ⟨e, he, bind_eq_ok_iff.2 ⟨_, hm, bind_eq_ok_iff.2 ⟨_, hnone, rfl⟩⟩⟩,
      fun _ => run_cons_of rfl⟩
  · refine ⟨_, bind_eq_ok_iff.2 ⟨e, he, bind_eq_ok_iff.2 ⟨_, hm, bind_eq_ok_iff.2 ⟨_, hsome, rfl⟩⟩⟩,
      fun {σ s} hσ => (run_movSymbol _).trans ?_⟩
    have haddress : s.address σ m = σ l + m.offset.toBitVec.setWidth 32 := by
      rw [hl]
      simp [Machine.address, BitVec.add_comm]
    rw [haddress]
    split
    · rename_i hzero
      simp [hzero]
    · rename_i hne
      rw [Entity.getStorage_eq_ok_iff, hl] at hm
      rw [hσ he hm hne]

/-- An operation of one instruction on a word and a literal. -/
theorem valueCode_literal {a : Ir.Expr} {w' : Width} {k : Int64} {op : Ir.Op} {i : BinaryInst}
    {code : Listing} (hi : op.simpleInst? = some i) (hw : a.width = .w32)
    (h : p.valueCode a = .ok code) :
    p.valueCode (.bin .w32 op a (.int w' k)) =
      .ok (code ++ [.inst (.binary i (.int k) (.reg .eax))]) := by
  have hoperands : operandsCode a (.int w' k) (p.valueCode a) (p.valueCode (.int w' k)) .w32
      op.isSigned = .ok (code, .int k) := by
    refine bind_eq_ok_iff.2 ⟨code, h, bind_eq_ok_iff.2 ⟨[], ?_, ?_⟩⟩
    · rw [hw]
      rfl
    · rw [List.append_nil]
      rfl
  rw [valueCode_bin]
  cases op <;> cases hi
  all_goals exact bind_eq_ok_iff.2 ⟨_, rfl, bind_eq_ok_iff.2 ⟨_, hoperands, rfl⟩⟩

/-- A literal is added to `eax`. -/
theorem run_add (k : Int64) : ∃ s', s.run σ [.inst (.binary .add (.int k) (.reg .eax))] = some s' ∧
    s'.regs .ax = s.regs .ax + k.toBitVec.setWidth 32 := by
  refine ⟨_, run_cons_of (exec_result (r := .eax) rfl rfl (by decide)), ?_⟩
  rw [← view_w32 (s := s)]
  exact regs_setView_w32

/-- A literal is subtracted from `eax`. -/
theorem run_sub (k : Int64) : ∃ s', s.run σ [.inst (.binary .sub (.int k) (.reg .eax))] = some s' ∧
    s'.regs .ax = s.regs .ax - k.toBitVec.setWidth 32 := by
  refine ⟨_, run_cons_of (exec_result (r := .eax) rfl rfl (by decide)), ?_⟩
  rw [← view_w32 (s := s)]
  exact regs_setView_w32

/-- Where a reference takes no code, the code for the value leaves the address of the reference. -/
theorem valueCode_direct {e : Ir.Expr} (he : e.Consistent) : ∀ {m : MemRef}, e.width = .w32 →
    p.direct? e = .ok (some m) → ∃ code, p.valueCode e = .ok code ∧
      ∀ {σ : Symbols} {s : Machine}, p.ReadsSums σ →
        ∃ s', s.run σ code = some s' ∧ s'.regs .ax = s.address σ m := by
  induction he with
  | int | var | mem | sign | not | cast => intro m _ h; cases h
  | @str w i hw =>
    intro m _ h
    obtain ⟨r, hr⟩ := view_ax_ok hw
    obtain ⟨m', hm, h⟩ := bind_eq_ok_iff.1 h
    cases h
    obtain ⟨entry, l, -, -, rfl⟩ := StringTable.memory_eq_ok_iff.1 hm
    have hrender : (MemRef.labelled l).render = l := by
      simp [MemRef.render, MemRef.renderDisplacement, MemRef.renderRegisters, MemRef.labelled]
    refine ⟨_, bind_eq_ok_iff.2 ⟨r, hr, bind_eq_ok_iff.2 ⟨_, bind_eq_ok_iff.2 ⟨_, hm, rfl⟩, rfl⟩⟩,
      fun _ => ⟨_, run_movSymbol _, ?_⟩⟩
    rw [hrender, address_labelled]
    exact regs_setView_w32
  | @addr w v hw =>
    intro m _ h
    obtain ⟨r, hr⟩ := view_ax_ok hw
    obtain ⟨e, he, h⟩ := bind_eq_ok_iff.1 h
    obtain ⟨st, hst, h⟩ := bind_eq_ok_iff.1 h
    cases st with
    | memory m' =>
      cases h
      obtain ⟨code, hcode, hrun⟩ := entityAddressCode_memory he hst
      exact ⟨code, bind_eq_ok_iff.2 ⟨r, hr, hcode⟩, fun hσ => ⟨_, hrun hσ, regs_setView_w32⟩⟩
    | register | immediate => cases h
  | @compare w op l r hw hop =>
    -- only sums and differences are places
    intro m _ h
    cases op <;> first | cases h | cases hop
  | @arithmetic w op l r hw hop hop' hl hr hlw hrw ihl ihr =>
    intro m hwidth h
    obtain rfl : w = .w32 := hwidth
    unfold direct? at h
    split at h <;> rename_i heq
    · cases heq
    · cases heq
    · cases heq
      obtain ⟨m?, hm, h⟩ := bind_eq_ok_iff.1 h
      cases m? with
      | none => cases h
      | some m₀ =>
        obtain ⟨m', hm', h⟩ := bind_eq_ok_iff.1 h
        cases h
        obtain ⟨code, hcode, hrun⟩ := ihl hlw hm
        refine ⟨_, valueCode_literal rfl hlw hcode, fun {σ s} hσ => ?_⟩
        obtain ⟨s₁, hs₁, hax₁⟩ := hrun (s := s) hσ
        obtain ⟨s₂, hs₂, hax₂⟩ := run_add (σ := σ) (s := s₁) _
        exact ⟨s₂, (run_append_of hs₁).trans hs₂, by rw [hax₂, hax₁, address_moveBy hm']⟩
    · cases heq
      obtain ⟨m?, hm, h⟩ := bind_eq_ok_iff.1 h
      cases m? with
      | none => cases h
      | some m₀ =>
        obtain ⟨k', hk', h⟩ := bind_eq_ok_iff.1 h
        obtain ⟨m', hm', h⟩ := bind_eq_ok_iff.1 h
        cases h
        obtain ⟨rfl, -⟩ := Checked.negInt_eq_ok_iff.1 hk'
        obtain ⟨code, hcode, hrun⟩ := ihl hlw hm
        refine ⟨_, valueCode_literal rfl hlw hcode, fun {σ s} hσ => ?_⟩
        obtain ⟨s₁, hs₁, hax₁⟩ := hrun (s := s) hσ
        obtain ⟨s₂, hs₂, hax₂⟩ := run_sub (σ := σ) (s := s₁) _
        refine ⟨s₂, (run_append_of hs₁).trans hs₂, ?_⟩
        rw [hax₂, hax₁, address_moveBy hm', Int64.toBitVec_neg,
          BitVec.setWidth_neg_of_le (by decide), BitVec.sub_eq_add_neg]
    · cases h

/-! ## Addresses that are computed -/

/-- Where a reference takes code, the code for the value goes on from there: it adds what the
reference has as its displacement from `eax`. -/
def Continues (p : Placement) (e : Ir.Expr) : Prop :=
  ∀ {code : Listing} {m : MemRef}, p.direct? e = .ok none → p.addressCode e = .ok (code, m) →
    m = .based .eax m.offset ∧ ∃ sums, p.valueCode e = .ok (code ++ sums) ∧
      ∀ (σ : Symbols) (s : Machine),
        ∃ s', s.run σ sums = some s' ∧ s'.regs .ax = s.address σ m

/-- A sum takes code if what a constant is added to does. -/
theorem direct?_of_sum {w w' : Width} {a : Ir.Expr} {k : Int64}
    (h : p.direct? (.bin w .add a (.int w' k)) = .ok none) : p.direct? a = .ok none := by
  obtain ⟨m?, hm, h⟩ := bind_eq_ok_iff.1 h
  cases m? with
  | none => exact hm
  | some m =>
    obtain ⟨m', -, h⟩ := bind_eq_ok_iff.1 h
    cases h

/-- An address continues as far as its base does. -/
theorem continues_of_base {e : Ir.Expr} (hw : e.width = .w32)
    (hbase : ∀ {w w' a k}, e = .bin w .add a (.int w' k) → a.width = .w32 ∧ p.Continues a) :
    p.Continues e := by
  intro code m hnone h
  rcases addressCode_eq_ok h with ⟨hm, -⟩ | ⟨hc, rfl⟩ | ⟨w, w', a, k, m₀, rfl, hc, hm⟩
  · cases hnone.symm.trans hm
  · refine ⟨rfl, [], by rwa [List.append_nil], fun σ s => ⟨s, rfl, ?_⟩⟩
    rw [address_based]
    exact (BitVec.add_zero _).symm
  · obtain rfl : w = .w32 := hw
    obtain ⟨haw, ha⟩ := hbase rfl
    obtain ⟨hbased, sums, hvalue, hsums⟩ := ha (direct?_of_sum hnone) hc
    refine ⟨?_, sums ++ [.inst (.binary .add (.int k) (.reg .eax))], ?_, fun σ s => ?_⟩
    · obtain ⟨offset, -, hm⟩ := bind_eq_ok_iff.1 hm
      cases hm
      rw [hbased]
      rfl
    · rw [← List.append_assoc]
      exact valueCode_literal rfl haw hvalue
    · obtain ⟨s₁, hs₁, hax₁⟩ := hsums σ s
      obtain ⟨s₂, hs₂, hax₂⟩ := run_add (σ := σ) (s := s₁) k
      exact ⟨s₂, (run_append_of hs₁).trans hs₂, by rw [hax₂, hax₁, address_moveBy hm]⟩

/-- The code for the value of every consistent address goes on from the code for its reference. -/
theorem exprCode_continues {e : Ir.Expr} (he : e.Consistent) (hw : e.width = .w32) :
    p.Continues e := by
  induction he with
  | @compare w op l r _ hop =>
    refine continues_of_base hw ?_
    rintro _ _ _ _ ⟨⟩
    cases hop
  | @arithmetic w op l r _ _ _ _ _ hlw _ ihl =>
    refine continues_of_base hw ?_
    rintro _ _ _ _ ⟨⟩
    exact ⟨hlw.trans hw, ihl (hlw.trans hw)⟩
  | _ =>
    refine continues_of_base hw ?_
    rintro _ _ _ _ ⟨⟩

/-- A reference that is made reachable takes no code, or it is known to take some. -/
theorem addressCode_cases {e : Ir.Expr} {code : Listing} {m : MemRef}
    (h : p.addressCode e = .ok (code, m)) :
    (p.direct? e = .ok (some m) ∧ code = []) ∨ p.direct? e = .ok none := by
  cases e
  all_goals
    obtain ⟨m?, hm, h⟩ := bind_eq_ok_iff.1 h
    cases m? with
    | some m' =>
      cases h
      exact .inl ⟨hm, rfl⟩
    | none => exact .inr hm

/-- **Direct references and computed addresses agree.** Take any consistent address of 32 bits, with
its entities stored anywhere, for which there is code that makes its memory reachable. Then there is
code for its value too. If a reference reaches the memory directly, the address of the reference is
what that code leaves in `eax`. If not, the reference is based on `eax`, and once its code has run
it has the address that the code for the value leaves; the stack pointer is where it was, and of the
memory only words under it have changed. Where the expression has a value, the code does run and the
address is this value. -/
theorem addressCode_agrees {e : Ir.Expr} {code : Listing} {m : MemRef} (he : e.Consistent)
    (hw : e.width = .w32) (h : p.addressCode e = .ok (code, m)) :
    ∃ value, p.valueCode e = .ok value ∧
      (∀ m', p.direct? e = .ok (some m') → code = [] ∧ m = m' ∧
        ∀ (σ : Symbols) (s : Machine), p.ReadsSums σ →
          ∃ s', s.run σ value = some s' ∧ s.address σ m' = s'.regs .ax) ∧
      (p.direct? e = .ok none → m = .based .eax m.offset ∧ ∀ (σ : Symbols) (s : Machine),
        (s.run σ value).isSome = (s.run σ code).isSome ∧
        (∀ s₁, s.run σ code = some s₁ →
          (∃ s₂, s.run σ value = some s₂ ∧ s₁.address σ m = s₂.regs .ax) ∧
          s₁.regs .sp = s.regs .sp ∧
          (∀ a, ¬ Below (s.regs .sp) (4 * e.depth) a → s₁.memory a = s.memory a) ∧
          (4 * e.depth ≤ (s.regs .sp).toNat → ∀ a, s.regs .sp ≤ a → s₁.memory a = s.memory a)) ∧
        (4 * e.depth ≤ 2 ^ 32 → ∀ v, e.eval (p.env σ s (4 * e.depth)) = some v →
          ∃ s₁, s.run σ code = some s₁ ∧ s₁.address σ m = v.setWidth 32)) := by
  -- either the assembler knows the address, or the value continues where the code of the address
  -- ends
  rcases addressCode_cases h with ⟨hdirect, rfl⟩ | hnone
  · obtain ⟨value, hvalue, hrun⟩ := valueCode_direct he hw hdirect
    refine ⟨value, hvalue, fun m' hm' => ?_, fun hnone => ?_⟩
    · cases hdirect.symm.trans hm'
      refine ⟨rfl, rfl, fun σ s hσ => ?_⟩
      obtain ⟨s', hs', hax⟩ := hrun (s := s) hσ
      exact ⟨s', hs', hax.symm⟩
    · cases hdirect.symm.trans hnone
  · obtain ⟨hbased, sums, hvalue, hsums⟩ := exprCode_continues he hw hnone h
    refine ⟨code ++ sums, hvalue, fun m' hm' => ?_, fun _ => ⟨hbased, fun σ s => ⟨?_, ?_, ?_⟩⟩⟩
    · cases hnone.symm.trans hm'
    · rw [run_append]
      cases hs : s.run σ code with
      | none => rfl
      | some s₁ =>
        obtain ⟨s₂, hs₂, -⟩ := hsums σ s₁
        rw [Option.bind_some, hs₂]
        rfl
    · intro s₁ hs₁
      obtain ⟨s₂, hs₂, hax⟩ := hsums σ s₁
      have hk : s.Keeps (4 * e.depth) s₁ := exprCode_keeps he (.inr ⟨m, h⟩) hs₁
      exact ⟨⟨s₂, (run_append_of hs₁).trans hs₂, hax.symm⟩, hk.sp, fun _ ha => hk.memory ha,
        fun hroom _ ha => hk.memory (Below.not_of_le hroom ha)⟩
    · intro hfit v hv
      obtain ⟨s₁, hs₁, -, hadr, -⟩ := (exprCode_spec he).2 hw (Nat.le_refl _) hfit hv h
      exact ⟨s₁, hs₁, hadr⟩

/-- A variable, eight bytes from the start of a table. -/
def tableEntity : Entity where
  name := "y"
  ref := default
  kind := .definedVariable none
  storage := .settled (.memory { symbol := some "table", offset := 8 })

/-- An address in a table, and an address that is computed from a variable. -/
theorem addressCode_agrees_both :
    let p : Placement := ⟨⟨[slotEntity, tableEntity]⟩, ⟨[]⟩⟩
    let σ : Symbols := fun l => if l = "table+8" then 4104 else 4096
    let s : Machine := {
      regs := fun c => if c = .sp then 4096 else 8192
      memory := fun a => if a = 8188 then 7 else 0
      flags := none }
    let inTable : Ir.Expr :=
      .bin .w32 .sub (.bin .w32 .add (.addr .w32 ⟨1⟩) (.int .w32 12)) (.int .w32 16)
    let computed : Ir.Expr :=
      .bin .w32 .add (.bin .w32 .sub (.var .w32 ⟨0⟩) (.int .w32 3)) (.int .w32 8)
    (∃ m value s', p.direct? inTable = .ok (some m) ∧ p.valueCode inTable = .ok value ∧
      s.run σ value = some s' ∧ s.address σ m = 4100 ∧ s'.regs .ax = 4100) ∧
    ∃ code m value s₁ s₂, p.addressCode computed = .ok (code, m) ∧ m = .based .eax 8 ∧
      p.valueCode computed = .ok value ∧ s.run σ code = some s₁ ∧ s.run σ value = some s₂ ∧
      s₁.address σ m = 12 ∧ s₂.regs .ax = 12 ∧ s₁.regs .sp = 4096 ∧ s₁.memory 4096 = 0 := by
  intro p σ s inTable computed
  have hword : Width.w32 ≠ .w64 := by decide
  -- the two sums that the assembler reads are those of the table
  have hsums : p.ReadsSums σ := by
    rintro ⟨_ | _ | n⟩ e l k he hst - <;> cases he <;> cases hst
    decide
  constructor
  · have he : inTable.Consistent :=
      .arithmetic hword rfl rfl (.arithmetic hword rfl rfl (.addr hword) (.int hword) rfl rfl)
        (.int hword) rfl rfl
    obtain ⟨value, hvalue, hdirect, -⟩ := addressCode_agrees he rfl (p := p) rfl
    obtain ⟨-, -, hrun⟩ := hdirect _ rfl
    obtain ⟨s', hs', hax⟩ := hrun σ s hsums
    have hadr : s.address σ { symbol := some "table", offset := 4 } = 4100 := by decide
    exact ⟨_, value, s', rfl, hvalue, hs', hadr, hax.symm.trans hadr⟩
  · have he : computed.Consistent :=
      .arithmetic hword rfl rfl (.arithmetic hword rfl rfl (.var hword) (.int hword) rfl rfl)
        (.int hword) rfl rfl
    obtain ⟨value, hvalue, -, hcomputed⟩ := addressCode_agrees he rfl (p := p) rfl
    obtain ⟨-, hrun⟩ := hcomputed rfl
    obtain ⟨-, hagree, hvalues⟩ := hrun σ s
    obtain ⟨s₁, hs₁, hadr⟩ := hvalues (by decide) 12 (by decide)
    obtain ⟨⟨s₂, hs₂, hax⟩, hsp, -, hmem⟩ := hagree s₁ hs₁
    exact ⟨_, _, value, s₁, s₂, rfl, rfl, hvalue, hs₁, hs₂, hadr, hax.symm.trans hadr, hsp,
      hmem (by decide) 4096 (by decide)⟩

end Placement

end Backend386
