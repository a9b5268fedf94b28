import Backend386.Proofs.I386.ExprCode
import Backend386.Proofs.Ir.Step

/-!
# Code for stores, tests and arguments

What the parts of a statement's code do that have no jumps and no calls in them.

* `Placement.storeCode_spec` — the rest of a store, once the value is in `eax`;
* `Placement.testCode_spec` — the flags that a conditional jump looks at;
* `ArgumentsAt`, `Placement.argumentCode_spec` — the arguments of a call on the stack.
-/

namespace Backend386

open Machine

namespace Machine

variable {σ : Symbols} {s : Machine} {r : Register} {m : MemRef}

/-- A register is copied to memory. -/
theorem exec_movToMemory : s.exec σ (.binary .mov (.reg r) (.mem m)) =
    some { s with
      memory := s.memory.store (s.address σ m) r.size.bytes (s.view r.cls r.size) } := by
  have hx : s.exec σ (.binary .mov (.reg r) (.mem m)) =
      (s.read σ r.size (.reg r)).bind fun v => s.write σ r.size v (.mem m) := rfl
  rw [hx, read_reg]
  rfl

theorem exec_pushEax : s.exec σ (.push (.reg .eax)) = some (s.push (s.regs .ax)) := by
  rw [← view_w32 (s := s)]
  rfl

end Machine

namespace Placement

variable {p : Placement} {σ : Symbols}

/-! ## Stores -/

/-- Where a value is stored that takes no code to reach. -/
theorem storeDirect_spec {target : Ir.Expr} {w : Width} {s : Machine} {n : Nat} {m : MemRef}
    {r : Register} {a : BitVec target.width.bits} (ht : target.Consistent)
    (htw : target.width = .w32) (hm : p.direct? target = .ok (some m))
    (hr : RegisterClass.ax.view w = .ok r) (ha : target.eval (p.env σ s n) = some a) :
    s.run σ [.mov (.reg r) (.mem m)] =
      some { s with memory := s.memory.store (a.setWidth 32) w.bytes (s.view .ax w) } := by
  obtain ⟨hax, rfl⟩ := RegisterClass.view_eq_ok_iff.1 hr
  rw [← (direct?_spec ht.mixed hm htw (ht.whole htw) ha).2]
  exact run_cons_of (exec_movToMemory (r := ⟨.ax, w, hax⟩))

/-- The value waits on the stack while the address is found. -/
theorem storeIndirect_spec {target : Ir.Expr} {w : Width} {s : Machine} {n : Nat} {m : MemRef}
    {r : Register} {addressing : Listing} {a : BitVec target.width.bits} (ht : target.Consistent)
    (htw : target.width = .w32) (hcode : p.addressCode target = .ok (addressing, m))
    (hr : RegisterClass.cx.view w = .ok r) (hd : 4 + 4 * target.depth ≤ n)
    (hn : n ≤ 2 ^ 32) (ha : target.eval (p.env σ s n) = some a) :
    ∃ s₁, s.Keeps n s₁ ∧
      s.run σ ([.pushEax] ++ addressing ++ [.popEcx, .mov (.reg r) (.mem m)]) =
        some { s₁ with memory := s₁.memory.store (a.setWidth 32) w.bytes (s.view .ax w) } := by
  -- the value is pushed, the address is computed, and the value is popped into another register
  obtain ⟨hcx, rfl⟩ := RegisterClass.view_eq_ok_iff.1 hr
  obtain ⟨n, rfl⟩ := Nat.exists_eq_add_of_le (show 4 ≤ n by omega)
  -- the address is still the same with one word pushed
  have ha' := Ir.Expr.eval_mono (env_le_push (v := s.regs .ax) hn) target ha
  obtain ⟨s₁, hs₁, hsteady, hadr, hk⟩ :=
    (exprCode_spec ht).2 htw (by omega) (by omega) ha' hcode
  have htop : s₁.top = s.regs .ax := top_of_push hn hk
  set s₂ := s₁.drop.setView .cx .w32 s₁.top with hs₂
  have hcx₂ : s₂.view .cx w = s.view .ax w := by
    rw [view, hs₂, regs_setView_w32, htop, view]
  -- popping does not touch the registers of the address
  have hadr₂ : s₂.address σ m = a.setWidth 32 := by
    rw [← hadr]
    exact hsteady.address rfl rfl
  refine ⟨s₂, (Keeps.of_push hn hk).trans (.setView (.inr (.inl rfl))), ?_⟩
  rw [List.append_assoc, List.singleton_append]
  refine (run_cons_of exec_pushEax).trans ((run_append_of hs₁).trans ?_)
  refine (run_cons_of (show s₁.exec σ (.pop (.reg .ecx)) = some s₂ from rfl)).trans ?_
  rw [← hcx₂, ← hadr₂]
  exact run_cons_of (exec_movToMemory (r := ⟨.cx, w, hcx⟩))

/-- What a store does once the value is in `eax`. -/
theorem storeCode_spec (σ : Symbols) {target value : Ir.Expr} {code : Listing}
    (ht : target.Consistent) (htw : target.width = .w32)
    (h : p.storeCode target value = .ok code) :
    ∃ first rest, p.valueCode value = .ok first ∧ code = first ++ rest ∧
      ∀ {s : Machine} {n : Nat} {a : BitVec target.width.bits}, 4 + 4 * target.depth ≤ n →
        n ≤ 2 ^ 32 → target.eval (p.env σ s n) = some a →
        ∃ s₁, s.Keeps n s₁ ∧ s.run σ rest = some { s₁ with
          memory :=
            s₁.memory.store (a.setWidth 32) value.width.bytes (s.view .ax value.width) } := by
  obtain ⟨m?, hm, h⟩ := bind_eq_ok_iff.1 h
  -- the target is known to the assembler, or its address is computed
  cases m? with
  | some m =>
    obtain ⟨first, hfirst, h⟩ := bind_eq_ok_iff.1 h
    obtain ⟨r, hr, h⟩ := bind_eq_ok_iff.1 h
    cases h
    refine ⟨first, _, hfirst, rfl, fun {s n a} _ _ ha => ⟨s, .refl, ?_⟩⟩
    exact storeDirect_spec ht htw hm hr ha
  | none =>
    obtain ⟨first, hfirst, h⟩ := bind_eq_ok_iff.1 h
    obtain ⟨⟨addressing, m⟩, hcode, h⟩ := bind_eq_ok_iff.1 h
    obtain ⟨r, hr, h⟩ := bind_eq_ok_iff.1 h
    cases h
    refine ⟨first, [.pushEax] ++ addressing ++ [.popEcx, .mov (.reg r) (.mem m)], hfirst,
      by simp, fun hd hn ha => ?_⟩
    exact storeIndirect_spec ht htw hcode hr hd hn ha

/-! ## Tests -/

/-- A register that is tested against itself changes the flags only. -/
theorem exec_test {s : Machine} {r : Register} : s.exec σ (.binary .test (.reg r) (.reg r)) =
    some { s with flags := some (.ofLogic (s.view r.cls r.size)) } := by
  have hx : s.exec σ (.binary .test (.reg r) (.reg r)) =
      (s.read σ r.size (.reg r)).bind fun a => (s.read σ r.size (.reg r)).bind fun b =>
        some { s with flags := some (.ofLogic (a &&& b)) } := rfl
  rw [hx, read_reg, Option.bind_some, Option.bind_some, BitVec.and_self]

/-- The flag that a conditional jump looks at says whether the value is zero. -/
theorem testCode_spec {test : Ir.Expr} {code : Listing} {c : Condition} {s : Machine} {n : Nat}
    {v : BitVec test.width.bits} (ht : test.Consistent) (h : p.testCode test = .ok (code, c))
    (hd : 4 * test.depth ≤ n) (hn : n ≤ 2 ^ 32) (hv : test.eval (p.env σ s n) = some v) :
    ∃ s' f, s.run σ code = some s' ∧ s'.flags = some f ∧ (c.holds f = true ↔ v ≠ 0) ∧
      s.Keeps n s' := by
  -- the way without a comparison
  have hplain : ∀ {code c}, ((do
      let code ← p.valueCode test
      let ax ← RegisterClass.ax.view test.width
      return (code ++ [.inst (.binary .test (.reg ax) (.reg ax))], .ne)) :
        Except Fault (Listing × Condition)) = .ok (code, c) →
      ∃ s' f, s.run σ code = some s' ∧ s'.flags = some f ∧ (c.holds f = true ↔ v ≠ 0) ∧
        s.Keeps n s' := by
    intro code c h
    obtain ⟨first, hfirst, h⟩ := bind_eq_ok_iff.1 h
    obtain ⟨r, hr, h⟩ := bind_eq_ok_iff.1 h
    obtain ⟨hax, rfl⟩ := RegisterClass.view_eq_ok_iff.1 hr
    cases h
    obtain ⟨s₁, hs₁, hview, hk⟩ := (exprCode_spec ht).1 hd hn hv hfirst
    refine ⟨_, _, (run_append_of hs₁).trans (run_cons_of (exec_test (r := ⟨.ax, _, hax⟩))), rfl, ?_,
      hk.trans .setFlags⟩
    rw [hview]
    simp [Condition.holds, Flags.ofLogic]
  unfold testCode at h
  split at h
  · rename_i w op l r
    split at h
    · rename_i c' hc
      obtain ⟨cmp, hcmp, h⟩ := bind_eq_ok_iff.1 h
      cases h
      have hop : op.isCompare = true := by rw [← Ir.Op.isSome_condition?, hc]; rfl
      obtain ⟨hl, hr, hlr⟩ : l.Consistent ∧ r.Consistent ∧ l.width = r.width := by
        cases ht with
        | compare _ _ hl hr h => exact ⟨hl, hr, h⟩
        | arithmetic _ hop' => rw [hop'] at hop; cases hop
      obtain ⟨x, hx, hv⟩ := Option.bind_eq_some_iff.1 hv
      obtain ⟨y, hy, hv⟩ := Option.bind_eq_some_iff.1 hv
      rw [Ir.Op.binary?, if_pos hop, Condition.holds_ofSub hc] at hv
      cases hv
      obtain ⟨s₁, hs₁, hflags, hk⟩ :=
        compareCode_spec (exprCode_spec hl).1 (exprCode_spec hr).1 hcmp (.of_eq hlr.symm)
          (Ir.Expr.exact_of_le (by rw [hlr])) hd hn hx hy
      refine ⟨s₁, _, hs₁, hflags, ?_, hk⟩
      exact Ir.Op.word_ne_zero.symm
    · exact hplain h
  · exact hplain h

end Placement

/-! ## Arguments -/

/-- The arguments of a call, one word each, the first at the lowest address. Only as many bits of a
word as its argument has are determined. -/
def ArgumentsAt (m : Memory) : Address → List Ir.Value → Prop
  | _, [] => True
  | a, v :: vs => (m.load a 4).setWidth v.1.bits = v.2 ∧ ArgumentsAt m (a + 4) vs

/-- Arguments are where they were if no byte of theirs has changed. -/
theorem ArgumentsAt.congr {m m' : Memory} {a : Address} {vs : List Ir.Value}
    (h : ArgumentsAt m a vs)
    (hm : ∀ i < 4 * vs.length, m' (a + BitVec.ofNat 32 i) = m (a + BitVec.ofNat 32 i)) :
    ArgumentsAt m' a vs := by
  induction vs generalizing a with
  | nil => trivial
  | cons v vs ih =>
    rw [List.length_cons] at hm
    refine ⟨?_, ih h.2 fun i hi => ?_⟩
    · rw [← h.1, Memory.load_congr fun i hi => hm i (by omega)]
    · have hshift : a + 4 + BitVec.ofNat 32 i = a + BitVec.ofNat 32 (4 + i) := by
        rw [BitVec.ofNat_add, ← BitVec.add_assoc]
        rfl
      rw [hshift]
      exact hm (4 + i) (by omega)

/-- Arguments on top of the stack stay where they are when more code runs and a word is pushed. -/
theorem ArgumentsAt.push {s s' : Machine} {n : Nat} {v : Address} {vs : List Ir.Value}
    (h : ArgumentsAt s.memory (s.regs .sp) vs) (hk : s.Keeps n s')
    (hn : 4 * vs.length + n ≤ 2 ^ 32) (hn' : 4 ≤ n) :
    ArgumentsAt (s'.push v).memory (s.regs .sp) vs := by
  refine h.congr fun i hi => ?_
  refine (Memory.store_other ?_).trans (hk.memory (Below.not_above hn hi))
  rw [hk.sp]
  bv_omega

/-- `s'` is `s` with `k` bytes pushed, but for `eax`, `ecx`, `edx`, the flags and the `n` bytes
under the stack pointer. -/
structure Machine.Grows (s : Machine) (n k : Nat) (s' : Machine) : Prop where
  sp : s'.regs .sp = s.regs .sp - BitVec.ofNat 32 k
  regs : ∀ {c}, c ≠ .ax → c ≠ .cx → c ≠ .dx → c ≠ .sp → s'.regs c = s.regs c
  memory : ∀ {a}, ¬ Below (s.regs .sp) n a → s'.memory a = s.memory a

namespace Machine.Grows

variable {s s₁ s₂ : Machine} {n k : Nat}

theorem refl : s.Grows n 0 s :=
  ⟨(BitVec.sub_zero _).symm, fun _ _ _ _ => rfl, fun _ => rfl⟩

/-- Code that runs on the grown stack. -/
theorem trans_keeps (h : s.Grows (k + n) k s₁) (hn : k + n ≤ 2 ^ 32) (hk : s₁.Keeps n s₂) :
    s.Grows (k + n) k s₂ where
  sp := hk.sp.trans h.sp
  regs ha hc hd hs := (hk.regs ha hc hd).trans (h.regs ha hc hd hs)
  memory ha := by
    refine (hk.memory fun hb => ha ?_).trans (h.memory ha)
    rw [h.sp] at hb
    exact Below.of_sub hn hb

/-- One more word. -/
theorem push {v : Address} (h : s.Grows n k s₁) (hk : k + 4 ≤ n) :
    s.Grows n (k + 4) (s₁.push v) where
  sp := by
    have hpush : (s₁.push v).regs .sp = s₁.regs .sp - 4 := rfl
    rw [hpush, h.sp]
    bv_omega
  regs ha hc hd hs := (if_neg hs).trans (h.regs ha hc hd hs)
  memory {a} ha := by
    have hn := Below.le_of_not ha
    refine (Memory.store_other fun hlt => ha ?_).trans (h.memory ha)
    have hpushed : Below (s₁.regs .sp) (n - k) a := Below.of_pushed (k := 4) (by omega) hlt
    rw [h.sp] at hpushed
    have hbelow := Below.of_sub (by omega) hpushed
    rwa [Nat.add_sub_cancel' (by omega)] at hbelow

end Machine.Grows

namespace Placement

variable {p : Placement} {σ : Symbols}

theorem env_le_of_grows {s s' : Machine} {n k : Nat} (hn : k + n ≤ 2 ^ 32)
    (h : s.Grows (k + n) k s') : (p.env σ s (k + n)).Le (p.env σ s' n) :=
  env_mono (h.regs (by decide) (by decide) (by decide) (by decide)) fun a ha =>
    ⟨fun hb => ha (Below.of_sub hn (h.sp ▸ hb)), h.memory ha⟩

/-- The arguments of a call are on the stack, the first on top. -/
theorem argumentCode_spec {es : List Ir.Expr} {code : Listing} {s : Machine} {n : Nat}
    {vs : List Ir.Value} (hes : ∀ e ∈ es, e.Consistent) (h : p.argumentCode es = .ok code)
    (hd : 4 * Ir.Expr.argumentDepth es ≤ n) (hn : n ≤ 2 ^ 32)
    (hv : Ir.Expr.evalAll (p.env σ s n) es = some vs) :
    vs.length = es.length ∧ ∃ s', s.run σ code = some s' ∧ s.Grows n (4 * es.length) s' ∧
      ArgumentsAt s'.memory (s'.regs .sp) vs := by
  -- by induction on the arguments: the later ones are on the stack when the first one is computed
  induction es generalizing code vs with
  | nil =>
    cases h
    cases hv
    exact ⟨rfl, s, rfl, .refl, trivial⟩
  | cons e es ih =>
    obtain ⟨v, vs', he, hvs', rfl⟩ := Ir.Expr.evalAll_eq_some_cons hv
    obtain ⟨later, hlater, h⟩ := bind_eq_ok_iff.1 h
    obtain ⟨ce, hce, h⟩ := bind_eq_ok_iff.1 h
    cases h
    rw [Ir.Expr.argumentDepth] at hd
    obtain ⟨hlen, s₁, hs₁, hg₁, hargs⟩ :=
      ih (fun e he => hes e (List.mem_cons_of_mem _ he)) hlater (by omega) hvs'
    obtain ⟨n', rfl⟩ := Nat.exists_eq_add_of_le (show 4 * es.length ≤ n by omega)
    -- the first argument is still worth the same with the others pushed
    have he₁ := Ir.Expr.eval_mono (env_le_of_grows hn hg₁) e he
    obtain ⟨s₂, hs₂, hview, hk₂⟩ :=
      (exprCode_spec (hes e List.mem_cons_self)).1 (by omega) (by omega) he₁ hce
    refine ⟨congrArg (· + 1) hlen, s₂.push (s₂.regs .ax), ?_, ?_, ?_⟩
    · rw [List.append_assoc, run_append_of hs₁, run_append_of hs₂]
      exact run_cons_of exec_pushEax
    · exact (hg₁.trans_keeps hn hk₂).push (by omega)
    · have hsp : (s₂.push (s₂.regs .ax)).regs .sp = s₁.regs .sp - 4 := hk₂.sp ▸ rfl
      have htop : (s₂.push (s₂.regs .ax)).memory.load (s₁.regs .sp - 4) 4 = s₂.regs .ax :=
        hk₂.sp ▸ Memory.load_store_same (by decide)
      rw [hsp]
      refine ⟨by rw [htop]; exact hview, ?_⟩
      rw [BitVec.sub_add_cancel]
      exact hargs.push hk₂ (by omega) (by omega)

end Placement

end Backend386
