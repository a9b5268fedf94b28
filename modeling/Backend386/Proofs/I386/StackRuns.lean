import Backend386.Proofs.I386.StackDepth

/-!
# What code that uses the stack in brackets changes

The shape of the code of an expression alone bounds what a run of it can change, whatever the
expression computes and wherever its variables live: code that only computes changes `eax`, `ecx`,
`edx` and the flags, and code that puts words aside changes the words under the stack pointer too.

* `Machine.exec_cases`, `Machine.exec_regs` — what an instruction does, and which registers it
  changes;
* `Machine.run_quiet` — code that only computes;
* `Listing.Stacked.grows` — a run of code of the shape of expressions;
* `Placement.exprCode_keeps` — and so the code of every expression.
-/

namespace Backend386

open Machine Listing

/-! ## What instructions change -/

/-- The operand that an instruction writes to. Divisions have none: they leave their results in
`eax` and `edx`. -/
def Instruction.destination? : Instruction → Option Operand
  | .lea _ dst | .extend _ _ _ dst | .unary .neg dst | .unary .not dst | .binary _ _ dst
  | .set _ dst => some dst
  | _ => none

theorem Instruction.sets_of_destination {i : Instruction} {dst : Operand} {c : RegisterClass}
    (h : i.destination? = some dst) : i.sets c = dst.isView c := by
  unfold destination? at h
  split at h <;> cases h <;> rfl

theorem Instruction.scratch_of_destination {i : Instruction} {dst : Operand}
    (h : i.destination? = some dst) (hi : i.isQuiet = true) : dst.isScratch = true := by
  unfold destination? at h
  split at h <;> cases h <;> exact hi

namespace Machine

variable {σ : Symbols} {s s' : Machine} {c : RegisterClass} {n : Nat}

/-- A register is not written through another operand. -/
theorem write_regs {w : Width} {v : BitVec w.bits} {o : Operand} (h : s.write σ w v o = some s')
    (ho : o.isView c = false) : s'.regs c = s.regs c := by
  cases o with
  | reg r =>
    obtain ⟨-, hs⟩ := Option.ite_none_right_eq_some.1 h
    cases hs
    exact regs_setView_ne fun hc => absurd ho (by simp [Operand.isView, hc])
  | mem m =>
    cases h
    rfl
  | imm | target => cases h

/-- A write to a register that code may use leaves memory as it is. -/
theorem write_memory {w : Width} {v : BitVec w.bits} {o : Operand} (h : s.write σ w v o = some s')
    (ho : o.isScratch = true) : s'.memory = s.memory := by
  cases o with
  | reg r =>
    obtain ⟨-, hs⟩ := Option.ite_none_right_eq_some.1 h
    cases hs
    rfl
  | _ => cases ho

/-- A division changes nothing but the two registers of its results. -/
theorem divide_eq_some {signed : Bool} {d : Address} (h : s.divide signed d = some s') :
    ∃ q r, s' = s.setQuotient q r := by
  cases signed with
  | true =>
    obtain ⟨-, hs⟩ := Option.ite_none_right_eq_some.1 h
    exact ⟨_, _, (Option.some.inj hs).symm⟩
  | false =>
    obtain ⟨-, hs⟩ := Option.ite_none_right_eq_some.1 h
    exact ⟨_, _, (Option.some.inj hs).symm⟩

/-- What an operation on two operands does: it writes to its destination, or changes the flags
only. -/
theorem execBinary_eq_some {w : Width} {op : BinaryInst} {src dst : Operand}
    (h : s.execBinary σ w op src dst = some s') :
    ∃ f, s' = { s with flags := f } ∨ ∃ v, { s with flags := f }.write σ w v dst = some s' := by
  unfold execBinary at h
  -- moves write, comparisons set flags, all others do both
  cases op
  case mov =>
    dsimp only at h
    split at h
    · cases h
    · obtain ⟨v, -, h⟩ := Option.bind_eq_some_iff.1 h
      exact ⟨s.flags, .inr ⟨v, h⟩⟩
  case cmp | test =>
    dsimp only at h
    split at h
    · cases h
    · obtain ⟨a, -, h⟩ := Option.bind_eq_some_iff.1 h
      obtain ⟨b, -, h⟩ := Option.bind_eq_some_iff.1 h
      exact ⟨_, .inl (Option.some.inj h).symm⟩
  case sal | sar | shr =>
    dsimp only at h
    split at h
    · cases h
    · obtain ⟨a, -, h⟩ := Option.bind_eq_some_iff.1 h
      obtain ⟨b, -, h⟩ := Option.bind_eq_some_iff.1 h
      obtain ⟨v, -, h⟩ := Option.bind_eq_some_iff.1 h
      exact ⟨none, .inr ⟨v, h⟩⟩
  all_goals
    dsimp only at h
    split at h
    · cases h
    split at h
    · cases h
    obtain ⟨a, -, h⟩ := Option.bind_eq_some_iff.1 h
    obtain ⟨b, -, h⟩ := Option.bind_eq_some_iff.1 h
    obtain ⟨⟨v, f⟩, -, h⟩ := Option.bind_eq_some_iff.1 h
    exact ⟨f, .inr ⟨v, h⟩⟩

/-- Everything that an instruction can do that goes on with the next one. -/
theorem exec_cases {i : Instruction} (h : s.exec σ i = some s') :
    (∃ a v, i = .push a ∧ s' = s.push v) ∨
    (∃ a, i = .pop a ∧ s.drop.write σ .w32 s.top a = some s') ∨
    (i = .cltd ∧ ∃ v, s' = s.setView .dx .w32 v) ∨
    (∃ op a q r, i = .unary op a ∧ (op = .idiv ∨ op = .div) ∧ s' = s.setQuotient q r) ∨
    ∃ dst f, i.destination? = some dst ∧
      (s' = { s with flags := f } ∨ ∃ w v, { s with flags := f }.write σ w v dst = some s') := by
  -- what is left of an instruction: a push, a pop, a division, or a write to its destination
  cases i with
  | jmp | jcc | call | ret => cases h
  | cltd => exact .inr (.inr (.inl ⟨rfl, _, (Option.some.inj h).symm⟩))
  | push a =>
    obtain ⟨v, -, h⟩ := Option.bind_eq_some_iff.1 h
    exact .inl ⟨a, v, rfl, (Option.some.inj h).symm⟩
  | pop a => exact .inr (.inl ⟨a, rfl, h⟩)
  | lea src dst =>
    cases src with
    | mem m => exact .inr (.inr (.inr (.inr ⟨dst, s.flags, rfl, .inr ⟨.w32, _, h⟩⟩)))
    | _ => cases h
  | extend signed narrow src dst =>
    obtain ⟨v, -, h⟩ := Option.bind_eq_some_iff.1 h
    exact .inr (.inr (.inr (.inr ⟨dst, s.flags, rfl, .inr ⟨_, _, h⟩⟩)))
  | unary op a =>
    cases op with
    | idiv | div =>
      obtain ⟨v, -, h⟩ := Option.bind_eq_some_iff.1 h
      obtain ⟨q, r, rfl⟩ := divide_eq_some h
      exact .inr (.inr (.inr (.inl ⟨_, a, q, r, rfl, by simp, rfl⟩)))
    | neg =>
      obtain ⟨v, -, h⟩ := Option.bind_eq_some_iff.1 h
      exact .inr (.inr (.inr (.inr ⟨a, _, rfl, .inr ⟨_, _, h⟩⟩)))
    | not =>
      obtain ⟨v, -, h⟩ := Option.bind_eq_some_iff.1 h
      exact .inr (.inr (.inr (.inr ⟨a, s.flags, rfl, .inr ⟨_, _, h⟩⟩)))
  | binary op src dst =>
    obtain ⟨f, hs⟩ := execBinary_eq_some h
    exact .inr (.inr (.inr (.inr ⟨dst, f, rfl, hs.imp_right fun ⟨v, hv⟩ => ⟨_, v, hv⟩⟩)))
  | set c dst =>
    obtain ⟨f, -, h⟩ := Option.bind_eq_some_iff.1 h
    exact .inr (.inr (.inr (.inr ⟨dst, s.flags, rfl, .inr ⟨_, _, h⟩⟩)))

/-- An instruction changes only the registers that it sets. -/
theorem exec_regs {i : Instruction} (h : s.exec σ i = some s') (hi : i.sets c = false) :
    s'.regs c = s.regs c := by
  rcases exec_cases h with ⟨a, v, rfl, rfl⟩ | ⟨a, rfl, h⟩ | ⟨rfl, v, rfl⟩ |
    ⟨op, a, q, r, rfl, hop, rfl⟩ | ⟨dst, f, hdst, h⟩
  · exact if_neg (of_decide_eq_false hi)
  · obtain ⟨hsp, ha⟩ := Bool.or_eq_false_iff.1 hi
    exact (write_regs h ha).trans (if_neg (of_decide_eq_false hsp))
  · exact regs_setView_ne (of_decide_eq_false hi)
  · obtain ⟨hax, hdx⟩ : c ≠ .ax ∧ c ≠ .dx := by
      rcases hop with rfl | rfl <;> simpa [Instruction.sets] using hi
    exact (if_neg hax).trans (if_neg hdx)
  · rw [Instruction.sets_of_destination hdst] at hi
    rcases h with rfl | ⟨w, v, h⟩
    · rfl
    · exact (write_regs h hi).trans rfl

/-- Code that only computes keeps everything but the scratch registers. -/
theorem exec_quiet {i : Instruction} (h : s.exec σ i = some s') (hi : i.isQuiet = true) :
    s.Keeps n s' where
  regs {c} ha hc hd := by
    refine exec_regs h (Instruction.sets_of_quiet hi ?_)
    cases c <;> first | rfl | contradiction
  memory _ := by
    rcases exec_cases h with ⟨a, v, rfl, rfl⟩ | ⟨a, rfl, h⟩ | ⟨rfl, v, rfl⟩ |
      ⟨op, a, q, r, rfl, hop, rfl⟩ | ⟨dst, f, hdst, h⟩
    · cases hi
    · cases hi
    · rfl
    · rfl
    · rcases h with rfl | ⟨w, v, h⟩
      · rfl
      · rw [write_memory h (Instruction.scratch_of_destination hdst hi)]

/-- Code that only computes keeps the frame and all memory above its scratch area. -/
theorem run_quiet {code : Listing} (hcode : code.Quiet) (h : s.run σ code = some s') :
    s.Keeps n s' := by
  induction code generalizing s with
  | nil =>
    cases h
    exact .refl
  | cons i code ih =>
    obtain ⟨hi, hrest⟩ := Quiet.cons_iff.1 hcode
    cases i with
    | inst i =>
      obtain ⟨s₁, hs₁, h⟩ := Option.bind_eq_some_iff.1 h
      exact (exec_quiet hs₁ hi).trans (ih hrest h)
    | comment => exact ih hrest h
    | label | directive => cases hi

theorem run_append_eq_some {a b : Listing} (h : s.run σ (a ++ b) = some s') :
    ∃ s₁, s.run σ a = some s₁ ∧ s₁.run σ b = some s' := by
  rw [run_append] at h
  exact Option.bind_eq_some_iff.1 h

namespace Grows

variable {s₁ s₂ : Machine} {n' k l : Nat}

theorem of_keeps (h : s.Keeps n s₁) : s.Grows n 0 s₁ where
  sp := h.sp.trans (BitVec.sub_zero _).symm
  regs ha hc hd _ := h.regs ha hc hd
  memory := h.memory

/-- A stack that has grown by nothing is as it was. -/
theorem keeps (h : s.Grows n 0 s₁) : s.Keeps n s₁ where
  regs {c} ha hc hd := by
    by_cases hsp : c = .sp
    · subst hsp
      exact h.sp.trans (BitVec.sub_zero _)
    · exact h.regs ha hc hd hsp
  memory := h.memory

/-- More words on top of those that are left. -/
theorem trans (h : s.Grows n k s₁) (h' : s₁.Grows n' l s₂) (hk : k + n' ≤ n) :
    s.Grows n (k + l) s₂ where
  sp := by
    rw [h'.sp, h.sp]
    bv_omega
  regs ha hc hd hs := (h'.regs ha hc hd hs).trans (h.regs ha hc hd hs)
  memory ha := by
    have hn := Below.le_of_not ha
    refine (h'.memory fun hb => ha ?_).trans (h.memory ha)
    rw [h.sp] at hb
    exact (Below.of_sub (by omega) hb).mono hk

/-- A word is taken back into `ecx`. -/
theorem pop (h : s.Grows n (k + 4) s₁) :
    s.Grows n k (s₁.drop.setView .cx .w32 s₁.top) where
  sp := by
    have hdrop : (s₁.drop.setView .cx .w32 s₁.top).regs .sp = s₁.regs .sp + 4 :=
      regs_setView_ne (by decide)
    rw [hdrop, h.sp]
    bv_omega
  regs ha hc hd hs := (regs_setView_ne hc).trans ((if_neg hs).trans (h.regs ha hc hd hs))
  memory ha := h.memory ha

end Grows

end Machine

/-- Code for expressions, when it runs: the words that it leaves are under the old stack pointer,
and what is above is as it was. Code with calls in it is not run here. -/
theorem Listing.Stacked.grows {σ : Symbols} {m k n : Nat} {code : Listing} {s s' : Machine}
    (h : Stacked m k code) (hrun : s.run σ code = some s') (hm : 4 * m ≤ n) :
    s.Grows n (4 * k) s' := by
  -- induction on how the code is put together, with the room that each part needs
  induction h generalizing n s s' with
  | quiet h => exact .of_keeps (run_quiet h hrun)
  | @append m m' k l _ _ _ _ hle iha ihb =>
    obtain ⟨s₁, hs₁, hs'⟩ := run_append_eq_some hrun
    have h := (iha hs₁ hm).trans (ihb hs' (Nat.le_refl _)) (by omega)
    rwa [← Nat.mul_add] at h
  | push hle =>
    obtain rfl := Option.some.inj ((run_cons_of exec_pushEax).symm.trans hrun)
    exact Grows.refl.push (by omega)
  | pop _ ih =>
    obtain ⟨s₁, hs₁, hs'⟩ := run_append_eq_some hrun
    obtain rfl := Option.some.inj hs'
    exact .pop (ih hs₁ hm)
  | call =>
    obtain ⟨s₁, hs₁, -⟩ := run_append_eq_some hrun
    obtain ⟨s₂, -, hs₂⟩ := run_append_eq_some hs₁
    cases hs₂

namespace Placement

variable {p : Placement} {σ : Symbols} {s s' : Machine} {e : Ir.Expr} {code : Listing}

/-- A run of the code of an expression, in either of its uses, ends with the stack pointer where it
was and changes no memory but the words under it. -/
theorem exprCode_keeps (he : e.Consistent)
    (hc : p.valueCode e = .ok code ∨ ∃ m, p.addressCode e = .ok (code, m))
    (h : s.run σ code = some s') : s.Keeps (4 * e.depth) s' := by
  have hstacked : Stacked e.words 0 code := by
    rcases hc with hc | ⟨m, hc⟩
    · exact (exprCode_stacked e).1 code hc
    · exact (exprCode_stacked e).2 code m hc
  rw [← he.words_eq]
  exact (hstacked.grows h (Nat.le_refl _)).keeps

end Placement

end Backend386
