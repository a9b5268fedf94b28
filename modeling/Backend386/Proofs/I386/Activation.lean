import Backend386.Proofs.I386.Plain
import Backend386.Proofs.I386.StmtCode

/-!
# The activation of a function

While a function runs, its part of the stack holds the return address and the frame base of the
caller, its variables, and under these the words that its code puts aside. The program that is run
knows of the variables only: it neither reads nor writes the rest of the stack.

* `Activation`, `Activation.Hidden` — the part of the stack, and the bytes that are no variables;
* `Placement.world` — intermediate code that runs on flat memory, those bytes excepted;
* `Activation.Holds` — the state of the machine between two statements;
* `Cdecl` — what is expected of everything that is called;
* `steps_right` — the code for the right side of a statement, which may be a call.
-/

namespace Backend386

open Machine

/-- The part of the stack that belongs to one call of a function. -/
structure Activation where
  /-- the frame base -/
  base : Address
  /-- the bytes of the frame, which are under its base -/
  frame : Nat
  /-- the bytes under the frame that its code and what it calls may use -/
  scratch : Nat

namespace Activation

/-- Where the frame ends. -/
def bottom (k : Activation) : Address :=
  k.base - BitVec.ofNat 32 k.frame

/-- The saved frame base of the caller and the return address. -/
def Saved (k : Activation) (a : Address) : Prop :=
  (a - k.base).toNat < 8

/-- The bytes of the stack that are no variables. -/
def Hidden (k : Activation) (a : Address) : Prop :=
  Below k.bottom k.scratch a ∨ k.Saved a

instance (k : Activation) : DecidablePred k.Saved :=
  fun a => inferInstanceAs (Decidable ((a - k.base).toNat < 8))

instance (k : Activation) : DecidablePred k.Hidden :=
  fun a => inferInstanceAs (Decidable (Below k.bottom k.scratch a ∨ k.Saved a))

/-- The stack has room for all of it. -/
def Fits (k : Activation) : Prop :=
  8 + k.frame + k.scratch ≤ 2 ^ 32

/-- Scratch memory lies below what the caller saved. -/
theorem Fits.not_saved {k : Activation} (hk : k.Fits) {a : Address}
    (h : Below k.bottom k.scratch a) : ¬ k.Saved a := by
  unfold Fits at hk
  unfold Saved
  unfold Below bottom at h
  bv_omega

end Activation

/-! ## Intermediate code on flat memory -/

/-- What a function that is called does: given its address, its arguments and the memory, its value
and the memory that it leaves. -/
abbrev Calls := Address → List Ir.Value → Memory → Ir.Value → Memory → Prop

namespace Placement

/-- The address of the function that a callee stands for: a function that is named, or the one that
the value of the callee points to. -/
def calleeAddress? (p : Placement) (σ : Symbols) (m : Ir.Env) (callee : Ir.Expr) : Option Address :=
  match Ir.Expr.staticTarget? p.entities callee with
  | .ok (some f) => (p.entitySymbol f).toOption.map σ
  | .ok none => (callee.eval m).map (·.setWidth 32)
  | .error _ => none

/-- Flat memory. What is hidden can be neither read nor written. -/
def world (p : Placement) (σ : Symbols) (k : Activation) (calls : Calls) : Ir.World Memory where
  env m := p.seen σ k.base m k.Hidden
  assign m target v := do
    let a := (← target.eval (p.seen σ k.base m k.Hidden)).setWidth 32
    if ∀ i < v.1.bytes, ¬ k.Hidden (a + BitVec.ofNat 32 i) then
      some (m.store a v.1.bytes v.2)
    else none
  call m callee args v m' :=
    ∃ f vs, p.calleeAddress? σ (p.seen σ k.base m k.Hidden) callee = some f ∧
      Ir.Expr.evalAll (p.seen σ k.base m k.Hidden) args = some vs ∧ calls f vs m v m'

/-- A value is stored at the address of its target, unless it would overwrite what is hidden. -/
theorem assign_world_eq_some_iff {p : Placement} {σ : Symbols} {k : Activation} {calls : Calls}
    {target : Ir.Expr} {v : Ir.Value} {m m' : Memory} :
    (p.world σ k calls).assign m target v = some m' ↔
      ∃ a, target.eval (p.seen σ k.base m k.Hidden) = some a ∧
        (∀ i < v.1.bytes, ¬ k.Hidden (a.setWidth 32 + BitVec.ofNat 32 i)) ∧
        m.store (a.setWidth 32) v.1.bytes v.2 = m' :=
  Option.bind_eq_some_iff.trans (exists_congr fun _ => and_congr_right fun _ =>
    Option.ite_none_right_eq_some.trans (and_congr_right fun _ => Option.some_inj))

end Placement

namespace Ir

/-- The right side of a statement: an expression without calls, or one call of such expressions. -/
inductive Expr.Right : Expr → Prop where
  | value {e : Expr} (h : e.Consistent) : Right e
  | call {w : Width} {f : Expr} {args : List Expr} (hw : w ≠ .w64) (hf : f.Consistent)
    (hfw : f.width = .w32) (hargs : ∀ e ∈ args, e.Consistent) : Right (.call w f args)

/-- How many words the code for the right side of a statement has on the stack at once. -/
def Expr.rightDepth : Expr → Nat
  | call _ f args => max (argumentDepth args) (args.length + f.depth + 1)
  | e => e.depth

/-- A statement whose widths fit together. -/
def Action.Consistent : Action → Prop
  | eval e => e.Right
  | assign target e => target.Consistent ∧ target.width = .w32 ∧ e.Right
  | branch test _ _ => test.Consistent
  | ret (some e) => e.Consistent
  | _ => True

/-- How many words the code of a statement has on the stack at once. -/
def Action.depth : Action → Nat
  | eval e => e.rightDepth
  | assign target e => max e.rightDepth (1 + target.depth)
  | branch test _ _ => test.depth
  | ret (some e) => e.depth
  | _ => 0

end Ir

/-! ## Between two statements -/

namespace Activation

/-- The state between two statements: the memory is `m` but for the hidden bytes. `entry` is the
state in which the frame base of the caller was saved. -/
structure Holds (k : Activation) (entry : Machine) (m : Memory) (s : Machine) : Prop where
  sp : s.regs .sp = k.bottom
  bp : s.regs .bp = k.base
  regs : ∀ {c}, c ≠ .ax → c ≠ .cx → c ≠ .dx → c ≠ .sp → c ≠ .bp → s.regs c = entry.regs c
  memory : ∀ {a}, ¬ k.Hidden a → s.memory a = m a
  saved : ∀ {a}, k.Saved a → s.memory a = entry.memory a

namespace Holds

variable {k : Activation} {entry s s' : Machine} {m : Memory}

/-- What the program sees is what the code of an expression sees. -/
theorem env_le (h : k.Holds entry m s) {p : Placement} {σ : Symbols} :
    (p.seen σ k.base m k.Hidden).Le (p.env σ s k.scratch) := by
  unfold Placement.env
  rw [h.bp, h.sp]
  exact Placement.seen_mono fun a ha => ⟨fun hb => ha (.inl hb), h.memory ha⟩

/-- Code that keeps the frame and all memory above the scratch area keeps the activation. -/
theorem keeps (h : k.Holds entry m s) (hk : k.Fits) (hs : s.Keeps k.scratch s') :
    k.Holds entry m s' where
  sp := hs.sp.trans h.sp
  bp := hs.bp.trans h.bp
  regs ha hc hd hsp hbp := (hs.regs ha hc hd).trans (h.regs ha hc hd hsp hbp)
  memory ha := (hs.memory fun hb => ha (.inl (h.sp ▸ hb))).trans (h.memory ha)
  saved ha := (hs.memory fun hb => hk.not_saved (h.sp ▸ hb) ha).trans (h.saved ha)

/-- A store to bytes that are not hidden. -/
theorem store (h : k.Holds entry m s) {a : Address} {n : Nat} {v : BitVec (8 * n)}
    (hclear : ∀ i < n, ¬ k.Hidden (a + BitVec.ofNat 32 i)) :
    k.Holds entry (m.store a n v) { s with memory := s.memory.store a n v } where
  sp := h.sp
  bp := h.bp
  regs := h.regs
  memory {b} hb := by
    by_cases hlt : (b - a).toNat < n
    · simp only [Memory.store, if_pos hlt]
    · exact (Memory.store_other hlt).trans ((h.memory hb).trans (Memory.store_other hlt).symm)
  saved {b} hb := by
    refine (Memory.store_other fun hlt => ?_).trans (h.saved hb)
    have hbyte : a + BitVec.ofNat 32 (b - a).toNat = b := by
      rw [BitVec.ofNat_toNat, BitVec.setWidth_eq, BitVec.add_comm, BitVec.sub_add_cancel]
    exact hclear _ hlt (hbyte.symm ▸ .inr hb)

end Holds

end Activation

/-! ## Calls -/

/-- What is expected of everything that is called from `x`: it finds its arguments above the return
address, takes the return address off the stack, leaves its value in `eax`, restores all registers
but `eax`, `ecx` and `edx`, and does to memory what `calls` says. The stack is not its data: the
scratch bytes of the caller are free for use, and the saved ones are left alone. -/
def Cdecl (x : Program) (k : Activation) (calls : Calls) : Prop :=
  ∀ {f : Address} {vs : List Ir.Value} {m m' : Memory} {v : Ir.Value} {s : Machine} {n : Nat},
    calls f vs m v m' → n ≤ k.scratch → s.regs .sp = k.bottom - BitVec.ofNat 32 n →
    (∀ a, ¬ k.Hidden a → s.memory a = m a) → ArgumentsAt s.memory (s.regs .sp + 4) vs →
    ∃ s', x.callee f s s' ∧ s'.view .ax v.1 = v.2 ∧ s'.regs .sp = s.regs .sp + 4 ∧
      (∀ c, c ≠ .ax → c ≠ .cx → c ≠ .dx → c ≠ .sp → s'.regs c = s.regs c) ∧
      (∀ a, ¬ k.Hidden a → s'.memory a = m' a) ∧ ∀ a, k.Saved a → s'.memory a = s.memory a

theorem setWidth_ofNat32 (n : Nat) : (Int64.ofNat n).toBitVec.setWidth 32 = BitVec.ofNat 32 n := by
  refine BitVec.eq_of_toNat_eq ?_
  have hpow : (2 : Nat) ^ 32 ∣ 2 ^ 64 := by decide
  rw [BitVec.toNat_setWidth, Int64.toBitVec_ofNat', BitVec.toNat_ofNat, BitVec.toNat_ofNat,
    Nat.mod_mod_of_dvd _ hpow]

/-- A constant is added to the stack pointer or subtracted from it. -/
theorem exec_esp {σ : Symbols} {s : Machine} {op : BinaryInst} {n : Nat} {v : Address}
    {f : Option Flags} (h : op.result? (s.regs .sp) (BitVec.ofNat 32 n) = some (v, f)) :
    s.exec σ (.binary op (.int (Int64.ofNat n)) (.reg .esp)) =
      some ({ s with flags := f }.setView .sp .w32 v) := by
  have hread : s.read σ .w32 (.int (Int64.ofNat n)) = some (BitVec.ofNat 32 n) :=
    congrArg some (setWidth_ofNat32 n)
  refine exec_result (r := .esp) hread ?_ (fun h => nomatch h.2)
  exact (congrArg (op.result? · (BitVec.ofNat 32 n)) (view_w32 (s := s))).trans h

/-- The arguments are taken off the stack. -/
theorem cleanUp_spec (σ : Symbols) (s : Machine) (n : Nat) :
    ∃ s', s.run σ (cleanUp n) = some s' ∧ s'.regs .sp = s.regs .sp + BitVec.ofNat 32 (4 * n) ∧
      (∀ c ≠ .sp, s'.regs c = s.regs c) ∧ s'.memory = s.memory := by
  unfold cleanUp
  split
  · rename_i hn
    subst hn
    exact ⟨s, rfl, (BitVec.add_zero _).symm, fun _ _ => rfl, rfl⟩
  · refine ⟨_, run_cons_of (exec_esp rfl), ?_, fun c hc => regs_setView_ne hc, rfl⟩
    rw [regs_setView_w32, Nat.mul_comm]

namespace Placement

variable {p : Placement} {x : Program} {k : Activation} {calls : Calls} {entry s : Machine}

/-- More memory can be read, and the callee stays where it is. -/
theorem calleeAddress?_mono {σ : Symbols} {m m' : Ir.Env} (h : m.Le m') {callee : Ir.Expr}
    {f : Address} (hf : p.calleeAddress? σ m callee = some f) :
    p.calleeAddress? σ m' callee = some f := by
  unfold calleeAddress? at hf ⊢
  split
  · rename_i g hg
    rwa [hg] at hf
  · rename_i hg
    rw [hg] at hf
    obtain ⟨v, hv, rfl⟩ := Option.map_eq_some_iff.1 hf
    exact Option.map_eq_some_iff.2 ⟨v, Ir.Expr.eval_mono h callee hv, rfl⟩
  · rename_i hg
    rw [hg] at hf
    cases hf

/-- The code up to a call, and where the call goes to. -/
theorem transferCode_spec {callee : Ir.Expr} {code : Listing} (hc : callee.Consistent)
    (hcw : callee.width = .w32) (h : p.transferCode callee (p.valueCode callee) = .ok code) :
    ∃ first o, code = first ++ [.inst (.call o)] ∧
      ∀ {s : Machine} {n : Nat} {f : Address}, 4 * callee.depth ≤ n → n ≤ 2 ^ 32 →
        p.calleeAddress? x.symbols (p.env x.symbols s n) callee = some f →
        ∃ s', s.run x.symbols first = some s' ∧ x.target? s' o = some f ∧ s.Keeps n s' := by
  obtain ⟨g?, hg, h⟩ := bind_eq_ok_iff.1 h
  cases g? with
  -- a function that is called by name is not computed
  | some g =>
    obtain ⟨l, hl, h⟩ := bind_eq_ok_iff.1 h
    cases h
    refine ⟨[], .target l, rfl, fun {s n f} _ _ hf => ⟨s, rfl, ?_, .refl⟩⟩
    rw [calleeAddress?, hg] at hf
    simpa [hl, Except.toOption, Program.target?] using hf
  -- any other callee is computed as a pointer in the accumulator
  | none =>
    obtain ⟨first, hfirst, h⟩ := bind_eq_ok_iff.1 h
    cases h
    refine ⟨first, .reg .eax, rfl, fun {s n f} hd hn hf => ?_⟩
    rw [calleeAddress?, hg] at hf
    obtain ⟨v, hv, rfl⟩ := Option.map_eq_some_iff.1 hf
    obtain ⟨s', hs', hview, hk⟩ := (exprCode_spec hc).1 hd hn hv hfirst
    refine ⟨s', hs', ?_, hk⟩
    have hregs : s'.regs .ax = v.setWidth 32 := by
      rw [← hview, view, hcw]
      simp [Width.bits, Width.bytes]
    exact congrArg some hregs

/-- A call does what its callee does. -/
theorem steps_call {w : Width} {f : Ir.Expr} {args : List Ir.Expr} {code rest : Listing}
    {v : Ir.Value} {m m' : Memory} (hx : Cdecl x k calls) (hk : k.Fits) (hf : f.Consistent)
    (hfw : f.width = .w32) (hargs : ∀ e ∈ args, e.Consistent)
    (hcode : p.valueCode (.call w f args) = .ok code)
    (hd : 4 * (Ir.Expr.call w f args).rightDepth ≤ k.scratch)
    (hcall : (p.world x.symbols k calls).call m f args v m') (hs : k.Holds entry m s) :
    ∃ s', x.Steps (code ++ rest, s) (rest, s') ∧ k.Holds entry m' s' ∧ s'.view .ax v.1 = v.2 := by
  obtain ⟨g, vs, hg, hvs, hcalls⟩ := hcall
  obtain ⟨_, -, hcode⟩ := bind_eq_ok_iff.1 hcode
  obtain ⟨arguments, harguments, hcode⟩ := bind_eq_ok_iff.1 hcode
  obtain ⟨transfer, htransfer, hcode⟩ := bind_eq_ok_iff.1 hcode
  cases hcode
  have hdepth : 4 * Ir.Expr.argumentDepth args ≤ k.scratch ∧
      4 * args.length + (4 * f.depth + 4) ≤ k.scratch := by
    simp only [Ir.Expr.rightDepth] at hd
    omega
  obtain ⟨n, hn⟩ := Nat.exists_eq_add_of_le (show 4 * args.length ≤ k.scratch by omega)
  have hroom : k.scratch ≤ 2 ^ 32 := by
    unfold Activation.Fits at hk
    omega
  -- the arguments
  obtain ⟨hlen, s₁, hs₁, hg₁, hat₁⟩ :=
    argumentCode_spec hargs harguments hdepth.1 hroom (Ir.Expr.evalAll_mono hs.env_le hvs)
  rw [hn] at hg₁
  -- the callee
  obtain ⟨first, o, rfl, hgoes⟩ := transferCode_spec (x := x) hf hfw htransfer
  have hle : (p.seen x.symbols k.base m k.Hidden).Le (p.env x.symbols s k.scratch) := hs.env_le
  rw [hn] at hle
  obtain ⟨s₂, hs₂, htarget, hk₂⟩ := hgoes (by omega) (by omega)
    (calleeAddress?_mono (env_le_of_grows (by omega) hg₁) (calleeAddress?_mono hle hg))
  have hg₂ := hg₁.trans_keeps (by omega) hk₂
  -- the call
  set return' := x.here (cleanUp args.length ++ rest)
  have hg₃ := hg₂.push (v := return') (by omega)
  rw [← hn] at hg₃
  have hat₃ : ArgumentsAt (s₂.push return').memory ((s₂.push return').regs .sp + 4) vs := by
    have hsp : (s₂.push return').regs .sp + 4 = s₁.regs .sp := by
      have hpush : (s₂.push return').regs .sp = s₂.regs .sp - 4 := rfl
      rw [hpush, BitVec.sub_add_cancel, hk₂.sp]
    rw [hsp]
    exact hat₁.push hk₂ (by omega) (by omega)
  have hmem : ∀ {a}, ¬ Below k.bottom k.scratch a → (s₂.push return').memory a = s.memory a :=
    fun ha => hg₃.memory (by rwa [hs.sp])
  have hsp₃ := hg₃.sp
  rw [hs.sp] at hsp₃
  obtain ⟨s₄, hcallee, hview, hsp₄, hregs₄, hmem₄, hsaved₄⟩ := hx hcalls (by omega) hsp₃
    (fun a ha => (hmem fun hb => ha (.inl hb)).trans (hs.memory ha)) hat₃
  -- the stack pointer goes back up
  obtain ⟨s₅, hs₅, hsp₅, hregs₅, hmem₅⟩ := cleanUp_spec x.symbols s₄ args.length
  refine ⟨s₅, ?_, ?_, ?_⟩
  · have hcode : arguments ++ (first ++ [.inst (.call o)]) ++ cleanUp args.length ++ rest =
        arguments ++ (first ++ (.inst (.call o) :: (cleanUp args.length ++ rest))) := by simp
    rw [hcode]
    refine (Program.steps_of_run hs₁).trans ((Program.steps_of_run hs₂).trans ?_)
    exact .head (.call htarget hcallee) (Program.steps_of_run hs₅)
  · refine ⟨?_, ?_, ?_, ?_, ?_⟩
    · rw [hsp₅, hsp₄, hsp₃]
      bv_omega
    · rw [hregs₅ .bp (by decide), hregs₄ .bp (by decide) (by decide) (by decide) (by decide),
        hg₃.regs (by decide) (by decide) (by decide) (by decide), hs.bp]
    · intro c ha hc hd hsp hbp
      rw [hregs₅ c hsp, hregs₄ c ha hc hd hsp, hg₃.regs ha hc hd hsp, hs.regs ha hc hd hsp hbp]
    · intro a ha
      rw [hmem₅, hmem₄ a ha]
    · intro a ha
      rw [hmem₅, hsaved₄ a ha, hmem fun hb => hk.not_saved hb ha, hs.saved ha]
  · rw [view, hregs₅ .ax (by decide)]
    exact hview

/-- The code for the right side of a statement leaves its value in `eax`. -/
theorem steps_right {e : Ir.Expr} {code : Listing} (rest : Listing) {v : Ir.Value} {m m' : Memory}
    (hx : Cdecl x k calls) (hk : k.Fits) (he : e.Right) (hcode : p.valueCode e = .ok code)
    (hd : 4 * e.rightDepth ≤ k.scratch)
    (hv : (p.world x.symbols k calls).Yields m e v m') (hs : k.Holds entry m s) :
    ∃ s', x.Steps (code ++ rest, s) (rest, s') ∧ k.Holds entry m' s' ∧ s'.view .ax v.1 = v.2 := by
  cases hv with
  | value hv =>
    have hroom : k.scratch ≤ 2 ^ 32 := by
      unfold Activation.Fits at hk
      omega
    cases he with
    | value he =>
      have hd' : 4 * e.depth ≤ k.scratch := by cases he <;> exact hd
      obtain ⟨s', hs', hview, hkeeps⟩ :=
        (exprCode_spec he).1 hd' hroom (Ir.Expr.eval_mono hs.env_le e hv) hcode
      exact ⟨s', Program.steps_of_run hs', hs.keeps hk hkeeps, hview⟩
    | call => cases hv
  | call hcall =>
    cases he with
    | value he => cases he
    | call hw hf hfw hargs => exact steps_call hx hk hf hfw hargs hcode hd hcall hs

end Placement

end Backend386
