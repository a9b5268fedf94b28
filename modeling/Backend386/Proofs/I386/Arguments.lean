import Mathlib.Algebra.Order.BigOperators.Group.List
import Mathlib.Algebra.Order.Group.Nat
import Backend386.Proofs.I386.Frame
import Backend386.Proofs.I386.StackRuns

/-!
# Caller and callee agree on the arguments

A caller pushes its arguments last to first and removes them after the call; a callee looks for its
parameters at fixed distances above its frame base. Both use the same words, whatever the arguments
compute, and the stack pointer is handed back.

* `Placement.Leaves` — what the code of an argument leaves in `eax`;
* `Program.Returns`, `Program.sp_of_returns` — a function returns with the stack pointer it was
  entered with;
* `Placement.arguments_positions` — the parameters of a callee are the arguments of its caller.
-/

namespace Backend386

open Machine Listing

/-! ## Arguments -/

namespace Placement

variable {p : Placement} {σ : Symbols} {s s' : Machine} {n k : Nat} {e : Ir.Expr}

/-- The code of `e` leaves the word `a` in `eax` when it is run with `k` bytes more on the stack
than in the state `s`. The `n` bytes under the stack pointer of `s` are free for use. -/
def Leaves (p : Placement) (σ : Symbols) (s : Machine) (n k : Nat) (e : Ir.Expr) (a : Address) :
    Prop :=
  ∃ code s₀ s₁, p.valueCode e = .ok code ∧ s.Grows n k s₀ ∧ s₀.run σ code = some s₁ ∧
    s₁.regs .ax = a

/-- Where the expression has a value, this is the value. -/
theorem Leaves.eval {a : Address} {v : BitVec e.width.bits} (h : p.Leaves σ s n k e a)
    (he : e.Consistent) (hk : k + 4 * e.words ≤ n) (hn : n ≤ 2 ^ 32)
    (hv : e.eval (p.env σ s n) = some v) : a.setWidth e.width.bits = v := by
  obtain ⟨code, s₀, s₁, hcode, hgrows, hrun, rfl⟩ := h
  obtain ⟨n, rfl⟩ := Nat.exists_eq_add_of_le (show k ≤ n by omega)
  rw [he.words_eq] at hk
  have hv₀ := Ir.Expr.eval_mono (env_le_of_grows hn hgrows) e hv
  obtain ⟨s₂, hs₂, hview, -⟩ := (exprCode_spec he).1 (by omega) (by omega) hv₀ hcode
  obtain rfl := Option.some.inj (hrun.symm.trans hs₂)
  exact hview

/-- The words that the code of the arguments leaves on the stack, the first argument on top. -/
theorem argumentCode_leaves {es : List Ir.Expr} {code : Listing}
    (h : p.argumentCode es = .ok code) (hm : 4 * Ir.Expr.argumentWords es ≤ n) (hn : n ≤ 2 ^ 32)
    (hrun : s.run σ code = some s') {i : Nat} (hi : es[i]? = some e) :
    p.Leaves σ s n (4 * (es.length - (i + 1))) e
      (s'.memory.load (s'.regs .sp + BitVec.ofNat 32 (4 * i)) 4) := by
  -- by induction on the arguments: the later ones are pushed before the first one
  induction es generalizing code s' i with
  | nil => cases hi
  | cons e' es ih =>
    obtain ⟨later, hlater, h⟩ := bind_eq_ok_iff.1 h
    obtain ⟨ce, hce, h⟩ := bind_eq_ok_iff.1 h
    cases h
    rw [Ir.Expr.argumentWords] at hm
    obtain ⟨s₂, hs₂, hpush⟩ := run_append_eq_some hrun
    obtain ⟨s₁, hs₁, hs₂⟩ := run_append_eq_some hs₂
    obtain rfl := Option.some.inj ((run_cons_of exec_pushEax).symm.trans hpush)
    -- the later arguments are on the stack, and the first one is computed above them
    have hg₁ : s.Grows n (4 * es.length) s₁ :=
      (argumentCode_stacked es later hlater).grows hs₁ (by omega)
    have hk₂ : s₁.Keeps (4 * e'.words) s₂ :=
      (((exprCode_stacked e').1 ce hce).grows hs₂ (Nat.le_refl _)).keeps
    have hsp : (s₂.push (s₂.regs .ax)).regs .sp = s₁.regs .sp - 4 := hk₂.sp ▸ rfl
    rw [hsp]
    cases i with
    -- the first argument is the top of the stack
    | zero =>
      obtain rfl := Option.some.inj hi
      refine ⟨ce, s₁, s₂, hce, by simpa using hg₁, hs₂, ?_⟩
      have htop : (s₂.push (s₂.regs .ax)).memory.load (s₁.regs .sp - 4) 4 = s₂.regs .ax :=
        hk₂.sp ▸ Memory.load_store_same (by decide)
      simpa using htop.symm
    | succ i =>
      -- the others are one word further away, and what was pushed above leaves them alone
      have hlt : i < es.length := by
        rw [List.getElem?_cons_succ] at hi
        exact (List.getElem?_eq_some_iff.1 hi).1
      have hword : (s₂.push (s₂.regs .ax)).memory.load
          (s₁.regs .sp - 4 + BitVec.ofNat 32 (4 * (i + 1))) 4 =
            s₁.memory.load (s₁.regs .sp + BitVec.ofNat 32 (4 * i)) 4 := by
        have haddr : s₁.regs .sp - 4 + BitVec.ofNat 32 (4 * (i + 1)) =
            s₁.regs .sp + BitVec.ofNat 32 (4 * i) := by bv_omega
        rw [haddr]
        refine Memory.load_congr fun j hj => ?_
        rw [BitVec.add_assoc, ← BitVec.ofNat_add]
        refine (Memory.store_other ?_).trans
          (hk₂.memory (Below.not_above (k := 4 * es.length) (by omega) (by omega)))
        rw [hk₂.sp]
        bv_omega
      rw [hword, List.length_cons, Nat.add_sub_add_right]
      exact ih hlater (by omega) hs₁ hi

end Placement

/-! ## Returning -/

/-- An item that neither returns nor changes the frame base. -/
def Item.sparesBase : Item → Bool
  | inst .ret => false
  | inst i => !i.sets .bp
  | _ => true

/-- An instruction that keeps the stack steady does not write the base pointer. -/
theorem Item.spares_of_steady {i : Item} (h : i.isSteady = true) : i.sparesBase = true := by
  cases i with
  | inst i =>
    obtain ⟨hsp, hbp⟩ := Bool.and_eq_true_iff.1 h
    cases i with
    | ret => cases hsp
    | _ => exact hbp
  | _ => rfl

theorem Item.spares_inst {i : Instruction} (h : (Item.inst i).sparesBase = true) :
    i ≠ .ret ∧ i.sets .bp = false := by
  cases i with
  | ret => cases h
  | _ => exact ⟨nofun, Bool.not_eq_true' _ ▸ h⟩

/-- The code of an expression does not write the base pointer. -/
theorem Listing.Stacked.spares {m k : Nat} {code : Listing} (h : Stacked m k code) :
    ∀ i ∈ code, i.sparesBase = true := by
  induction h with
  | quiet h => exact fun i hi => Item.spares_of_steady (Item.steady_of_quiet (h i hi))
  | append _ _ _ iha ihb => exact List.forall_mem_append.2 ⟨iha, ihb⟩
  | push => exact List.forall_mem_singleton.2 rfl
  | pop _ ih => exact List.forall_mem_append.2 ⟨ih, List.forall_mem_singleton.2 rfl⟩
  | @call _ n _ _ _ _ ih =>
    refine List.forall_mem_append.2 ⟨List.forall_mem_append.2 ⟨ih, ?_⟩, ?_⟩
    · exact List.forall_mem_singleton.2 rfl
    · unfold cleanUp
      split
      · exact List.forall_mem_nil _
      · exact List.forall_mem_singleton.2 rfl

/-- Neither does code that leaves the stack level. -/
theorem Listing.Level.spares {m : Nat} {code : Listing} (h : Level m code) :
    ∀ i ∈ code, i.sparesBase = true := by
  induction h with
  | nil => exact List.forall_mem_nil _
  | piece ha _ ih => exact List.forall_mem_append.2 ⟨ha.spares, ih⟩
  | item hi _ ih => exact List.forall_mem_cons.2 ⟨Item.spares_of_steady hi, ih⟩

namespace Program

/-- A call of the function `x`: it runs from its entry to a `ret`, which takes the return address
off the stack. -/
def Returns (x : Program) (s s' : Machine) : Prop :=
  ∃ rest s₁, x.Steps (x.code, s) (.inst .ret :: rest, s₁) ∧ s' = s₁.drop

/-- Everything that is called from `x` restores the frame base. -/
def RestoresBase (x : Program) : Prop :=
  ∀ {f : Address} {s s' : Machine}, x.callee f s s' → s'.regs .bp = s.regs .bp

variable {x : Program} {s s' : Machine} {rest : Listing}

/-- There is only one way through code without jumps and calls. -/
theorem steps_after_run {a b : Listing} {s₁ : Machine} (hrun : s.run x.symbols a = some s₁)
    (h : x.Steps (a ++ b, s) (.inst .ret :: rest, s')) :
    x.Steps (b, s₁) (.inst .ret :: rest, s') := by
  -- by induction on the code that was run: each item is a step, and no other step can be taken
  induction a generalizing s with
  | nil =>
    cases hrun
    exact h
  | cons i a ih =>
    cases i with
    | inst i =>
      obtain ⟨s₂, hs₂, hrun⟩ := Option.bind_eq_some_iff.1 hrun
      rcases Relation.ReflTransGen.cases_head h with heq | ⟨c, hstep, h⟩
      · cases heq
        cases hs₂
      · cases hstep with
        | inst hs =>
          obtain rfl := Option.some.inj (hs₂.symm.trans hs)
          exact ih hrun h
        | jmp | jcc | call => cases hs₂
    | comment =>
      rcases Relation.ReflTransGen.cases_head h with heq | ⟨c, hstep, h⟩
      · cases heq
      · cases hstep
        exact ih hrun h
    | label =>
      rcases Relation.ReflTransGen.cases_head h with heq | ⟨c, hstep, h⟩
      · cases heq
      · cases hstep
        exact ih hrun h
    | directive => cases hrun

/-- Where a jump inside a function leads: into its body, or to its epilogue. -/
theorem after?_cases {l e : String} {start body tail rest : Listing} (hs : start.labels = [])
    (ht : tail.labels = []) (h : (start ++ (body ++ .label e :: tail)).after? l = some rest) :
    rest = tail ∨ ∃ b, b <:+ body ∧ rest = b ++ .label e :: tail := by
  rw [after?_append_of_notMem (by simp [hs])] at h
  obtain ⟨pre, hpre⟩ := exists_of_after? h
  rcases List.append_eq_append_iff.1 hpre with ⟨c, rfl, hc⟩ | ⟨c, rfl, hc⟩
  · cases c with
    | nil =>
      injection hc with _ hc
      exact .inl hc.symm
    | cons i c =>
      obtain ⟨-, rfl⟩ := List.cons_eq_cons.1 hc
      simp [labels_cons_label] at ht
  · cases c with
    | nil =>
      injection hc with _ hc
      exact .inl hc
    | cons i c =>
      injection hc with _ hc
      exact .inr ⟨c, ⟨pre ++ [i], by simp⟩, hc⟩

/-- The body of a function keeps the frame base until it is left for the epilogue. -/
theorem steps_leave {e : String} {start body tail : Listing} {base : Address}
    {c : Listing × Machine}
    (hcode : x.code = start ++ (body ++ .label e :: tail)) (hs : start.labels = [])
    (ht : tail.labels = []) (hbody : ∀ i ∈ body, i.sparesBase = true) (hx : x.RestoresBase)
    (h : x.Steps c (.inst .ret :: rest, s')) {b : Listing} (hb : b <:+ body)
    (hc : c.1 = b ++ .label e :: tail) (hbase : c.2.regs .bp = base) :
    ∃ s₁, s₁.regs .bp = base ∧ x.Steps (tail, s₁) (.inst .ret :: rest, s') := by
  -- by induction on the steps until the function returns: control stays in the body, which spares
  -- the base, until it falls through to the epilogue or jumps there
  induction h using Relation.ReflTransGen.head_induction_on generalizing b with
  | refl =>
    cases b with
    | nil => cases hc
    | cons i b =>
      injection hc with hi
      subst hi
      cases hbody _ (hb.subset List.mem_cons_self)
  | @head c c' hstep hrest ih =>
    obtain ⟨code, s⟩ := c
    cases b with
    | nil =>
      cases hc
      cases hstep
      exact ⟨s, hbase, hrest⟩
    | cons i b =>
      cases hc
      have hi := hbody i (hb.subset List.mem_cons_self)
      have hb' : b <:+ body := (List.suffix_cons i b).trans hb
      -- a jump leads to the epilogue or to some suffix of the body
      have hjump {l : String} {rest' : Listing} (hl : x.code.after? l = some rest')
          (hc' : c' = (rest', s)) :
          ∃ s₁, s₁.regs .bp = base ∧ x.Steps (tail, s₁) (.inst .ret :: rest, s') := by
        subst hc'
        rcases after?_cases hs ht (hcode ▸ hl) with rfl | ⟨b'', hb'', rfl⟩
        · exact ⟨s, hbase, hrest⟩
        · exact ih hb'' rfl hbase
      cases hstep with
      | inst hs => exact ih hb' rfl ((exec_regs hs (Item.spares_inst hi).2).trans hbase)
      | comment | label => exact ih hb' rfl hbase
      | jmp hl => exact hjump hl rfl
      | jcc hf hl =>
        split at hl
        · exact hjump hl rfl
        · subst hl
          exact ih hb' rfl hbase
      | call _ hcallee => exact ih hb' rfl ((hx hcallee).trans hbase)

/-- The epilogue puts the stack pointer above the saved frame base. -/
theorem run_epilogue (σ : Symbols) (s : Machine) :
    ∃ s', s.run σ [.mov (.reg .ebp) (.reg .esp), .inst (.pop (.reg .ebp))] = some s' ∧
      s'.regs .sp = s.regs .bp + 4 := by
  have hread : s.read σ .w32 (.reg .ebp) = some (s.regs .bp) := by
    rw [← view_w32 (s := s)]
    rfl
  refine ⟨_, (run_cons_of (exec_mov (r := .esp) hread)).trans (run_cons_of rfl), ?_⟩
  refine (regs_setView_ne (by decide)).trans ?_
  exact congrArg (· + 4) regs_setView_w32

/-- A function returns with the stack pointer it was entered with, the return address taken off. -/
theorem sp_of_returns {frame : Nat} {epilogue : Ir.Label} {body : Listing} {d : Directive}
    (hcode : x.code = prologue frame ++ (body ++ (epilogueCode epilogue ++ [.directive d])))
    (hbody : ∀ i ∈ body, i.sparesBase = true) (hx : x.RestoresBase) (h : x.Returns s s') :
    s'.regs .sp = s.regs .sp + 4 := by
  obtain ⟨rest, s₁, hsteps, rfl⟩ := h
  obtain ⟨s₂, hs₂, hholds⟩ := Activation.prologue_spec s x.symbols frame 0
  have hlabels : (prologue frame).labels = [] := by
    unfold prologue
    split <;> rfl
  -- the base register is spared up to the epilogue, which takes the stack pointer from it
  rw [hcode] at hsteps
  obtain ⟨s₃, hbp, htail⟩ := steps_leave hcode hlabels rfl hbody hx (steps_after_run hs₂ hsteps)
    (List.suffix_refl _) rfl hholds.bp
  obtain ⟨s₄, hs₄, hsp⟩ := run_epilogue x.symbols s₃
  -- the return behind the epilogue is not taken, as there is no step at its end
  rcases Relation.ReflTransGen.cases_head (steps_after_run hs₄ htail) with heq | ⟨c, hstep, -⟩
  · obtain rfl : s₄ = s₁ := congrArg Prod.snd heq
    have hdrop : s₄.drop.regs .sp = s₄.regs .sp + 4 := rfl
    have hbase : (Activation.enter s frame 0).base = s.regs .sp - 4 := rfl
    rw [hdrop, hsp, hbp, hbase, BitVec.sub_add_cancel]
  · cases hstep with
    | inst h => cases h

end Program

/-! ## Calls -/

/-- Parameters are above the saved frame base and the return address, one word each. -/
theorem Frame.param_offset {g : Ir.Function} {entities : EntityTable}
    {types : TypeTable} {frame : Frame} (h : Frame.compute g entities types = .ok frame) {i : Nat}
    {slot : Slot} (hi : 8 + 4 * i < 2 ^ 63) (hslot : frame.params[i]? = some slot) :
    g.params[i]? = some slot.entity ∧
      slot.offset.toBitVec.setWidth 32 = BitVec.ofNat 32 (8 + 4 * i) := by
  obtain ⟨params, hparams, h⟩ := bind_eq_ok_iff.1 h
  obtain ⟨vars, -, h⟩ := bind_eq_ok_iff.1 h
  obtain ⟨⟨a, locals⟩, -, h⟩ := bind_eq_ok_iff.1 h
  obtain ⟨size, -, h⟩ := bind_eq_ok_iff.1 h
  obtain ⟨size', -, h⟩ := bind_eq_ok_iff.1 h
  cases h
  obtain ⟨hentities, hoffsets⟩ := Frame.placeParams_eq_ok hparams
  have hoffset : slot.offset = Int64.ofNat (8 + 4 * i) := by
    rw [← Int64.toInt_inj, hoffsets i slot hslot, Int64.toInt_ofNat_of_lt hi]
    omega
  refine ⟨?_, by rw [hoffset, setWidth_ofNat32]⟩
  rw [← hentities, List.getElem?_map, hslot]
  rfl

namespace Placement

/-- The code of a body neither returns nor changes the frame base. -/
theorem bodyCode_spares {p : Placement} {options : AssemblyOptions} {epilogue : Ir.Label}
    {body : List Ir.Stmt} {code : Listing} (h : p.bodyCode options epilogue body = .ok code) :
    ∀ i ∈ dropJumps epilogue.render code, i.sparesBase = true := by
  have hm : ∀ s ∈ body, s.action.words ≤ (body.map (·.action.words)).sum :=
    fun s hs => List.le_sum_of_mem (List.mem_map_of_mem hs)
  exact ((bodyCode_level hm h).dropJumps _).spares

/-- The distance of a byte above the stack pointer from a place under it. -/
theorem toNat_above {sp : Address} {k d : Nat} (h : d + k < 2 ^ 32) :
    (sp + BitVec.ofNat 32 k - (sp - BitVec.ofNat 32 d)).toNat = d + k := by
  have hdist : sp + BitVec.ofNat 32 k - (sp - BitVec.ofNat 32 d) = BitVec.ofNat 32 (d + k) := by
    rw [BitVec.ofNat_add]
    bv_omega
  rw [hdist, BitVec.toNat_ofNat, Nat.mod_eq_of_lt h]

/-- Once a callee has run its prologue, the words that were on top of the stack before the call are
eight bytes above the frame base and upward. -/
theorem prologue_words (σ : Symbols) (s : Machine) (frame : Nat) (back : Address) :
    ∃ s', (s.push back).run σ (prologue frame) = some s' ∧ ∀ i, 4 * i + 12 ≤ 2 ^ 32 →
      s'.memory.load (s'.regs .bp + BitVec.ofNat 32 (8 + 4 * i)) 4 =
        s.memory.load (s.regs .sp + BitVec.ofNat 32 (4 * i)) 4 := by
  obtain ⟨s', hs', hholds⟩ := Activation.prologue_spec (s.push back) σ frame 0
  refine ⟨s', hs', fun i hi => ?_⟩
  have hbase : (Activation.enter (s.push back) frame 0).base = s.regs .sp - BitVec.ofNat 32 8 :=
    BitVec.sub_sub ..
  have haddr : s'.regs .bp + BitVec.ofNat 32 (8 + 4 * i) =
      s.regs .sp + BitVec.ofNat 32 (4 * i) := by
    rw [hholds.bp, hbase, BitVec.ofNat_add, ← BitVec.add_assoc, BitVec.sub_add_cancel]
  rw [haddr]
  refine Memory.load_congr fun j hj => ?_
  rw [BitVec.add_assoc, ← BitVec.ofNat_add]
  refine (hholds.memory ?_).trans (Memory.store_other ?_)
  · rintro (hbelow | hsaved)
    · exact Nat.not_lt_zero _ hbelow
    · rw [Activation.Saved, hbase, toNat_above (by omega)] at hsaved
      omega
  · have hword : s.regs .sp - 4 = s.regs .sp - BitVec.ofNat 32 4 := rfl
    rw [hword, toNat_above (by omega)]
    omega

section Calls

variable {p : Placement} {w : Width} {callee : Ir.Expr} {args : List Ir.Expr}
  {arguments first : Listing} {o : Operand} {y : Program} {s s₁ : Machine} {n : Nat}

/-- The code in front of a call runs if the callee and the arguments have values. -/
theorem call_reached {f : Address} {vs : List Ir.Value} (hc : callee.Consistent)
    (hcw : callee.width = .w32) (hargs : ∀ e ∈ args, e.Consistent)
    (harguments : p.argumentCode args = .ok arguments)
    (htransfer : p.transferCode callee (p.valueCode callee) = .ok (first ++ [.inst (.call o)]))
    (hroom : 4 * (Ir.Expr.call w callee args).words ≤ n) (hn : n ≤ 2 ^ 32)
    (hf : p.calleeAddress? y.symbols (p.env y.symbols s n) callee = some f)
    (hvs : Ir.Expr.evalAll (p.env y.symbols s n) args = some vs) :
    ∃ s₁, s.run y.symbols (arguments ++ first) = some s₁ ∧ y.target? s₁ o = some f := by
  rw [Ir.Expr.words, Ir.Expr.argumentWords_eq hargs, hc.words_eq] at hroom
  obtain ⟨first', o', heq, hgoes⟩ := transferCode_spec (x := y) hc hcw htransfer
  obtain ⟨rfl, ho⟩ := List.append_inj' heq rfl
  cases ho
  obtain ⟨-, s₀, hs₀, hg₀, -⟩ := argumentCode_spec hargs harguments (by omega) hn hvs
  obtain ⟨n, rfl⟩ := Nat.exists_eq_add_of_le (show 4 * args.length ≤ n by omega)
  obtain ⟨s₁, hs₁, htarget, -⟩ :=
    hgoes (by omega) (by omega) (calleeAddress?_mono (env_le_of_grows hn hg₀) hf)
  exact ⟨s₁, (run_append_of hs₀).trans hs₁, htarget⟩

/-- The words on top of the stack when a call is made. -/
theorem call_leaves (harguments : p.argumentCode args = .ok arguments)
    (hfirst : first = [] ∨ p.valueCode callee = .ok first)
    (hroom : 4 * (Ir.Expr.call w callee args).words ≤ n) (hn : n ≤ 2 ^ 32)
    (hrun : s.run y.symbols (arguments ++ first) = some s₁) {i : Nat} {e : Ir.Expr}
    (hi : args[i]? = some e) :
    p.Leaves y.symbols s n (4 * (args.length - (i + 1))) e
      (s₁.memory.load (s₁.regs .sp + BitVec.ofNat 32 (4 * i)) 4) := by
  rw [Ir.Expr.words] at hroom
  obtain ⟨s₀, hs₀, hs₁⟩ := run_append_eq_some hrun
  have hkeeps : s₀.Keeps (4 * callee.words) s₁ := by
    rcases hfirst with rfl | hfirst
    · cases hs₁
      exact .refl
    · exact (((exprCode_stacked callee).1 first hfirst).grows hs₁ (Nat.le_refl _)).keeps
  have hword : s₁.memory.load (s₁.regs .sp + BitVec.ofNat 32 (4 * i)) 4 =
      s₀.memory.load (s₀.regs .sp + BitVec.ofNat 32 (4 * i)) 4 := by
    have hlt : i < args.length := (List.getElem?_eq_some_iff.1 hi).1
    rw [hkeeps.sp]
    refine Memory.load_congr fun j hj => ?_
    rw [BitVec.add_assoc, ← BitVec.ofNat_add]
    exact hkeeps.memory (Below.not_above (k := 4 * args.length) (by omega) (by omega))
  rw [hword]
  exact argumentCode_leaves harguments (by omega) hn hs₀ hi

end Calls

/-- **Caller and callee agree on the arguments.** The code of a call pushes the arguments, finds the
callee, calls it and removes the arguments. Where the callee is the function `g`, whose code is that
of `x`, and the `n` bytes under the stack pointer have room for the words of the call:

* the call is reached if the callee and the arguments have values;
* once the callee has run its prologue, the word at the place of its parameter `i` is what the code
  of argument `i` left in `eax`, which is the value of the argument if it has one;
* when it has returned and the arguments are removed, the stack pointer is what it was. -/
theorem arguments_positions {p p₁ p₂ : Placement} {types : TypeTable} {options : AssemblyOptions}
    {epilogue : Ir.Label} {g : Ir.Function} {entity : Entity} {frame : Frame} {w : Width}
    {callee : Ir.Expr} {args : List Ir.Expr} {code calleeCode : Listing}
    (hcode : p.valueCode (.call w callee args) = .ok code)
    (hg : p₁.functionCode types options epilogue g = .ok (p₂, calleeCode))
    (hentity : p₁.entities.get g.entity = .ok entity)
    (hframe : Frame.compute g p₁.entities types = .ok frame) :
    ∃ before o inner, code = before ++ .inst (.call o) :: cleanUp args.length ∧
      calleeCode.after? entity.symbol = some (prologue frame.size ++ inner) ∧
      ∀ (y x : Program) (f : Address) (s : Machine) (n : Nat) (rest : Listing),
        x.code = prologue frame.size ++ inner → x.RestoresBase →
        (∀ {s s'}, y.callee f s s' → x.Returns s s') →
        4 * (Ir.Expr.call w callee args).words + 4 ≤ n → n ≤ 2 ^ 32 →
        (∀ {vs}, callee.Consistent → callee.width = .w32 → (∀ e ∈ args, e.Consistent) →
          p.calleeAddress? y.symbols (p.env y.symbols s n) callee = some f →
          Ir.Expr.evalAll (p.env y.symbols s n) args = some vs →
          ∃ s₁, s.run y.symbols before = some s₁ ∧ y.target? s₁ o = some f) ∧
        ∀ {s₁}, s.run y.symbols before = some s₁ →
          (∃ s₂, (s₁.push (y.here (cleanUp args.length ++ rest))).run x.symbols
              (prologue frame.size) = some s₂ ∧
            ∀ {i e slot}, args[i]? = some e → frame.params[i]? = some slot →
              let word := s₂.memory.load (s₂.regs .bp + slot.offset.toBitVec.setWidth 32) 4
              g.params[i]? = some slot.entity ∧
              p.Leaves y.symbols s n (4 * (args.length - (i + 1))) e word ∧
              ∀ {v}, e.Consistent → e.eval (p.env y.symbols s n) = some v →
                word.setWidth e.width.bits = v) ∧
          ∀ {s₃}, y.target? s₁ o = some f →
            y.Step (.inst (.call o) :: (cleanUp args.length ++ rest), s₁)
              (cleanUp args.length ++ rest, s₃) →
            ∃ s₄, s₃.run y.symbols (cleanUp args.length) = some s₄ ∧
              s₄.regs .sp = s.regs .sp := by
  obtain ⟨_, -, hcode⟩ := bind_eq_ok_iff.1 hcode
  obtain ⟨arguments, harguments, hcode⟩ := bind_eq_ok_iff.1 hcode
  obtain ⟨transfer, htransfer, hcode⟩ := bind_eq_ok_iff.1 hcode
  cases hcode
  obtain ⟨first, o, rfl, hfirst⟩ := transferCode_eq_ok htransfer
  obtain ⟨-, body, hbody, hafter⟩ := functionCode_eq_ok hg hentity hframe
  -- the words of a call bound those of its arguments and of its callee
  have hwords : (Ir.Expr.call w callee args).words =
      max (Ir.Expr.argumentWords args) (args.length + callee.words + 1) := by
    rw [Ir.Expr.words]
  have hstacked : Stacked (Ir.Expr.call w callee args).words args.length (arguments ++ first) :=
    stacked_call ((argumentCode_stacked args arguments harguments).mono (by omega))
      (exprCode_stacked callee).1 (by omega) hfirst
  refine ⟨arguments ++ first, o, dropJumps epilogue.render body ++ (epilogueCode epilogue ++
    [.directive (.size entity.symbol (".-" ++ entity.symbol))]), by simp, by simpa using hafter, ?_⟩
  intro y x f s n rest hx hbase hcalls hroom hn
  have hfits : 4 * (Ir.Expr.call w callee args).words ≤ n := by omega
  refine ⟨?_, fun {s₁} hrun => ⟨?_, ?_⟩⟩
  · -- the call is reached
    intro vs hc hcw hargs hf hvs
    exact call_reached hc hcw hargs harguments htransfer hfits hn hf hvs
  · -- the parameters
    obtain ⟨s₂, hs₂, hparams⟩ :=
      prologue_words x.symbols s₁ frame.size (y.here (cleanUp args.length ++ rest))
    refine ⟨s₂, hs₂, fun {i e slot} hi hslot => ?_⟩
    have hlt : i < args.length := (List.getElem?_eq_some_iff.1 hi).1
    obtain ⟨hparam, hoffset⟩ := Frame.param_offset hframe (by omega) hslot
    have hleaves := call_leaves harguments hfirst hfits hn hrun hi
    dsimp only
    rw [hoffset, hparams i (by omega)]
    refine ⟨hparam, hleaves, fun he hv => hleaves.eval he ?_ hn hv⟩
    have hwords' := Ir.Expr.words_le_argumentWords hi
    omega
  · -- the stack pointer
    intro s₃ htarget hstep
    have hsp₁ := (hstacked.grows hrun hfits).sp
    cases hstep with
    | inst h => cases h
    | call hf h =>
      obtain rfl := Option.some.inj (htarget.symm.trans hf)
      have hsp₃ := Program.sp_of_returns hx (bodyCode_spares hbody) hbase (hcalls h)
      have hpush : (s₁.push (y.here (cleanUp args.length ++ rest))).regs .sp =
          s₁.regs .sp - 4 := rfl
      obtain ⟨s₄, hs₄, hsp₄, -, -⟩ := cleanUp_spec y.symbols s₃ args.length
      refine ⟨s₄, hs₄, ?_⟩
      rw [hsp₄, hsp₃, hpush, BitVec.sub_add_cancel, hsp₁, BitVec.sub_add_cancel]

/-! ### A call with two arguments -/

/-- The entities of `int g(int a, char b) { return a; }`, before the frame of the function is
assigned. -/
def firstEntities : EntityTable where
  entries := [
    { name := "g", ref := default, kind := .definedFunction [⟨1⟩, ⟨2⟩] (.mk [] []),
      storage := .settled (.immediate (.symbol "g")) },
    { name := "a", ref := default, kind := .parameter, type := .settled ⟨0⟩ },
    { name := "b", ref := default, kind := .parameter, type := .settled ⟨0⟩ }]

/-- The function itself. -/
def firstOfTwo : Ir.Function where
  entity := ⟨0⟩
  params := [⟨1⟩, ⟨2⟩]
  body := #[{ action := .ret (some (.var .w32 ⟨1⟩)) }]

/-- The arguments of the call `g(10 - -(-3), (char)300)`. -/
def firstArguments : List Ir.Expr :=
  [.bin .w32 .sub (.int .w32 10) (.uni .w32 .neg (.int .w32 (-3))), .uni .w8 .uCast (.int .w32 300)]

/-- Three arguments of different shapes are pushed last to first, and each is found at its place. -/
theorem arguments_positions_first :
    let p : Placement := ⟨firstEntities, ⟨[]⟩⟩
    let s : Machine := { regs := fun _ => 4096, memory := fun _ => 0, flags := none }
    ∃ (before : Listing) (o : Operand) (x y : Program) (s₁ s₂ s₃ s₄ : Machine),
      p.valueCode (.call .w32 (.addr .w32 ⟨0⟩) firstArguments) =
        .ok (before ++ .inst (.call o) :: cleanUp 2) ∧
      s.run y.symbols before = some s₁ ∧
      (s₁.push (y.here (cleanUp 2))).run x.symbols (prologue 0) = some s₂ ∧
      s₂.memory.load (s₂.regs .bp + 8) 4 = (7 : BitVec 32) ∧
      (s₂.memory.load (s₂.regs .bp + 12) 4).setWidth 8 = (44 : BitVec 8) ∧
      y.Step (.inst (.call o) :: cleanUp 2, s₁) (cleanUp 2, s₃) ∧
      s₃.run y.symbols (cleanUp 2) = some s₄ ∧ s₄.regs .sp = 4096 := by
  intro p s
  have hframe : Frame.compute firstOfTwo firstEntities wordTypes =
      .ok ⟨0, [⟨⟨1⟩, 8⟩, ⟨⟨2⟩, 12⟩], []⟩ := rfl
  obtain ⟨code, hcode⟩ : ∃ code, p.valueCode (.call .w32 (.addr .w32 ⟨0⟩) firstArguments) =
      .ok code := ⟨_, rfl⟩
  obtain ⟨p₂, calleeCode, hg⟩ : ∃ p₂ code, p.functionCode wordTypes {} ⟨7⟩ firstOfTwo =
      .ok (p₂, code) := ⟨_, _, rfl⟩
  obtain ⟨before, o, inner, rfl, hafter, hcall⟩ := arguments_positions hcode hg rfl hframe
  -- the callee, and a caller that calls it
  let load : Item := .mov (.mem (.based .ebp 8)) (.reg .eax)
  let leave : Listing := [.mov (.reg .ebp) (.reg .esp), .inst (.pop (.reg .ebp))]
  let tail : Listing := [.inst .ret, .directive (.size "g" ".-g")]
  have hinner : inner = load :: .label ".L7" :: (leave ++ tail) := by
    have hstart : calleeCode.after? "g" =
        some (prologue 0 ++ load :: .label ".L7" :: (leave ++ tail)) := by
      cases hg
      decide +kernel
    exact List.append_cancel_left (Option.some.inj (hafter.symm.trans hstart))
  let x : Program := {
    symbols := fun _ => 8192
    code := prologue 0 ++ inner
    here := fun _ => 0
    callee := fun _ _ _ => False }
  let y : Program := {
    symbols := fun _ => 8192
    code := []
    here := fun _ => 0
    callee := fun _ s s' => x.Returns s s' }
  have hreturns (s : Machine) : ∃ s', x.Returns s s' := by
    obtain ⟨s₂, hs₂, -⟩ := Activation.prologue_spec s x.symbols 0 0
    obtain ⟨s₃, hs₃⟩ : ∃ s₃, s₂.run x.symbols [load, .label ".L7"] = some s₃ := ⟨_, rfl⟩
    obtain ⟨s₄, hs₄, -⟩ := Program.run_epilogue x.symbols s₃
    have hsteps : x.Steps (inner, s₂) (tail, s₄) := by
      rw [hinner]
      exact (Program.steps_of_run hs₃).trans (Program.steps_of_run hs₄)
    exact ⟨s₄.drop, _, s₄, (Program.steps_of_run hs₂).trans hsteps, rfl⟩
  obtain ⟨hreach, hcalled⟩ := hcall y x 8192 s 64 [] rfl nofun id (by decide) (by decide)
  have hargs : ∀ e ∈ firstArguments, e.Consistent := by
    simp only [firstArguments, List.forall_mem_cons]
    refine ⟨.arithmetic (by decide) rfl rfl (.int (by decide)) ?_ rfl rfl, ?_, nofun⟩
    · exact .sign (by decide) (.inl rfl) (.int (by decide)) rfl
    · exact .cast (by decide) (.inr rfl) (.int (by decide))
  have hvalue (i : Nat) {e : Ir.Expr} (he : firstArguments[i]? = some e) : e.Consistent :=
    hargs e (List.mem_of_getElem? he)
  obtain ⟨s₁, hs₁, htarget⟩ := hreach (.addr (by decide)) rfl hargs rfl rfl
  obtain ⟨⟨s₂, hs₂, hparams⟩, hreturned⟩ := hcalled hs₁
  obtain ⟨s₃, hs₃⟩ := hreturns (s₁.push 0)
  obtain ⟨s₄, hs₄, hsp⟩ := hreturned htarget (.call htarget hs₃)
  refine ⟨before, o, x, y, s₁, s₂, s₃, s₄, hcode, hs₁, hs₂, ?_, ?_, .call htarget hs₃, hs₄, hsp⟩
  · exact (BitVec.setWidth_eq _).symm.trans
      ((hparams (i := 0) rfl rfl).2.2 (hvalue 0 rfl) rfl)
  · exact (hparams (i := 1) rfl rfl).2.2 (hvalue 1 rfl) rfl

end Placement

end Backend386
