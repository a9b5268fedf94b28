import Backend386.Proofs.I386.Activation
import Backend386.Proofs.Ir.Step

/-!
# Code for functions is correct

The code of a function follows its body statement by statement. Between two statements the machine
holds the memory of the program, and what is left of the code is the code of what is left of the
body, without the jumps that were dropped.

* `Body` — a function body with its code, and all that is assumed of it;
* `Body.Matches` — the states of the machine between two statements;
* `Body.step` — the code of one statement does what the statement does;
* `Placement.functionCode_correct` — the code of a function runs as its body does, and returns with
  the stack and the registers as they were.
-/

namespace Backend386

open Machine

/-! ## Labels -/

/-- What follows a label stands in the body. -/
theorem Ir.mem_of_after? {l : Ir.Label} {body rest : List Ir.Stmt}
    (h : Ir.after? l body = some rest) : ∀ s ∈ rest, s ∈ body := by
  induction body with
  | nil => cases h
  | cons s body ih =>
    rw [Ir.after?] at h
    split at h
    · cases h
      exact fun s hs => List.mem_cons_of_mem _ hs
    · exact fun s hs => List.mem_cons_of_mem _ (ih h s hs)

/-! ## Bodies -/

/-- A function body with its code. -/
structure Body where
  placement : Placement
  options : AssemblyOptions
  epilogue : Ir.Label
  stmts : List Ir.Stmt
  /-- the code of the statements -/
  code : Listing
  /-- what comes in front of the code -/
  start : Listing
  /-- what follows the label of the epilogue -/
  tail : Listing

namespace Body

/-- What is left of the code of a function when the code of some statements is left. -/
def remaining (b : Body) (rest : Listing) : Listing :=
  dropJumps b.epilogue.render rest ++ .label b.epilogue.render :: b.tail

/-- The function `x` has the body `b`, on which nothing is wrong, and enough stack to run it. -/
structure Runs (b : Body) (x : Program) (k : Activation) (calls : Calls) : Prop where
  frames : x.Frames b.epilogue.render b.start b.code b.tail
  code : b.placement.bodyCode b.options b.epilogue b.stmts = .ok b.code
  consistent : ∀ s ∈ b.stmts, s.action.Consistent
  depth : ∀ s ∈ b.stmts, 4 * s.action.depth ≤ k.scratch
  fits : k.Fits
  cdecl : Cdecl x k calls

/-- Between two statements: what is left of the body and its memory, and what is left of the code
and the state of the machine. -/
structure Matches (b : Body) (k : Activation) (entry : Machine) (c : List Ir.Stmt × Memory)
    (d : Listing × Machine) : Prop where
  mem : ∀ s ∈ c.1, s ∈ b.stmts
  code : ∃ pre rest, b.placement.bodyCode b.options b.epilogue c.1 = .ok rest ∧
    b.code = pre ++ rest ∧ d.1 = b.remaining rest
  holds : k.Holds entry c.2 d.2

variable {b : Body} {x : Program} {k : Activation} {calls : Calls} {entry s : Machine}

/-- Comments do nothing. -/
theorem run_comment {σ : Symbols} {st : Ir.Stmt} {options : AssemblyOptions} :
    s.run σ (st.comment options) = some s := by
  unfold Ir.Stmt.comment
  split
  · split <;> rfl
  · rfl

/-- The code of the first statement that is left. -/
theorem Matches.cons {st : Ir.Stmt} {rest : List Ir.Stmt} {m : Memory} {code : Listing}
    (h : b.Matches k entry (st :: rest, m) (code, s)) :
    ∃ pre first later, b.placement.actionCode b.epilogue st.action = .ok first ∧
      b.placement.bodyCode b.options b.epilogue rest = .ok later ∧
      b.code = pre ++ (first ++ later) ∧ x.Steps (code, s) (b.remaining (first ++ later), s) := by
  obtain ⟨pre, all, hall, hcode, hleft⟩ := h.code
  obtain ⟨cs, hcs, hall⟩ := bind_eq_ok_iff.1 hall
  obtain ⟨later, hlater, hall⟩ := bind_eq_ok_iff.1 hall
  cases hall
  obtain ⟨first, hfirst, hcs⟩ := bind_eq_ok_iff.1 hcs
  cases hcs
  refine ⟨pre ++ st.comment b.options, first, later, hfirst, hlater, by simpa using hcode, ?_⟩
  obtain rfl : code = st.comment b.options ++ b.remaining (first ++ later) := by
    rw [remaining, ← List.append_assoc, ← dropJumps_append_of_kept Placement.comment_plain.kept]
    simpa [remaining] using hleft
  exact Program.steps_of_run run_comment

/-- Code without jumps stays as it is. -/
theorem remaining_append {first later : Listing} (h : first.Plain) :
    b.remaining (first ++ later) = first ++ b.remaining later := by
  rw [remaining, remaining, dropJumps_append_of_kept h.kept, List.append_assoc]

/-- A jump goes to the code of what follows its label. -/
theorem Runs.steps_jump (hb : b.Runs x k calls) {l : Ir.Label} {pre later : Listing}
    {rest : List Ir.Stmt} {m : Memory} (hcode : b.code = pre ++ .jmp l.render :: later)
    (hl : Ir.after? l b.stmts = some rest) (hs : k.Holds entry m s) :
    ∃ d, x.Steps (b.remaining (.jmp l.render :: later), s) d ∧ b.Matches k entry (rest, m) d := by
  obtain ⟨pre', code', hcode', hafter, hsplit⟩ := Placement.after?_bodyCode hb.code hl
  exact ⟨(b.remaining code', s), hb.frames.steps_jump hcode hafter,
    ⟨Ir.mem_of_after? hl, ⟨pre', code', hcode', hsplit, rfl⟩, hs⟩⟩

theorem Runs.scratch_le (hb : b.Runs x k calls) : k.scratch ≤ 2 ^ 32 := by
  have hfits := hb.fits
  unfold Activation.Fits at hfits
  omega

/-! ## Statements -/

/-- The width of a value is that of its expression. -/
theorem width_of_yields {σ : Type} {W : Ir.World σ} {m m' : σ} {e : Ir.Expr} {v : Ir.Value}
    (h : W.Yields m e v m') : v.1 = e.width := by
  cases h <;> rfl

/-- Going on behind the code of a statement. -/
theorem matches_next {pre first later : Listing} {rest : List Ir.Stmt} {m : Memory}
    (hmem : ∀ s ∈ rest, s ∈ b.stmts) (hcode : b.code = pre ++ (first ++ later))
    (hlater : b.placement.bodyCode b.options b.epilogue rest = .ok later)
    (hs : k.Holds entry m s) : b.Matches k entry (rest, m) (b.remaining later, s) :=
  ⟨hmem, ⟨pre ++ first, later, hlater, by rw [hcode, List.append_assoc], rfl⟩, hs⟩

/-- An expression is evaluated for its effects. -/
theorem Runs.step_eval (hb : b.Runs x k calls) {e : Ir.Expr} {v : Ir.Value}
    {loc : Option Location} {rest : List Ir.Stmt} {m m' : Memory} {d : Listing × Machine}
    (hm : b.Matches k entry (⟨.eval e, loc⟩ :: rest, m) d)
    (hv : (b.placement.world x.symbols k calls).Yields m e v m') :
    ∃ d', x.Steps d d' ∧ b.Matches k entry (rest, m') d' := by
  obtain ⟨hmem, hmem'⟩ := List.forall_mem_cons.1 hm.mem
  obtain ⟨pre, first, later, hfirst, hlater, hcode, hsteps⟩ := hm.cons
  obtain ⟨s', hs', hholds, -⟩ := Placement.steps_right (b.remaining later) hb.cdecl hb.fits
    (hb.consistent _ hmem) hfirst (hb.depth _ hmem) hv hm.holds
  rw [remaining_append ((Placement.exprCode_plain e).1 first hfirst)] at hsteps
  exact ⟨_, hsteps.trans hs', matches_next hmem' hcode hlater hholds⟩

/-- The target is evaluated along with the value, and holds the value afterwards. -/
theorem Runs.step_assign (hb : b.Runs x k calls) {target e : Ir.Expr} {v : Ir.Value}
    {loc : Option Location} {rest : List Ir.Stmt} {m m' m'' : Memory} {d : Listing × Machine}
    (hm : b.Matches k entry (⟨.assign target e, loc⟩ :: rest, m) d)
    (hv : (b.placement.world x.symbols k calls).Yields m e v m')
    (ha : (b.placement.world x.symbols k calls).assign m' target v = some m'') :
    ∃ d', x.Steps d d' ∧ b.Matches k entry (rest, m'') d' := by
  obtain ⟨hmem, hmem'⟩ := List.forall_mem_cons.1 hm.mem
  obtain ⟨ht, htw, he⟩ := hb.consistent _ hmem
  have hdepth := hb.depth _ hmem
  simp only [Ir.Action.depth] at hdepth
  -- the code is that of the value, then that of the store
  obtain ⟨pre, first, later, hfirst, hlater, hcode, hsteps⟩ := hm.cons
  rw [remaining_append (Placement.storeCode_plain hfirst)] at hsteps
  obtain ⟨value, store, hvalue, rfl, hstore⟩ :=
    Placement.storeCode_spec x.symbols ht htw hfirst
  -- the value is computed with its calls, and left in the accumulator
  obtain ⟨s₁, hs₁, hholds₁, hview⟩ := Placement.steps_right (store ++ b.remaining later)
    hb.cdecl hb.fits he hvalue (by omega) hv hm.holds
  obtain ⟨a, hadr, hclear, rfl⟩ := Placement.assign_world_eq_some_iff.1 ha
  obtain ⟨s₂, hk₂, hs₂⟩ := hstore (n := k.scratch) (by omega) hb.scratch_le
    (Ir.Expr.eval_mono hholds₁.env_le target hadr)
  obtain ⟨w, v⟩ := v
  obtain rfl : w = e.width := width_of_yields hv
  -- what is in the accumulator is the value that is stored
  obtain rfl : s₁.view .ax e.width = v := hview
  have hfinal := (hholds₁.keeps hb.fits hk₂).store (v := s₁.view .ax e.width) hclear
  rw [List.append_assoc] at hsteps
  exact ⟨_, (hsteps.trans hs₁).trans (Program.steps_of_run hs₂),
    matches_next hmem' hcode hlater hfinal⟩

/-- A branch goes on where its test says. -/
theorem Runs.step_branch (hb : b.Runs x k calls) {test : Ir.Expr} {v : BitVec test.width.bits}
    {yes no : Ir.Label} {loc : Option Location} {rest rest' : List Ir.Stmt} {m : Memory}
    {d : Listing × Machine} (hm : b.Matches k entry (⟨.branch test yes no, loc⟩ :: rest, m) d)
    (hv : test.eval ((b.placement.world x.symbols k calls).env m) = some v)
    (hl : Ir.after? (if v = 0 then no else yes) b.stmts = some rest') :
    ∃ d', x.Steps d d' ∧ b.Matches k entry (rest', m) d' := by
  obtain ⟨hmem, -⟩ := List.forall_mem_cons.1 hm.mem
  obtain ⟨pre, first, later, hfirst, hlater, hcode, hsteps⟩ := hm.cons
  obtain ⟨⟨code, c⟩, htest, hfirst⟩ := bind_eq_ok_iff.1 hfirst
  cases hfirst
  obtain ⟨s', f, hs', hflags, hholds, hkeeps⟩ := Placement.testCode_spec (hb.consistent _ hmem)
    htest (hb.depth _ hmem) hb.scratch_le (Ir.Expr.eval_mono hm.holds.env_le test hv)
  have hs := hm.holds.keeps hb.fits hkeeps
  have hplain : Listing.Plain (code ++ [.inst (.jcc c (.target yes.render))]) :=
    (Placement.testCode_plain htest).append (.single rfl)
  -- the conditional jump stays, the other one may be dropped
  have hsplit : code ++ [.inst (.jcc c (.target yes.render)), .jmp no.render] ++ later =
      (code ++ [.inst (.jcc c (.target yes.render))]) ++ .jmp no.render :: later := by simp
  rw [hsplit, remaining_append hplain, List.append_assoc] at hsteps
  rw [hsplit, ← List.append_assoc] at hcode
  have hreach := hsteps.trans (Program.steps_of_run hs')
  by_cases hzero : v = 0
  · -- the conditional jump is not taken
    rw [if_pos hzero] at hl
    obtain ⟨d', hd', hmatch⟩ := hb.steps_jump hcode hl hs
    have hfalse : c.holds f = false := by
      rw [← Bool.not_eq_true, hholds, not_not]
      exact hzero
    exact ⟨d', hreach.trans (.head (.jcc hflags (by rw [hfalse]; rfl)) hd'), hmatch⟩
  -- it is taken
  · rw [if_neg hzero] at hl
    obtain ⟨pre', code', hcode', hafter, hpre'⟩ := Placement.after?_bodyCode hb.code hl
    refine ⟨(b.remaining code', s'), hreach.trans (.single (.jcc hflags ?_)),
      ⟨Ir.mem_of_after? hl, ⟨pre', code', hcode', hpre', rfl⟩, hs⟩⟩
    rw [hholds.2 hzero]
    exact hb.frames.after?_body hafter

/-- **One statement.** The code of a statement does what the statement does. -/
theorem Runs.step (hb : b.Runs x k calls) {c c' : List Ir.Stmt × Memory} {d : Listing × Machine}
    (hm : b.Matches k entry c d)
    (h : Ir.Step (b.placement.world x.symbols k calls) b.stmts c c') :
    ∃ d', x.Steps d d' ∧ b.Matches k entry c' d' := by
  cases h with
  | eval hv => exact hb.step_eval hm hv
  | assign hv ha => exact hb.step_assign hm hv ha
  | jump hl =>
    obtain ⟨pre, first, later, hfirst, -, hcode, hsteps⟩ := hm.cons
    cases hfirst
    obtain ⟨d', hd', hmatch⟩ := hb.steps_jump hcode hl hm.holds
    exact ⟨d', hsteps.trans hd', hmatch⟩
  | branch hv hl => exact hb.step_branch hm hv hl
  | label =>
    obtain ⟨-, hmem⟩ := List.forall_mem_cons.1 hm.mem
    obtain ⟨pre, first, later, hfirst, hlater, hcode, hsteps⟩ := hm.cons
    cases hfirst
    refine ⟨_, hsteps.tail ?_, matches_next hmem hcode hlater hm.holds⟩
    rw [remaining, List.singleton_append, dropJumps, if_neg (by simp [Item.jumpTarget?])]
    exact .label

/-- Any number of statements. -/
theorem Runs.steps (hb : b.Runs x k calls) {c c' : List Ir.Stmt × Memory} {d : Listing × Machine}
    (hm : b.Matches k entry c d)
    (h : Ir.Steps (b.placement.world x.symbols k calls) b.stmts c c') :
    ∃ d', x.Steps d d' ∧ b.Matches k entry c' d' := by
  induction h with
  | refl => exact ⟨d, .refl, hm⟩
  | tail _ hstep ih =>
    obtain ⟨d₁, hd₁, hm₁⟩ := ih
    obtain ⟨d₂, hd₂, hm₂⟩ := hb.step hm₁ hstep
    exact ⟨d₂, hd₁.trans hd₂, hm₂⟩

/-- At the end of a run the epilogue is reached, with the returned value in `eax`. -/
theorem Runs.ends (hb : b.Runs x k calls) {rest : List Ir.Stmt} {m : Memory} {e : Ir.Ending}
    {d : Listing × Machine} (hm : b.Matches k entry (rest, m) d)
    (h : Ir.Ends (b.placement.world x.symbols k calls) m rest e) :
    ∃ s', x.Steps d (b.tail, s') ∧ k.Holds entry m s' ∧
      ∀ v, e = .returned (some v) → s'.view .ax v.1 = v.2 := by
  -- how a body ends: behind its last statement, or by a return with or without a value
  cases h with
  | normal =>
    obtain ⟨pre, rest, hrest, hcode, hd⟩ := hm.code
    cases hrest
    refine ⟨d.2, .single ?_, hm.holds, fun _ h => nomatch h⟩
    obtain ⟨code, s⟩ := d
    cases hd
    exact .label
  | bare =>
    obtain ⟨pre, first, later, hfirst, -, hcode, hsteps⟩ := hm.cons
    cases hfirst
    exact ⟨d.2, hsteps.trans (hb.frames.steps_epilogue hcode), hm.holds, fun _ h => nomatch h⟩
  | @value e v _ _ hv =>
    obtain ⟨hmem, -⟩ := List.forall_mem_cons.1 hm.mem
    obtain ⟨pre, first, later, hfirst, -, hcode, hsteps⟩ := hm.cons
    obtain ⟨ce, hce, hfirst⟩ := bind_eq_ok_iff.1 hfirst
    cases hfirst
    -- the value stays in the accumulator up to the epilogue
    obtain ⟨s', hs', hview, hk⟩ := (Placement.exprCode_spec (hb.consistent _ hmem)).1
      (hb.depth _ hmem) hb.scratch_le (Ir.Expr.eval_mono hm.holds.env_le e hv) hce
    rw [List.append_assoc] at hcode hsteps
    rw [remaining_append ((Placement.exprCode_plain e).1 ce hce)] at hsteps
    rw [← List.append_assoc] at hcode
    refine ⟨s', (hsteps.trans (Program.steps_of_run hs')).trans (hb.frames.steps_epilogue hcode),
      hm.holds.keeps hb.fits hk, ?_⟩
    rintro _ ⟨⟩
    exact hview

end Body

/-! ## Prologue and epilogue -/

namespace Activation

/-- The activation of a function that is entered in the state `s`, where the return address is on
top of the stack. -/
def enter (s : Machine) (frame scratch : Nat) : Activation where
  base := s.regs .sp - 4
  frame := frame
  scratch := scratch

variable {s : Machine} {frame scratch : Nat}

theorem push_other {a : Address} (ha : ¬ (enter s frame scratch).Saved a) (v : Address) :
    (s.push v).memory a = s.memory a :=
  Memory.store_other fun hlt => ha (show (a - (s.regs .sp - 4)).toNat < 8 by omega)

/-- The prologue saves the frame base of the caller and sets up the frame. -/
theorem prologue_spec (s : Machine) (σ : Symbols) (frame scratch : Nat) :
    ∃ s', s.run σ (prologue frame) = some s' ∧
      (enter s frame scratch).Holds (s.push (s.regs .bp)) s.memory s' := by
  -- the base pointer is pushed, set to the stack pointer, and the frame is made below it
  have hpush : s.exec σ (.push (.reg .ebp)) = some (s.push (s.regs .bp)) := by
    rw [← view_w32 (s := s)]
    rfl
  set s₁ := s.push (s.regs .bp) with hs₁
  set s₂ := s₁.setView .bp .w32 (s₁.regs .sp) with hs₂
  have hmov : s₁.exec σ (.binary .mov (.reg .esp) (.reg .ebp)) = some s₂ := by
    have hread : s₁.read σ .w32 (.reg .esp) = some (s₁.regs .sp) := by
      rw [← view_w32 (s := s₁)]
      rfl
    exact exec_mov (r := .ebp) hread
  have hmemory : ∀ {a}, ¬ (enter s frame scratch).Hidden a → s₂.memory a = s.memory a :=
    fun ha => push_other (fun hs => ha (.inr hs)) _
  have hbp : s₂.regs .bp = (enter s frame scratch).base := regs_setView_w32
  unfold prologue
  split
  · refine ⟨_, (run_cons_of hpush).trans
      ((run_cons_of hmov).trans (run_cons_of (exec_esp rfl))), ?_⟩
    exact ⟨regs_setView_w32, (regs_setView_ne (by decide)).trans hbp,
      fun _ _ _ hsp hbp => (regs_setView_ne hsp).trans (regs_setView_ne hbp), hmemory,
      fun _ => rfl⟩
  -- an empty frame needs no subtraction
  · obtain rfl : frame = 0 := by omega
    refine ⟨s₂, (run_cons_of hpush).trans (run_cons_of hmov), ?_⟩
    exact ⟨(BitVec.sub_zero _).symm, hbp, fun _ _ _ _ hbp => regs_setView_ne hbp,
      hmemory, fun _ => rfl⟩

/-- The return address is still there. -/
theorem Holds.load_return {m : Memory} {s' : Machine}
    (h : (enter s frame scratch).Holds (s.push (s.regs .bp)) m s') :
    s'.memory.load (s.regs .sp) 4 = s.top := by
  refine Memory.load_congr fun i hi => ?_
  have hsaved : (enter s frame scratch).Saved (s.regs .sp + BitVec.ofNat 32 i) := by
    show (s.regs .sp + BitVec.ofNat 32 i - (s.regs .sp - 4)).toNat < 8
    bv_omega
  refine (h.saved hsaved).trans (Memory.store_other ?_)
  bv_omega

/-- The epilogue gives the frame back. -/
theorem epilogue_spec (σ : Symbols) {m : Memory} {s' : Machine}
    (h : (enter s frame scratch).Holds (s.push (s.regs .bp)) m s') :
    ∃ s'', s'.run σ [.mov (.reg .ebp) (.reg .esp), .inst (.pop (.reg .ebp))] = some s'' ∧
      (∀ c, c ≠ .ax → c ≠ .cx → c ≠ .dx → s''.regs c = s.regs c) ∧
      s''.regs .ax = s'.regs .ax ∧ s''.memory = s'.memory := by
  set s₁ := s'.setView .sp .w32 (s'.regs .bp) with hs₁
  have hmov : s'.exec σ (.binary .mov (.reg .ebp) (.reg .esp)) = some s₁ := by
    have hread : s'.read σ .w32 (.reg .ebp) = some (s'.regs .bp) := by
      rw [← view_w32 (s := s')]
      rfl
    exact exec_mov (r := .esp) hread
  have hsp : s₁.regs .sp = s.regs .sp - 4 := regs_setView_w32.trans h.bp
  -- the saved frame base is still there
  have htop : s₁.top = s.regs .bp := by
    have hsaved : s'.memory.load (s.regs .sp - 4) 4 =
        (s.push (s.regs .bp)).memory.load (s.regs .sp - 4) 4 := by
      refine Memory.load_congr fun i hi => h.saved ?_
      show (s.regs .sp - 4 + BitVec.ofNat 32 i - (s.regs .sp - 4)).toNat < 8
      rw [BitVec.add_comm, BitVec.add_sub_cancel, BitVec.toNat_ofNat]
      omega
    rw [top, hsp]
    exact hsaved.trans (Memory.load_store_same (by decide))
  refine ⟨s₁.drop.setView .bp .w32 s₁.top, (run_cons_of hmov).trans (run_cons_of rfl), ?_, ?_, rfl⟩
  · intro c ha hc hd
    by_cases hbp : c = .bp
    · subst hbp
      exact regs_setView_w32.trans htop
    · refine (regs_setView_ne hbp).trans ?_
      by_cases hc' : c = .sp
      · subst hc'
        have hdrop : s₁.drop.regs .sp = s₁.regs .sp + 4 := rfl
        rw [hdrop, hsp, BitVec.sub_add_cancel]
      · have hdrop : s₁.drop.regs c = s₁.regs c := if_neg hc'
        have hmoved : s₁.regs c = s'.regs c := regs_setView_ne hc'
        rw [hdrop, hmoved, h.regs ha hc hd hc' hbp]
        exact if_neg hc'
  · rfl

end Activation

/-! ## Functions -/

namespace Placement

/-- The parts of the code of a function. -/
theorem functionCode_eq_ok {p p' : Placement} {types : TypeTable} {options : AssemblyOptions}
    {epilogue : Ir.Label} {f : Ir.Function} {code : Listing} {entity : Entity} {frame : Frame}
    (h : p.functionCode types options epilogue f = .ok (p', code))
    (hentity : p.entities.get f.entity = .ok entity)
    (hframe : Frame.compute f p.entities types = .ok frame) :
    f.labelProblem? = none ∧ ∃ body, p'.bodyCode options epilogue f.body.toList = .ok body ∧
      code.after? entity.symbol = some (prologue frame.size ++ dropJumps epilogue.render body ++
        epilogueCode epilogue ++ [.directive (.size entity.symbol (".-" ++ entity.symbol))]) := by
  obtain ⟨_, he, h⟩ := bind_eq_ok_iff.1 h
  obtain rfl := Except.ok.inj (hentity.symm.trans he)
  dsimp only at h
  split at h
  · cases h
  · rename_i hlabels
    obtain ⟨_, hf, h⟩ := bind_eq_ok_iff.1 h
    obtain rfl := Except.ok.inj (hframe.symm.trans hf)
    obtain ⟨entities, -, h⟩ := bind_eq_ok_iff.1 h
    obtain ⟨body, hbody, h⟩ := bind_eq_ok_iff.1 h
    cases h
    refine ⟨Option.eq_none_iff_forall_ne_some.2 fun l hl => hlabels l hl, body, hbody, ?_⟩
    cases entity.isPrivate <;> simp [Listing.after?]

/-- **The code of a function runs as its body does.** It is run from the entry label, in any state,
with `scratch` bytes under the frame for the words it puts aside and for what it calls. The body
runs on the memory of that state; it neither reads nor writes the hidden bytes of the activation.

* The code follows the body statement by statement.
* When the body has ended, the code is at `ret`. The registers that belong to the caller are as they
  were, memory is what the body made of it, the return address is on top of the stack, and a
  returned value is in the view of `eax` that has its width. -/
theorem functionCode_correct {p p' : Placement} {types : TypeTable} {options : AssemblyOptions}
    {epilogue : Ir.Label} {f : Ir.Function} {code : Listing} {entity : Entity} {frame : Frame}
    (hcode : p.functionCode types options epilogue f = .ok (p', code))
    (hentity : p.entities.get f.entity = .ok entity)
    (hframe : Frame.compute f p.entities types = .ok frame)
    (hfresh : epilogue ∉ f.placedLabels) (hbody : ∀ st ∈ f.body.toList, st.action.Consistent) :
    ∃ start, code.after? entity.symbol = some start ∧
    ∀ (x : Program) (s : Machine) (scratch : Nat) (calls : Calls), x.code = start →
      (∀ st ∈ f.body.toList, 4 * st.action.depth ≤ scratch) →
      (Activation.enter s frame.size scratch).Fits →
      Cdecl x (Activation.enter s frame.size scratch) calls →
      let k := Activation.enter s frame.size scratch
      let W := p'.world x.symbols k calls
      let body := f.body.toList
      (∃ R : List Ir.Stmt × Memory → Listing × Machine → Prop,
        (∀ {c d}, R c d → k.Holds (s.push (s.regs .bp)) c.2 d.2) ∧
        (∃ d, x.Steps (start, s) d ∧ R (body, s.memory) d) ∧
        ∀ {c c' d}, R c d → Ir.Step W body c c' → ∃ d', x.Steps d d' ∧ R c' d') ∧
      ∀ {rest m e}, Ir.Steps W body (body, s.memory) (rest, m) → Ir.Ends W m rest e →
        ∃ rest' s', x.Steps (start, s) (.inst .ret :: rest', s') ∧
          (∀ c, c ≠ .ax → c ≠ .cx → c ≠ .dx → s'.regs c = s.regs c) ∧
          (∀ a, ¬ k.Hidden a → s'.memory a = m a) ∧ s'.top = s.top ∧
          ∀ v, e = .returned (some v) → s'.view .ax v.1 = v.2 := by
  obtain ⟨hlabels, body, hbodyCode, hafter⟩ := functionCode_eq_ok hcode hentity hframe
  -- the body is run between a prologue and an epilogue that no jump leads to
  let b : Body := {
    placement := p', options, epilogue, stmts := f.body.toList, code := body
    start := prologue frame.size
    tail := [.mov (.reg .ebp) (.reg .esp), .inst (.pop (.reg .ebp)), .inst .ret,
      .directive (.size entity.symbol (".-" ++ entity.symbol))] }
  have hremaining : code.after? entity.symbol = some (b.start ++ b.remaining b.code) := by
    simpa [b, Body.remaining, epilogueCode] using hafter
  refine ⟨_, hremaining, fun x s scratch calls hx hdepth hfits hcdecl => ?_⟩
  intro k W stmts
  have hlabelsCode := labels_bodyCode hbodyCode
  -- its labels are distinct: the lowering placed each once, and the one of the epilogue is new
  have hb : b.Runs x k calls := by
    refine ⟨⟨by rw [hx, Body.remaining, List.append_assoc], ?_, ?_, ?_⟩, hbodyCode, hbody, hdepth,
      hfits, hcdecl⟩
    · show (prologue frame.size).labels = []
      unfold prologue
      split <;> rfl
    · show body.labels.Nodup
      rw [hlabelsCode]
      exact (f.nodup_placedLabels hlabels).map Ir.Label.render_injective
    · show epilogue.render ∉ body.labels
      rw [hlabelsCode, List.mem_map_of_injective Ir.Label.render_injective]
      exact hfresh
  obtain ⟨s₁, hs₁, hholds⟩ :=
    Activation.prologue_spec s x.symbols frame.size scratch
  have hstart : x.Steps (b.start ++ b.remaining b.code, s) (b.remaining b.code, s₁) :=
    Program.steps_of_run hs₁
  have hmatch : b.Matches k (s.push (s.regs .bp)) (stmts, s.memory) (b.remaining b.code, s₁) :=
    ⟨fun _ h => h, ⟨[], b.code, hbodyCode, rfl, rfl⟩, hholds⟩
  -- the relation matches the statements that are left with the code that is left
  refine ⟨⟨b.Matches k (s.push (s.regs .bp)), fun hm => hm.holds, ⟨_, hstart, hmatch⟩,
    fun hm hstep => hb.step hm hstep⟩, fun {rest m e} hsteps hends => ?_⟩
  -- a run of the body is followed step by step, up to the epilogue
  obtain ⟨d, hd, hm⟩ := hb.steps hmatch hsteps
  obtain ⟨s₂, hs₂, hholds₂, hvalue⟩ := hb.ends hm hends
  obtain ⟨s₃, hs₃, hregs, hax, hmemory⟩ := Activation.epilogue_spec x.symbols hholds₂
  refine ⟨_, s₃, ((hstart.trans hd).trans hs₂).trans (Program.steps_of_run hs₃), hregs, ?_, ?_, ?_⟩
  · intro a ha
    rw [hmemory, hholds₂.memory ha]
  · rw [top, hregs .sp (by decide) (by decide) (by decide), hmemory]
    exact hholds₂.load_return
  · intro v hv
    rw [view, hax]
    exact hvalue v hv

/-! ### A function that calls another one -/

/-- The entities of `int f() { int x = g(); return x + 1; }`, the variable being placed or not. -/
def callerEntities (x : Deferred Storage) : EntityTable where
  entries := [
    { name := "f", ref := default, kind := .definedFunction [] (.mk [] []) },
    { name := "x", ref := default, kind := .definedVariable none, type := .settled ⟨0⟩,
      storage := x },
    { name := "g", ref := default, kind := .undefinedFunction,
      storage := .settled (.immediate (.symbol "g")) }]

/-- The function itself. -/
def caller : Ir.Function where
  entity := ⟨0⟩
  scope := { vars := [⟨1⟩] }
  body := #[{ action := .assign (.addr .w32 ⟨1⟩) (.call .w32 (.addr .w32 ⟨2⟩) []) },
    { action := .ret (some (.bin .w32 .add (.var .w32 ⟨1⟩) (.int .w32 1))) }]

/-- A table with one type, the integers of 32 bits. -/
def wordTypes : TypeTable where
  profile := .ilp32
  entries := [⟨.integer .int true, .integer 4 true "int"⟩]

/-- The function `g` returns 41. -/
theorem functionCode_correct_caller :
    ∃ p' code start,
      functionCode ⟨callerEntities .pending, ⟨[]⟩⟩ wordTypes {} ⟨7⟩ caller = .ok (p', code) ∧
      code.after? "f" = some start ∧
      let s : Machine := { regs := fun _ => 4096, memory := fun _ => 0, flags := none }
      let x : Program := {
        symbols := fun _ => 8192
        code := start
        here := fun _ => 0
        callee := fun _ s s' => s' = s.drop.setView .ax .w32 41 }
      ∃ rest s', x.Steps (start, s) (.inst .ret :: rest, s') ∧ s'.view .ax .w32 = 42 ∧
        s'.regs .sp = 4096 := by
  let p' : Placement := ⟨callerEntities (.settled (.memory (.based .ebp (-4)))), ⟨[]⟩⟩
  let s : Machine := { regs := fun _ => 4096, memory := fun _ => 0, flags := none }
  let calls : Calls := fun _ _ m v m' => v = ⟨.w32, 41⟩ ∧ m' = m
  let W := p'.world (fun _ => 8192) (.enter s 4 64) calls
  have hbody : ∀ st ∈ caller.body.toList, st.action.Consistent := by
    simp only [caller, List.forall_mem_cons]
    refine ⟨⟨.addr (by decide), rfl, .call (by decide) (.addr (by decide)) rfl nofun⟩, ?_, nofun⟩
    exact .arithmetic (by decide) rfl rfl (.var (by decide)) (.int (by decide)) rfl rfl
  have hframe : Frame.compute caller (callerEntities .pending) wordTypes =
      .ok ⟨4, [], [⟨⟨1⟩, -4⟩]⟩ := rfl
  obtain ⟨code, hcode⟩ : ∃ code, functionCode ⟨callerEntities .pending, ⟨[]⟩⟩ wordTypes {} ⟨7⟩
      caller = .ok (p', code) := ⟨_, rfl⟩
  -- the run of the body
  have hassign : W.assign s.memory (.addr .w32 ⟨1⟩) ⟨.w32, 41⟩ =
      some (s.memory.store 4088 4 (41 : BitVec 32)) :=
    assign_world_eq_some_iff.2 ⟨(4088 : BitVec 32), by decide, by decide, rfl⟩
  have hsum : Ir.Expr.eval (W.env (s.memory.store 4088 4 (41 : BitVec 32)))
      (.bin .w32 .add (.var .w32 ⟨1⟩) (.int .w32 1)) = some 42 := by decide
  obtain ⟨start, hstart, hruns⟩ := functionCode_correct hcode rfl hframe (by decide) hbody
  refine ⟨p', code, start, hcode, hstart, ?_⟩
  intro _ x
  have hcdecl : Cdecl x (.enter s 4 64) calls := by
    rintro f vs m m' v s n ⟨rfl, rfl⟩ - - hmem -
    exact ⟨_, rfl, view_setView_same (by decide), regs_setView_ne (by decide),
      fun c ha _ _ hs => (regs_setView_ne ha).trans (if_neg hs), hmem, fun _ _ => rfl⟩
  have hfits : (Activation.enter s 4 64).Fits := show 8 + 4 + 64 ≤ 2 ^ 32 by decide
  obtain ⟨-, hends⟩ := hruns x s 64 calls rfl (by decide) hfits hcdecl
  obtain ⟨rest, s', hs', hregs, -, -, hvalue⟩ :=
    hends (.single (.assign (.call ⟨_, _, rfl, rfl, rfl, rfl⟩) hassign)) (.value hsum)
  exact ⟨rest, s', hs', hvalue _ rfl, hregs .sp (by decide) (by decide) (by decide)⟩

end Placement

end Backend386
