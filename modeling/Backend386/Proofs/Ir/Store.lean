import Backend386.Proofs.Ir.Step
import Backend386.Proofs.Source.Eval

/-!
# Intermediate code on a store of variables

Where only scalar variables count, intermediate code runs on the same stores as source expressions:
a variable is assigned through its address, and nothing else is addressed. Runs are deterministic,
so what a run comes to is fixed by any of its configurations.

* `Ir.storeWorld` — the store as what statements act on;
* `Ir.Expr.value?` — the value of an expression in a store;
* `Ir.Runs` — runs of statements on a store, and `Ir.Finishes` — what they come to;
* `Ir.Fails` — the configurations from which no run ends.
-/

namespace Backend386.Ir

open Source (Store)

/-- A store of scalar variables. -/
def storeWorld : World Store where
  env σ := {
    var := fun v w => some ((σ v).setWidth w.bits)
    address := fun _ => none
    literal := fun _ => none
    load := fun _ _ => none }
  assign σ target x :=
    match target with
    | .addr _ v => some (σ.write v x)
    | _ => none
  call _ _ _ _ _ := False

/-! ## Values -/

namespace Expr

/-- The value of an expression in a store. -/
def value? (σ : Store) (e : Expr) : Option Value :=
  (e.eval (storeWorld.env σ)).map (⟨e.width, ·⟩)

variable {σ τ : Store}

@[simp] theorem value?_int (w : Width) (v : Int64) :
    (int w v).value? σ = some ⟨w, v.toBitVec.setWidth w.bits⟩ := rfl

@[simp] theorem value?_var (w : Width) (v : EntityId) :
    (var w v).value? σ = some (σ.read v w) := rfl

@[simp] theorem value?_uni (w : Width) (op : Op) (e : Expr) :
    (uni w op e).value? σ = (e.value? σ).bind fun x => (op.unary? w x.2).map (⟨w, ·⟩) :=
  result?_uni w op e

@[simp] theorem value?_bin (w : Width) (op : Op) (l r : Expr) :
    (bin w op l r).value? σ = (l.value? σ).bind fun x => (r.value? σ).bind fun y =>
      (op.binary? w x.2 y.2).map (⟨w, ·⟩) :=
  result?_bin w op l r

/-- A value has the width of its expression. -/
theorem width_of_value? {e : Expr} {x : Value} (h : e.value? σ = some x) : x.1 = e.width :=
  (width_of_result? h).symm

/-- A value depends on the variables of its expression only. -/
theorem value?_congr : ∀ {e : Expr}, (∀ v ∈ e.entities, σ v = τ v) → e.value? σ = e.value? τ
  | int .., _ | str .., _ | addr .., _ | call .., _ => rfl
  | var w v, h => by
    rw [value?_var, value?_var, Store.read, Store.read, h v (by simp [entities])]
  | mem w a, _ => by
    rw [value?, value?, eval, eval]
    cases a.eval (storeWorld.env σ) <;> cases a.eval (storeWorld.env τ) <;> rfl
  | uni w op e, h => by
    have he : e.value? σ = e.value? τ := value?_congr h
    rw [value?_uni, value?_uni, he]
  | bin w op l r, h => by
    have hl : l.value? σ = l.value? τ :=
      value?_congr fun v hv => h v (List.mem_append_left _ hv)
    have hr : r.value? σ = r.value? τ :=
      value?_congr fun v hv => h v (List.mem_append_right _ hv)
    rw [value?_bin, value?_bin, hl, hr]

end Expr

/-- An expression has a value in a store, and leaves the store as it is. -/
theorem yields_iff {σ σ' : Store} {e : Expr} {x : Value} :
    storeWorld.Yields σ e x σ' ↔ e.value? σ = some x ∧ σ' = σ := by
  constructor
  · intro h
    cases h with
    | value h => exact ⟨Option.map_eq_some_iff.2 ⟨_, h, rfl⟩, rfl⟩
    | call h => exact h.elim
  · rintro ⟨h, rfl⟩
    obtain ⟨v, hv, rfl⟩ := Option.map_eq_some_iff.1 h
    exact .value hv

/-! ## Runs -/

/-- A run of statements on a store. -/
abbrev Runs (body : List Stmt) : List Stmt × Store → List Stmt × Store → Prop :=
  Steps storeWorld body

/-- A run ends, with the store it leaves. -/
def Finishes (body : List Stmt) (c : List Stmt × Store) (ending : Ending) (σ : Store) : Prop :=
  ∃ rest, Runs body c (rest, σ) ∧ Ends storeWorld σ rest ending

/-- No run from here ends: every run gets stuck or goes on for ever. -/
def Fails (body : List Stmt) (c : List Stmt × Store) : Prop :=
  ∀ ending σ, ¬ Finishes body c ending σ

section

variable {body rest : List Stmt} {σ τ : Store} {loc : Option Location}

/-! ### One statement -/

theorem runs_eval {e : Expr} {x : Value} (h : e.value? σ = some x) :
    Runs body (⟨.eval e, loc⟩ :: rest, σ) (rest, σ) :=
  .single (.eval (yields_iff.2 ⟨h, rfl⟩))

theorem runs_assign {w : Width} {v : EntityId} {e : Expr} {x : Value} (h : e.value? σ = some x) :
    Runs body (⟨.assign (.addr w v) e, loc⟩ :: rest, σ) (rest, σ.write v x) :=
  .single (.assign (yields_iff.2 ⟨h, rfl⟩) rfl)

theorem runs_jump {l : Label} {rest' : List Stmt} (h : after? l body = some rest') :
    Runs body (⟨.jump l, loc⟩ :: rest, σ) (rest', σ) :=
  .single (.jump h)

theorem runs_label {l : Label} : Runs body (⟨.label l, loc⟩ :: rest, σ) (rest, σ) :=
  .single .label

/-- A branch goes on behind its label. -/
theorem step_branch {test : Expr} {x : Value} {yes no : Label} {rest' : List Stmt}
    (hx : test.value? σ = some x) (h : after? (if x.holds then yes else no) body = some rest') :
    Step storeWorld body (⟨.branch test yes no, loc⟩ :: rest, σ) (rest', σ) := by
  obtain ⟨v, hv, rfl⟩ := Option.map_eq_some_iff.1 hx
  refine .branch hv ?_
  by_cases hzero : v = 0
  · have hfalse : Value.holds ⟨test.width, v⟩ = false := by simp [Value.holds, hzero]
    rw [hfalse, if_neg Bool.false_ne_true] at h
    rwa [if_pos hzero]
  · have htrue : Value.holds ⟨test.width, v⟩ = true := bne_iff_ne.2 hzero
    rw [htrue, if_pos rfl] at h
    rwa [if_neg hzero]

/-! ### Determinism -/

/-- A statement does one thing. -/
theorem Step.unique {c c₁ c₂ : List Stmt × Store} (h₁ : Step storeWorld body c c₁)
    (h₂ : Step storeWorld body c c₂) : c₁ = c₂ := by
  -- one step applies to each statement, and what it computes is a function of the store
  cases h₁ with
  | eval h =>
    cases h₂ with
    | eval h' => rw [(yields_iff.1 h).2, (yields_iff.1 h').2]
  | assign h ha =>
    cases h₂ with
    | assign h' ha' =>
      obtain ⟨hx, rfl⟩ := yields_iff.1 h
      obtain ⟨hy, rfl⟩ := yields_iff.1 h'
      obtain rfl := Option.some.inj (hx.symm.trans hy)
      rw [Option.some.inj (ha.symm.trans ha')]
  | jump h =>
    cases h₂ with
    | jump h' => rw [Option.some.inj (h.symm.trans h')]
  | branch hv h =>
    cases h₂ with
    | branch hv' h' =>
      obtain rfl := Option.some.inj (hv.symm.trans hv')
      rw [Option.some.inj (h.symm.trans h')]
  | label =>
    cases h₂ with
    | label => rfl

/-- Where a run ends, no statement follows. -/
theorem Ends.not_step {ending : Ending} {c : List Stmt × Store}
    (h : Ends storeWorld σ rest ending) : ¬ Step storeWorld body (rest, σ) c := by
  intro hc
  cases h <;> cases hc

/-- A run ends in one way. -/
theorem Ends.unique {ending ending' : Ending} (h : Ends storeWorld σ rest ending)
    (h' : Ends storeWorld σ rest ending') : ending = ending' := by
  cases h with
  | normal => cases h'; rfl
  | bare => cases h'; rfl
  | value hv =>
    cases h' with
    | value hv' => rw [Option.some.inj (hv.symm.trans hv')]

/-- Any configuration of a run decides what it comes to. -/
theorem Runs.finishes_iff {c c' : List Stmt × Store} {ending : Ending} (h : Runs body c c') :
    Finishes body c ending σ ↔ Finishes body c' ending σ := by
  constructor
  · rintro ⟨rest, hr, he⟩
    have hu : Relator.RightUnique (Step storeWorld body) := fun _ _ _ => Step.unique
    rcases Relation.ReflTransGen.total_of_right_unique hu h hr with hc | hc
    · exact ⟨rest, hc, he⟩
    · rcases Relation.ReflTransGen.cases_head hc with rfl | ⟨_, hs, -⟩
      · exact ⟨rest, .refl, he⟩
      · exact (he.not_step hs).elim
  · rintro ⟨rest, hr, he⟩
    exact ⟨rest, h.trans hr, he⟩

/-- A program ends in one way at most. -/
theorem Finishes.unique {c : List Stmt × Store} {ending ending' : Ending}
    (h : Finishes body c ending σ) (h' : Finishes body c ending' τ) : ending = ending' ∧ σ = τ := by
  obtain ⟨rest, hr, he⟩ := h
  obtain ⟨rest', hr', he'⟩ := hr.finishes_iff.1 h'
  rcases Relation.ReflTransGen.cases_head hr' with heq | ⟨_, hs, -⟩
  · obtain ⟨rfl, rfl⟩ := Prod.mk.inj heq
    exact ⟨he.unique he', rfl⟩
  · exact (he.not_step hs).elim

/-! ### Failing -/

theorem Runs.fails {c c' : List Stmt × Store} (h : Runs body c c') (hf : Fails body c') :
    Fails body c :=
  fun ending σ hc => hf ending σ (h.finishes_iff.1 hc)

/-- A statement that cannot be run fails. -/
theorem fails_of_stuck {c : List Stmt × Store} (hs : ∀ c', ¬ Step storeWorld body c c')
    (he : ∀ ending, ¬ Ends storeWorld c.2 c.1 ending) : Fails body c := by
  rintro ending σ ⟨rest, hr, hend⟩
  rcases Relation.ReflTransGen.cases_head hr with rfl | ⟨_, h, -⟩
  · exact he ending hend
  · exact hs _ h

theorem fails_eval {e : Expr} (h : e.value? σ = none) :
    Fails body (⟨.eval e, loc⟩ :: rest, σ) := by
  refine fails_of_stuck (fun c hc => ?_) (fun ending he => nomatch he)
  cases hc with
  | eval hy => simp [(yields_iff.1 hy).1] at h

theorem fails_assign {w : Width} {v : EntityId} {e : Expr} (h : e.value? σ = none) :
    Fails body (⟨.assign (.addr w v) e, loc⟩ :: rest, σ) := by
  refine fails_of_stuck (fun c hc => ?_) (fun ending he => nomatch he)
  cases hc with
  | assign hy => simp [(yields_iff.1 hy).1] at h

theorem fails_branch {test : Expr} {yes no : Label} (h : test.value? σ = none) :
    Fails body (⟨.branch test yes no, loc⟩ :: rest, σ) := by
  refine fails_of_stuck (fun c hc => ?_) (fun ending he => nomatch he)
  cases hc with
  | branch hv => simp [Expr.value?, hv] at h

theorem fails_ret {e : Expr} (h : e.value? σ = none) :
    Fails body (⟨.ret (some e), loc⟩ :: rest, σ) := by
  refine fails_of_stuck (fun c hc => nomatch hc) (fun ending he => ?_)
  cases he with
  | value hv => simp [Expr.value?, hv] at h

/-- A run that ends cannot be followed for ever. -/
theorem Finishes.acc {c : List Stmt × Store} {ending : Ending} (h : Finishes body c ending σ) :
    Acc (fun c' c => Step storeWorld body c c') c := by
  obtain ⟨rest, hr, he⟩ := h
  induction hr using Relation.ReflTransGen.head_induction_on with
  | refl => exact ⟨_, fun c' hc => (he.not_step hc).elim⟩
  | head hs _ ih => exact ⟨_, fun c' hc => Step.unique hs hc ▸ ih⟩

/-- A run that goes from one of some configurations to another for ever does not end. -/
theorem fails_of_progress {P : List Stmt × Store → Prop}
    (h : ∀ c, P c → Fails body c ∨ ∃ c', Relation.TransGen (Step storeWorld body) c c' ∧ P c')
    {c : List Stmt × Store} (hc : P c) : Fails body c := by
  intro ending σ hf
  have hacc := hf.acc.transGen
  induction hacc with
  | intro c _ ih =>
    rcases h c hc with hfail | ⟨c', hrun, hc'⟩
    · exact hfail ending σ hf
    · have hrest : Finishes body c' ending σ :=
        (Runs.finishes_iff hrun.to_reflTransGen).1 hf
      exact ih c' (Relation.transGen_swap.1 hrun) hc' hrest

/-! ### Labels -/

/-- Statements that do not place a label. -/
def Lacks (l : Label) (code : List Stmt) : Prop :=
  ∀ s ∈ code, s.placed? ≠ some l

@[simp] theorem lacks_nil {l : Label} : Lacks l [] := by
  simp [Lacks]

@[simp] theorem lacks_cons {l : Label} {s : Stmt} {code : List Stmt} :
    Lacks l (s :: code) ↔ s.placed? ≠ some l ∧ Lacks l code :=
  List.forall_mem_cons

@[simp] theorem lacks_append {l : Label} {a b : List Stmt} :
    Lacks l (a ++ b) ↔ Lacks l a ∧ Lacks l b :=
  List.forall_mem_append

/-- A label is not found where it is not placed. -/
theorem after?_append_of_lacks {l : Label} {pre : List Stmt} (h : Lacks l pre) :
    after? l (pre ++ rest) = after? l rest := by
  induction pre with
  | nil => rfl
  | cons s pre ih =>
    obtain ⟨hs, hpre⟩ := lacks_cons.1 h
    rw [List.cons_append, after?, if_neg hs]
    exact ih hpre

/-- A label is found at its first place. -/
theorem after?_append {l : Label} {pre : List Stmt} (h : Lacks l pre) :
    after? l (pre ++ ⟨.label l, loc⟩ :: rest) = some rest := by
  rw [after?_append_of_lacks h]
  exact if_pos rfl

end

end Backend386.Ir
