import Backend386.Proofs.Lowering.Meaning
import Backend386.Proofs.Source.Exec

/-!
# What code does for a statement

A piece of code stands for an execution if it goes where the execution ends, with a store that
agrees in all variables of the program, and fails where there is no execution.

* `Lower.Selects` — code that computes something, and goes on where the result says;
* `Lower.Targets`, `Lower.Lands` — where control goes from a piece of code, for each outcome;
* `Lower.Realizes` — a piece of code stands for an execution;
* `Lower.Realizes.choose`, `Lower.Realizes.repeats`, … — one rule for each way to build executions.
-/

namespace Backend386.Lower

open Source (Store Outcome Execution)
open Source.Execution
open Source.Store (Agree)

variable {α β : Type} {n : Nat} {body start start' next : List Ir.Stmt} {σ τ : Store}

/-! ## Computations -/

/-- A run reaches what a computation selects, with a store that is related to the one that the
computation leaves, or both fail. -/
inductive Arrives (R : Store → Store → Prop) (body : List Ir.Stmt) (c : List Ir.Stmt × Store)
    (next : α → List Ir.Stmt) : Option (α × Store) → Prop where
  | reaches {a : α} {σ τ : Store} (run : Ir.Runs body c (next a, σ)) (h : R σ τ) :
    Arrives R body c next (some (a, τ))
  | fails (h : Ir.Fails body c) : Arrives R body c next none

namespace Arrives

variable {R : Store → Store → Prop} {c c' : List Ir.Stmt × Store} {mid : α → List Ir.Stmt}
  {next : β → List Ir.Stmt}

/-- What follows a run. -/
theorem after {r : Option (β × Store)} (hrun : Ir.Runs body c c')
    (h : Arrives R body c' next r) : Arrives R body c next r := by
  cases h with
  | reaches run h => exact .reaches (hrun.trans run) h
  | fails h => exact .fails (hrun.fails h)

/-- A weaker relation between the stores. -/
theorem mono {R' : Store → Store → Prop} {r : Option (β × Store)} (h : Arrives R body c next r)
    (hR : ∀ {σ τ}, R σ τ → R' σ τ) : Arrives R' body c next r := by
  cases h with
  | reaches run h => exact .reaches run (hR h)
  | fails h => exact .fails h

/-- An execution goes on with the result of a first part. -/
theorem bind {r : Option (α × Store)} {g : α → Store → Option (β × Store)}
    (h : Arrives R body c mid r)
    (hg : ∀ a {σ τ}, R σ τ → Arrives R body (mid a, σ) next (g a τ)) :
    Arrives R body c next (r.bind fun p => g p.1 p.2) := by
  cases h with
  | reaches run h => exact (hg _ h).after run
  | fails h => exact .fails h

end Arrives

/-- A piece of code stands for a computation, and goes on where the result says. -/
def Selects (R : Store → Store → Prop) (body start : List Ir.Stmt) (next : α → List Ir.Stmt)
    (f : Store → Option (α × Store)) : Prop :=
  ∀ ⦃σ τ⦄, R σ τ → Arrives R body (start, σ) next (f τ)

namespace Selects

variable {R : Store → Store → Prop} {mid : α → List Ir.Stmt} {next : β → List Ir.Stmt}

/-- Nothing to compute. -/
theorem pure {next : α → List Ir.Stmt} (a : α) (h : next a = start) :
    Selects R body start next fun τ => some (a, τ) :=
  fun _ _ hR => .reaches (h ▸ .refl) hR

/-- A run that changes nothing leads to the code. -/
theorem of_run {f : Store → Option (β × Store)}
    (hrun : ∀ σ, Ir.Runs body (start, σ) (start', σ)) (h : Selects R body start' next f) :
    Selects R body start next f :=
  fun _ _ hR => (h hR).after (hrun _)

/-- A run that changes nothing follows the code. -/
theorem next_run {next' : β → List Ir.Stmt} {f : Store → Option (β × Store)}
    (hrun : ∀ b σ, Ir.Runs body (next b, σ) (next' b, σ)) (h : Selects R body start next f) :
    Selects R body start next' f := by
  intro σ τ hR
  have harrives := h hR
  generalize f τ = r at harrives
  cases harrives with
  | reaches run h => exact .reaches (run.trans (hrun _ _)) h
  | fails h => exact .fails h

theorem bind {f : Store → Option (α × Store)} {g : α → Store → Option (β × Store)}
    (hf : Selects R body start mid f) (hg : ∀ a, Selects R body (mid a) next (g a)) :
    Selects R body start next fun τ => (f τ).bind fun p => g p.1 p.2 :=
  fun _ _ hR => (hf hR).bind fun a _ _ h => hg a h

end Selects

/-! ## Statements -/

/-- Where control goes from a piece of code. -/
structure Targets where
  next : List Ir.Stmt
  breakTo : Option (List Ir.Stmt)
  continueTo : Option (List Ir.Stmt)

/-- A run goes where an outcome leads. A continue takes at least one step, so that no loop turns
without one. -/
inductive Lands (body : List Ir.Stmt) (t : Targets) (c : List Ir.Stmt × Store) (σ : Store) :
    Outcome → Prop where
  | normal (run : Ir.Runs body c (t.next, σ)) : Lands body t c σ .normal
  | broke {rest : List Ir.Stmt} (ht : t.breakTo = some rest) (run : Ir.Runs body c (rest, σ)) :
    Lands body t c σ .broke
  | continued {rest : List Ir.Stmt} (ht : t.continueTo = some rest)
    (run : Relation.TransGen (Ir.Step Ir.storeWorld body) c (rest, σ)) :
    Lands body t c σ .continued
  | returned {v : Option Ir.Value} (h : Ir.Finishes body c (.returned v) σ) :
    Lands body t c σ (.returned v)

/-- What follows a run. -/
theorem Lands.after {t : Targets} {c c' : List Ir.Stmt × Store} {o : Outcome}
    (hrun : Ir.Runs body c c') (h : Lands body t c' σ o) : Lands body t c σ o := by
  cases h with
  | normal run => exact .normal (hrun.trans run)
  | broke ht run => exact .broke ht (hrun.trans run)
  | continued ht run => exact .continued ht (.trans_right hrun run)
  | returned h => exact .returned ((Ir.Runs.finishes_iff hrun).2 h)

/-- A piece of code stands for an execution, where the first `n` variables count. -/
structure Realizes (n : Nat) (body start : List Ir.Stmt) (t : Targets) (m : Execution) :
    Prop where
  lands : ∀ {σ τ τ' : Store} {o : Outcome}, Agree n σ τ → m τ o τ' →
    ∃ σ', Agree n σ' τ' ∧ Lands body t (start, σ) σ' o
  fails : ∀ {σ τ : Store}, Agree n σ τ → (∀ o τ', ¬ m τ o τ') → Ir.Fails body (start, σ)

namespace Realizes

variable {t : Targets} {a b m : Execution}

/-- A run that changes nothing leads to the code. -/
theorem of_run (hrun : ∀ σ, Ir.Runs body (start, σ) (start', σ))
    (h : Realizes n body start' t m) : Realizes n body start t m where
  lands := fun hτ hm => by
    obtain ⟨σ', hσ', hl⟩ := h.lands hτ hm
    exact ⟨σ', hσ', hl.after (hrun _)⟩
  fails := fun hτ hm => (hrun _).fails (h.fails hτ hm)

/-- A run that changes nothing follows the code. -/
theorem next_run (hrun : ∀ σ, Ir.Runs body (next, σ) (t.next, σ))
    (h : Realizes n body start { t with next } m) : Realizes n body start t m where
  lands := fun hτ hm => by
    obtain ⟨σ', hσ', hl⟩ := h.lands hτ hm
    refine ⟨σ', hσ', ?_⟩
    cases hl with
    | normal run => exact .normal (run.trans (hrun σ'))
    | broke ht run => exact .broke ht run
    | continued ht run => exact .continued ht run
    | returned h => exact .returned h
  fails := h.fails

/-- Leaving a statement is realized by code that lands where the outcome says. -/
theorem exit {o : Outcome} (h : ∀ σ, Lands body t (start, σ) σ o) :
    Realizes n body start t (exit o) where
  lands := by
    rintro σ τ τ' o hτ ⟨rfl, rfl⟩
    exact ⟨σ, hτ, h σ⟩
  fails := fun _ hm => (hm _ _ ⟨rfl, rfl⟩).elim

theorem exit_normal : Realizes n body t.next t (Execution.exit .normal) :=
  .exit fun _ => .normal .refl

/-- A choice is realized by code that goes to the arm that is chosen. -/
theorem choose {next : α → List Ir.Stmt} {f : Store → Option (α × Store)} {arms : α → Execution}
    (hf : Selects (Agree n) body start next f) (ha : ∀ a, Realizes n body (next a) t (arms a)) :
    Realizes n body start t (choose f arms) where
  lands := by
    rintro σ τ τ' o hτ ⟨a, ρ, hfa, hm⟩
    have harrives := hf hτ
    rw [hfa] at harrives
    cases harrives with
    | reaches run h =>
      obtain ⟨σ', hσ', hl⟩ := (ha a).lands h hm
      exact ⟨σ', hσ', hl.after run⟩
  fails := by
    intro σ τ hτ hm
    have harrives := hf hτ
    generalize hfa : f τ = r at harrives
    cases harrives with
    | reaches run h => exact run.fails ((ha _).fails h fun o τ' hm' => hm o τ' ⟨_, _, hfa, hm'⟩)
    | fails h => exact h

theorem perform {f : Store → Option (Unit × Store)}
    (hf : Selects (Agree n) body start (fun _ => t.next) f) :
    Realizes n body start t (perform f) :=
  choose hf fun _ => exit_normal

/-- The code of a statement and that of the next. -/
theorem seq {mid : List Ir.Stmt} (ha : Realizes n body start { t with next := mid } a)
    (hb : Realizes n body mid t b) : Realizes n body start t (Then a b) where
  lands := by
    intro σ τ τ' o hτ hm
    cases hm with
    -- the first ends normally and the second follows, or the first leaves
    | next hma hmb =>
      obtain ⟨σ₁, hσ₁, hl₁⟩ := ha.lands hτ hma
      obtain ⟨σ₂, hσ₂, hl₂⟩ := hb.lands hσ₁ hmb
      cases hl₁ with
      | normal run => exact ⟨σ₂, hσ₂, hl₂.after run⟩
    | left hma ho =>
      obtain ⟨σ', hσ', hl⟩ := ha.lands hτ hma
      refine ⟨σ', hσ', ?_⟩
      cases hl with
      | normal run => exact (ho rfl).elim
      | broke ht run => exact .broke ht run
      | continued ht run => exact .continued ht run
      | returned h => exact .returned h
  fails := by
    intro σ τ hτ hm
    by_cases hex : ∃ o τ', a τ o τ'
    · -- the first can only end normally here, as any other outcome is one of the whole
      obtain ⟨o, τ', ho⟩ := hex
      by_cases hnormal : o = .normal
      · subst hnormal
        obtain ⟨σ₁, hσ₁, hl₁⟩ := ha.lands hτ ho
        cases hl₁ with
        | normal run => exact run.fails (hb.fails hσ₁ fun o' ρ hb' => hm o' ρ (.next ho hb'))
      · exact (hm o τ' (.left ho hnormal)).elim
    · exact ha.fails hτ fun o τ' h => hex ⟨o, τ', h⟩

/-- A break goes where the normal end does. -/
theorem breakable (h : Realizes n body start { t with breakTo := some t.next } m) :
    Realizes n body start t (Breakable m) where
  lands := by
    -- a break lands behind the statement, anything else is passed on
    intro σ τ τ' o hτ hm
    cases hm with
    | broke hm =>
      obtain ⟨σ', hσ', hl⟩ := h.lands hτ hm
      refine ⟨σ', hσ', ?_⟩
      cases hl with
      | broke ht run =>
        obtain rfl := Option.some.inj ht
        exact .normal run
    | other hm ho =>
      obtain ⟨σ', hσ', hl⟩ := h.lands hτ hm
      refine ⟨σ', hσ', ?_⟩
      cases hl with
      | normal run => exact .normal run
      | broke ht run => exact (ho rfl).elim
      | continued ht run => exact .continued ht run
      | returned h => exact .returned h
  fails := by
    intro σ τ hτ hm
    refine h.fails hτ fun o τ' hm' => ?_
    by_cases ho : o = .broke
    · subst ho
      exact hm _ _ (.broke hm')
    · exact hm _ _ (.other hm' ho)

section

variable {latch : List Ir.Stmt} {again : Store → Option (Bool × Store)}

/-- The body of a loop gets to what decides whether it is run again. -/
theorem reaches_latch (h : Realizes n body start ⟨next, some t.next, some latch⟩ m)
    (hnext : ∀ σ, Relation.TransGen (Ir.Step Ir.storeWorld body) (next, σ) (latch, σ))
    {τ' : Store} {o : Outcome} (hτ : Agree n σ τ) (hm : m τ o τ') (ho : o.isLatch) :
    ∃ σ', Agree n σ' τ' ∧
      Relation.TransGen (Ir.Step Ir.storeWorld body) (start, σ) (latch, σ') := by
  obtain ⟨σ', hσ', hl⟩ := h.lands hτ hm
  refine ⟨σ', hσ', ?_⟩
  cases hl with
  | normal run => exact .trans_right run (hnext σ')
  | continued ht run =>
    obtain rfl := Option.some.inj ht
    exact run
  | broke => simp [Outcome.isLatch] at ho
  | returned => simp [Outcome.isLatch] at ho

/-- The code of a loop: the body, and what decides whether it is run again. -/
theorem repeats (hbody : Realizes n body start ⟨next, some t.next, some latch⟩ m)
    (hnext : ∀ σ, Relation.TransGen (Ir.Step Ir.storeWorld body) (next, σ) (latch, σ))
    (hagain : Selects (Agree n) body latch (fun b => if b then start else t.next) again) :
    Realizes n body start t (Repeat m again) where
  lands := by
    intro σ τ τ' o hτ hm
    induction hm generalizing σ with
    | last hb ho ht =>
      obtain ⟨σ₁, hσ₁, hrun⟩ := hbody.reaches_latch hnext hτ hb ho
      have harrives := hagain hσ₁
      rw [ht] at harrives
      cases harrives with
      | reaches run h => exact ⟨_, h, .normal (hrun.to_reflTransGen.trans run)⟩
    | again hb ho ht hr ih =>
      obtain ⟨σ₁, hσ₁, hrun⟩ := hbody.reaches_latch hnext hτ hb ho
      have harrives := hagain hσ₁
      rw [ht] at harrives
      cases harrives with
      | reaches run h =>
        obtain ⟨σ₂, hσ₂, hl⟩ := ih h
        exact ⟨σ₂, hσ₂, hl.after (hrun.to_reflTransGen.trans run)⟩
    | broke hb =>
      obtain ⟨σ₁, hσ₁, hl⟩ := hbody.lands hτ hb
      cases hl with
      | broke ht run =>
        obtain rfl := Option.some.inj ht
        exact ⟨σ₁, hσ₁, .normal run⟩
    | returned hb =>
      obtain ⟨σ₁, hσ₁, hl⟩ := hbody.lands hτ hb
      cases hl with
      | returned h => exact ⟨σ₁, hσ₁, .returned h⟩
  fails := by
    intro σ τ hτ hm
    -- a loop without an execution gets back to its start again and again
    let P (c : List Ir.Stmt × Store) : Prop := ∃ σ τ, c = (start, σ) ∧ Agree n σ τ ∧
      ∀ o τ', ¬ Repeat m again τ o τ'
    refine Ir.fails_of_progress (P := P) ?_ ⟨σ, τ, rfl, hτ, hm⟩
    rintro _ ⟨σ, τ, rfl, hτ, hm⟩
    by_cases hex : ∃ o τ', m τ o τ'
    · obtain ⟨o, τ₁, hb⟩ := hex
      by_cases ho : o.isLatch
      · obtain ⟨σ₁, hσ₁, hrun⟩ := hbody.reaches_latch hnext hτ hb ho
        have harrives := hagain hσ₁
        generalize ht : again τ₁ = r at harrives
        cases harrives with
        | @reaches b σ₂ τ₂ run h =>
          cases b with
          | false => exact (hm _ _ (.last hb ho ht)).elim
          | true =>
            refine .inr ⟨_, .trans_left hrun run, σ₂, τ₂, rfl, h, fun o' ω hr => ?_⟩
            exact hm o' ω (.again hb ho ht hr)
        | fails h => exact .inl (Ir.Runs.fails hrun.to_reflTransGen h)
      · cases o with
        | normal => exact (ho rfl).elim
        | continued => exact (ho rfl).elim
        | broke => exact (hm _ _ (.broke hb)).elim
        | returned v => exact (hm _ _ (.returned hb)).elim
    · exact .inl (hbody.fails hτ fun o τ' h => hex ⟨o, τ', h⟩)

/-- The code of a loop that tests first. -/
theorem loop {test : Store → Option (Bool × Store)} {step : Store → Option (Unit × Store)}
    {bodyStart : List Ir.Stmt}
    (htest : Selects (Agree n) body start (fun b => if b then bodyStart else t.next) test)
    (hbody : Realizes n body bodyStart ⟨next, some t.next, some latch⟩ m)
    (hnext : ∀ σ, Relation.TransGen (Ir.Step Ir.storeWorld body) (next, σ) (latch, σ))
    (hstep : Selects (Agree n) body latch (fun _ => start) step) :
    Realizes n body start t (loop test step m) := by
  refine .choose htest fun b => ?_
  cases b with
  | false => exact .exit_normal
  | true => exact .repeats hbody hnext (hstep.bind fun _ => htest)

end

end Realizes

end Backend386.Lower
