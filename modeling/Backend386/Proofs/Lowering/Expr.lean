import Backend386.Proofs.Lowering.Branches

/-!
# Lowering of expressions keeps their meaning

Every typed expression is lowered, for its effects or for its value. Running the statements that
were made for it and then evaluating what is left of it gives the value of the expression and the
store that it leaves, in all variables that were there before.

* `Lower.correct_of_typed` — by induction on the expression, with constants followed to any depth
  that is large enough;
* `Source.Expr.lower_correct` — the statement about runs.
-/

namespace Backend386

open Source (Context Store Evaluation Note Typed)
open Source.Store (Agree)

namespace Lower

/-- How constants are lowered when they are followed to a depth. -/
def inliner : Nat → Entity → Source.Expr → Lower Ir.Expr
  | 0, c, _ => throw (.endlessConstant c.name)
  | depth + 1, _, value => do needed value.location (← value.lowerWithin depth .value)

/-- How constants are evaluated when they are followed to a depth. -/
def evaluator (Γ : Context) : Nat → Source.Expr → Evaluation
  | 0, _, _ => none
  | depth + 1, value, σ => value.evalWithin Γ depth σ

theorem lowerWithin_eq (depth : Nat) (d : Demand) (e : Source.Expr) :
    e.lowerWithin depth d = e.lowerUsing (inliner depth) d := by
  cases depth <;> rfl

theorem evalWithin_eq (Γ : Context) (depth : Nat) (e : Source.Expr) :
    e.evalWithin Γ depth = e.evalUsing Γ (evaluator Γ depth) := by
  cases depth <;> rfl

variable {Γ : Context} {k depth : Nat} {e : Source.Expr} {type : IntType}

/-- A typed expression is lowered correctly wherever its constants are followed far enough. -/
theorem correctExpr_of_typed (h : Typed Γ k e type) :
    ∀ {depth}, k ≤ depth → CorrectExpr Γ k (inliner depth) (evaluator Γ k) e type := by
  -- by induction on how the expression is typed: each rule is one lemma, with its premises as they
  -- are
  induction h with
  | int h => exact fun _ => correct_int h
  | var h => exact fun _ => correct_var h
  -- the value of a constant is lowered with one level of constants less
  | @constant k n c value type type' h hc hv hw ih =>
    intro depth hk
    obtain ⟨depth, rfl⟩ : ∃ j, depth = j + 1 := ⟨depth - 1, by omega⟩
    refine correct_constant (fun d => value.lowerWithin depth d) h hc (fun _ => rfl) ?_
    have hvalue := (ih (Nat.le_of_succ_le_succ hk)).of_width hw
    have heval : evaluator Γ (k + 1) value = value.evalUsing Γ (evaluator Γ k) :=
      evalWithin_eq Γ k value
    simp only [heval, lowerWithin_eq]
    exact hvalue
  | @unary k n op e type operand h hop he hw ih =>
    intro depth hk
    by_cases hplus : op = .plus
    · subst hplus
      exact correct_plus h ((ih hk).of_width hw)
    · exact correct_unary h hplus (ih hk)
  | not h he ih => exact fun hk => correct_unary h (by simp) (ih hk)
  | arithmetic h hop hl hr hlw hrw hd ihl ihr =>
    exact fun hk => correct_binary h hl.note hr.note (.inr hlw) (ihl hk)
      ((ihr hk).of_width (hrw.trans hlw.symm)) hd
  | comparison h hop hl hr hw hd ihl ihr =>
    exact fun hk => correct_binary h hl.note hr.note (.inl hop) (ihl hk) ((ihr hk).of_width hw) hd
  | logical h hl hr ihl ihr => exact fun hk => correct_logical h (ihl hk) (ihr hk)
  | assign h hv hr hw hrw ih =>
    exact fun hk => (correct_assign h hv ((ih hk).of_width hrw)).of_width hw
  | opAssign h hv hr hw hrw ih =>
    exact fun hk => (correct_opAssign h hv ((ih hk).of_width hrw)).of_width hw
  | preStep h hv hw => exact fun _ => (correct_preStep h hv).of_width hw
  | postStep h hv hw => exact fun _ => (correct_postStep h hv).of_width hw
  | cond h ht hy hn hyw hnw iht ihy ihn =>
    exact fun hk => correct_cond h (iht hk) ((ihy hk).of_width hyw) ((ihn hk).of_width hnw)
  | cast h he ih => exact fun hk => correct_cast h he.note (ih hk)

/-- A typed expression is lowered correctly. -/
theorem correct_of_typed (h : Typed Γ Γ.entities.size e type) :
    Correct Γ (e.mentions Γ Γ.entities.size) (e.writes Γ Γ.entities.size) type (e.eval Γ)
      (fun d => e.lower d) := by
  intro d s hs
  have hcorrect := correctExpr_of_typed h hs.size_le d s hs
  rw [← evalWithin_eq] at hcorrect
  obtain ⟨result, s', code, hm, hi⟩ := hcorrect
  refine ⟨result, s', code, ?_, hi⟩
  refine { hm with run := ?_ }
  calc
    e.lower d s = e.lowerWithin s.entities.size d s := rfl
    _ = e.lowerUsing (inliner s.entities.size) d s := by rw [lowerWithin_eq]
    _ = .ok (result, s') := hm.run

end Lower

open Lower

/-- Lowering a typed expression for its effects or for its value succeeds. Whatever the store, the
statements that were made run to their end and what is left has the value of the expression, with
the store that its evaluation leaves; where the evaluation fails, the statements do not run to
their end or what is left has no value. -/
theorem Source.Expr.lower_correct {s : LowerState} {e : Source.Expr} {type : IntType} (d : Demand)
    (hprofile : s.types.profile ∈ WidthProfile.all)
    (hplaced : Ir.PlacedWithin 0 s.labels.next s.function.body.toList)
    (he : Typed ⟨s.types, s.entities⟩ s.entities.size e type) :
    ∃ residual s' code, e.lower d s = .ok (residual, s') ∧
      s'.function.body.toList = s.function.body.toList ++ code ∧
      (d = .value → residual.isSome) ∧
      ∀ σ,
        (∀ x τ, e.eval ⟨s.types, s.entities⟩ σ = some (x, τ) →
          ∃ σ', Ir.Runs s'.function.body.toList (code, σ) ([], σ') ∧
            Agree s.entities.size σ' τ ∧ ∀ r ∈ residual, r.value? σ' = some x) ∧
        (e.eval ⟨s.types, s.entities⟩ σ = none →
          ∀ σ', Ir.Runs s'.function.body.toList (code, σ) ([], σ') →
            ∃ r ∈ residual, r.value? σ' = none) := by
  -- the body is what was there and the code, and nothing stands behind the code
  have hs : Ready ⟨s.types, s.entities⟩ s := ⟨hprofile, rfl, List.prefix_rfl, hplaced⟩
  obtain ⟨residual, s', code, hm, hi, hv⟩ := correct_of_typed he d s hs
  refine ⟨residual, s', code, hm.run, hm.body, hv, fun σ => ?_⟩
  have hd := hi.delivers (List.append_nil _).symm (Agree.refl s.entities.size σ)
  rw [List.append_nil] at hd
  constructor
  · intro x τ hx
    rw [hx] at hd
    cases hd with
    | value run _ agree value => exact ⟨_, run, agree, value⟩
  -- a run to the end and one that fails exclude each other
  · intro hnone σ' hrun
    rw [hnone] at hd
    have hfinish : Ir.Finishes s'.function.body.toList (code, σ) .normal σ' := ⟨_, hrun, .normal⟩
    cases hd with
    | undefined run _ left value =>
      obtain ⟨-, rfl⟩ := hfinish.unique ⟨_, run, .normal⟩
      exact ⟨_, left, value⟩
    | fails h => exact (h _ _ hfinish).elim

/-- An annotation with the type of signed integers. -/
def Source.Note.int : Note where
  type := .integer .int true

/-- Two variables `x` and `y`, and the constant `limit`, which is 3. -/
def counterEntities : EntityTable where
  entries := [
    { name := "x", ref := .integer .int true, kind := .definedVariable none,
      type := .settled ⟨5⟩ },
    { name := "y", ref := .integer .int true, kind := .definedVariable none,
      type := .settled ⟨5⟩ },
    { name := "limit", ref := .integer .int true, kind := .constant (.int .int 3),
      type := .settled ⟨5⟩ }]

/-- The expression `y += (x++ < limit && y) ? -x : 7`. -/
def boundedUpdate : Source.Expr :=
  .opAssign .int .add (.var .int ⟨1⟩) (.cond .int
    (.logical .int .and (.binary .int .lt (.postStep .int .inc (.var .int ⟨0⟩)) (.var .int ⟨2⟩))
      (.var .int ⟨1⟩))
    (.unary .int .minus (.var .int ⟨0⟩)) (.int .int 7))

/-- The expression is run with 2 in `x` and 5 in `y`. -/
theorem Source.Expr.lower_correct_boundedUpdate :
    let s : LowerState := { types := .initial .ilp32, entities := counterEntities }
    ∃ residual s' σ', boundedUpdate.lower .value s = .ok (some residual, s') ∧
      Ir.Runs s'.function.body.toList
        (s'.function.body.toList, fun v => if v.index = 0 then 2 else 5) ([], σ') ∧
      σ' ⟨0⟩ = 3 ∧ σ' ⟨1⟩ = 2 ∧ residual.value? σ' = some ⟨.w32, 2⟩ := by
  intro s
  let Γ : Context := ⟨s.types, s.entities⟩
  have hint : Γ.type? (.integer .int true) = some ⟨.w32, true⟩ := by decide
  have hx : Γ.Declares .int ⟨0⟩ ⟨.w32, true⟩ := ⟨hint, by decide⟩
  have hy : Γ.Declares .int ⟨1⟩ ⟨.w32, true⟩ := ⟨hint, by decide⟩
  have hlimit : Typed Γ 3 (.var .int ⟨2⟩) ⟨.w32, true⟩ := .constant hint rfl (.int hint) rfl
  -- the limit is a literal, so that the step cannot disturb it
  have hmentions : (Source.Expr.var .int ⟨2⟩).mentions Γ 3 = [] := by decide
  have hless : Typed Γ 3 (.binary .int .lt (.postStep .int .inc (.var .int ⟨0⟩)) (.var .int ⟨2⟩))
      ⟨.w32, true⟩ := by
    refine .comparison hint rfl (.postStep hint hx rfl) hlimit rfl ?_
    rw [Source.Undisturbed, hmentions]
    exact List.disjoint_nil_right _
  have htyped : Typed Γ s.entities.size boundedUpdate ⟨.w32, true⟩ :=
    .opAssign hint hy (.cond hint (.logical hint hless (.var hy))
      (.unary hint (by decide) (.var hx) rfl) (.int hint) rfl rfl) rfl rfl
  obtain ⟨residual, s', code, hlower, hbody, hsome, hruns⟩ :=
    Source.Expr.lower_correct .value (by decide) .nil htyped
  obtain ⟨r, rfl⟩ := Option.isSome_iff_exists.1 (hsome rfl)
  -- what the source computes is decided, the rest follows from the theorem
  have hvalue : ((boundedUpdate.eval Γ fun v => if v.index = 0 then 2 else 5).map fun p =>
      (p.1, p.2 ⟨0⟩, p.2 ⟨1⟩)) = some (⟨.w32, 2⟩, 3, 2) := by decide
  obtain ⟨⟨x, τ⟩, heval, heq⟩ := Option.map_eq_some_iff.1 hvalue
  obtain ⟨rfl, hτx, hτy⟩ : x = ⟨.w32, 2⟩ ∧ τ ⟨0⟩ = 3 ∧ τ ⟨1⟩ = 2 := by simpa using heq
  obtain ⟨σ', hrun, hagree, hr⟩ := (hruns _).1 _ _ heval
  obtain rfl : s'.function.body.toList = code := hbody
  exact ⟨r, s', σ', hlower, hrun, (hagree ⟨0⟩ (by decide)).trans hτx,
    (hagree ⟨1⟩ (by decide)).trans hτy, hr r rfl⟩

end Backend386
