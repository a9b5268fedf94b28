import Backend386.Lowering.Module
import Backend386.Proofs.Lowering.Switch

/-!
# Lowering of functions

A function of structured statements is lowered to code that ends as the executions of its body do,
with the same store in all variables of the program.

* `Lower.lowers_stmt`, `Lower.lowers_block` — every structured statement is lowered correctly;
* `Lower.function_correct` — so is every function of structured statements.
-/

namespace Backend386

open Source (Context Store Outcome Execution Typed)
open Source.Execution
open Source.Store (Agree)

/-- The outcome of the body of a function that ends so. -/
def Ir.Ending.outcome : Ir.Ending → Outcome
  | normal => .normal
  | returned v => .returned v

namespace Lower

variable {Γ : Context}

/-- Each case of a switch has an arm. -/
theorem length_execCases (cases : List Source.Case) :
    (Source.execCases Γ cases).length = cases.length := by
  induction cases with
  | nil => rfl
  | cons c cs ih =>
    obtain ⟨values, body⟩ := c
    rw [Source.execCases, List.length_cons, List.length_cons, ih]

mutual

/-- A structured statement is lowered correctly, wherever break and continue lead. -/
theorem lowers_stmt : (stmt : Source.Stmt) → stmt.Structured Γ → (exits : Exits) →
    Lowers Γ exits (stmt.lower exits) (stmt.exec Γ)
  | .expr _ _, h, _ => lowers_expr h
  | .block _ body, h, exits => lowers_block body h exits
  | .ifThen _ _ yes, h, exits => lowers_ifThen h.1 (lowers_stmt yes h.2 exits)
  | .ifElse _ _ yes no, h, exits =>
    lowers_ifElse h.1 (lowers_stmt yes h.2.1 exits) (lowers_stmt no h.2.2 exits)
  | .whileLoop _ _ body, h, _ => lowers_whileLoop h.1 (lowers_stmt body h.2)
  | .doLoop _ body _, h, _ => lowers_doLoop (lowers_stmt body h.1) h.2
  | .forLoop _ _ _ _ body, h, _ =>
    lowers_forLoop h.1 h.2.1 h.2.2.1 (lowers_stmt body h.2.2.2)
  | .switch _ _ cases, h, _ => by
    obtain ⟨hint, ⟨type, hvalue, hvalues⟩, hcases⟩ := h
    exact lowers_switch hint hvalue hvalues (length_execCases cases) (lowers_cases cases hcases)
  | .breakOut _, _, _ => lowers_break
  | .continueOn _, _, _ => lowers_continue
  | .goto .., h, _ => h.elim
  | .label .., h, _ => h.elim
  | .ret _ none, _, _ => lowers_return
  | .ret _ (some _), h, _ => lowers_returnValue h

/-- A block is lowered correctly. -/
theorem lowers_block : (block : Source.Block) → block.Structured Γ → (exits : Exits) →
    Lowers Γ exits (block.lower exits) (block.exec Γ)
  | .mk _ stmts, h, exits => (lowers_entries h.1).seq (lowers_stmts stmts h.2 exits)

theorem lowers_stmts : (stmts : List Source.Stmt) → Source.StructuredStmts Γ stmts →
    (exits : Exits) → Lowers Γ exits (Source.lowerStmts exits stmts) (Source.execStmts Γ stmts)
  | [], _, _ => lowers_nothing
  | stmt :: stmts, h, exits =>
    (lowers_stmt stmt h.1 exits).seq (lowers_stmts stmts h.2 exits)

/-- The cases are lowered one after another, each behind its label. -/
theorem lowers_cases : (cases : List Source.Case) → Source.StructuredCases Γ cases →
    (exits : Exits) → (labels : List Ir.Label) → labels.length = cases.length →
      LowersArms Γ exits (Source.lowerCases exits cases labels) labels (Source.execCases Γ cases)
  | [], _, _, _, hlength => lowersArms_nil hlength
  | .mk _ body :: cs, h, exits, _ :: ls, hlength =>
    lowersArms_cons (lowers_block body h.1 exits)
      (lowers_cases cs h.2 exits ls (Nat.succ.inj hlength))

end

/-! ## Functions -/

/-- Code with nothing around it ends as the executions do for which it stands. -/
theorem Realizes.finishes_iff {n : Nat} {body : List Ir.Stmt} {m : Execution}
    (h : Realizes n body body ⟨[], none, none⟩ m) (σ u : Store) (ending : Ir.Ending) :
    (∃ τ, m σ ending.outcome τ ∧ Agree n τ u) ↔
      ∃ σ', Ir.Finishes body (body, σ) ending σ' ∧ Agree n σ' u := by
  -- outside of any loop there is nothing to break or to continue
  have hlands {o : Outcome} {τ : Store} (hm : m σ o τ) :
      ∃ ending σ', o = ending.outcome ∧ Ir.Finishes body (body, σ) ending σ' ∧ Agree n σ' τ := by
    obtain ⟨σ', hσ', hl⟩ := h.lands (Agree.refl n σ) hm
    cases hl with
    | normal run => exact ⟨.normal, σ', rfl, ⟨[], run, .normal⟩, hσ'⟩
    | broke ht => simp at ht
    | continued ht => simp at ht
    | @returned v hf => exact ⟨.returned v, σ', rfl, hf, hσ'⟩
  constructor
  · rintro ⟨τ, hm, hτ⟩
    obtain ⟨ending', σ', ho, hf, hσ'⟩ := hlands hm
    obtain rfl : ending = ending' := by
      cases ending <;> cases ending' <;> simp_all [Ir.Ending.outcome]
    exact ⟨σ', hf, hσ'.trans hτ⟩
  -- the body of the source ends as well, since otherwise the code would not
  · rintro ⟨σ', hf, hσ'⟩
    by_cases hex : ∃ o τ, m σ o τ
    · obtain ⟨o, τ, hm⟩ := hex
      obtain ⟨ending', σ'', rfl, hf', hσ''⟩ := hlands hm
      obtain ⟨rfl, rfl⟩ := hf.unique hf'
      exact ⟨τ, hm, hσ''.symm.trans hσ'⟩
    · exact (h.fails (Agree.refl n σ) (fun o τ hm => hex ⟨o, τ, hm⟩) ending σ' hf).elim

/-- Lowering a function of structured statements succeeds. Unless a problem is reported, the code
ends in some way from a store exactly if an execution of the body does, with the same values in
all variables of the program. -/
theorem function_correct {s : LowerState} {id : EntityId} {e : Entity} {params : List EntityId}
    {block : Source.Block} (hprofile : s.types.profile ∈ WidthProfile.all)
    (he : s.entities.entries[id.index]? = some e)
    (hkind : e.kind = .definedFunction params block)
    (hblock : block.Structured ⟨s.types, s.entities⟩) :
    ∃ f s', function id s = .ok (f, s') ∧ (s'.diagnostics = s.diagnostics →
      ∀ σ u ending,
        (∃ τ, block.exec ⟨s.types, s.entities⟩ σ ending.outcome τ ∧ Agree s.entities.size τ u) ↔
          ∃ σ', Ir.Finishes f.body.toList (f.body.toList, σ) ending σ' ∧
            Agree s.entities.size σ' u) := by
  let Γ : Context := ⟨s.types, s.entities⟩
  let f₀ : Ir.Function := { entity := id, params, scope := block.scope }
  let s₀ : LowerState := { s with function := f₀, named := [] }
  have hs₀ : Ready Γ s₀ := ⟨hprofile, rfl, List.prefix_rfl, .nil⟩
  obtain ⟨s', code, hm, hr⟩ := lowers_block block hblock {} hs₀
  have hbody : s'.function.body.toList = code := hm.body
  refine ⟨s'.function, s', ?_, fun hq σ u ending => ?_⟩
  · have hentity : entity id s = .ok (e, s) := by
      rw [entity, bind_ok (x := s) rfl]
      exact lift_ok (by rw [EntityTable.get, he])
    have hstart : start f₀ s = .ok ((), s₀) := rfl
    -- no label of the program was met
    have hreport : reportUnplaced s' = .ok ((), s') := by
      have hnamed : s'.named = [] := hm.named
      rw [reportUnplaced, bind_ok (x := s') rfl, hnamed]
      rfl
    rw [function, bind_ok hentity, hkind]
    dsimp only
    rw [bind_ok hstart, bind_ok hm.run, bind_ok hreport]
    rfl
  · have hrealizes := hr hq (List.append_nil _).symm ⟨.none, .none⟩
    rw [List.append_nil, ← hbody] at hrealizes
    exact hrealizes.finishes_iff σ u ending

/-- The statement `switch (x) { case 1: break; case 2: default: x--; continue; }`. -/
def countdownSwitch : Source.Stmt :=
  .switch none (.var .int ⟨0⟩) [
    .mk [.int .int 1] (.mk [] [.breakOut none]),
    .mk [.int .int 2] (.mk [] []),
    .mk [] (.mk [] [.expr none (.postStep .int .dec (.var .int ⟨0⟩)), .continueOn none])]

/-- The statement `while (x) { countdownSwitch; return x; }` in the scope of `x`. -/
def countdown : Source.Block :=
  .mk [⟨0⟩] [.whileLoop none (.var .int ⟨0⟩)
    (.block none (.mk [] [countdownSwitch, .ret none (some (.var .int ⟨0⟩))]))]

/-- The variable of the function, and the function. -/
def countdownEntities : EntityTable where
  entries := [
    { name := "x", ref := .integer .int true, kind := .definedVariable (some (.int .int 2)),
      type := .settled ⟨5⟩ },
    { name := "countdown", ref := .function .void [] false,
      kind := .definedFunction [] countdown }]

/-- The function returns 1, whatever its variable holds before. -/
theorem function_correct_countdown :
    let s : LowerState := { types := .initial .ilp32, entities := countdownEntities }
    ∃ f s', function ⟨1⟩ s = .ok (f, s') ∧ s'.diagnostics = [] ∧
      ∀ σ, ∃ σ', Ir.Finishes f.body.toList (f.body.toList, σ) (.returned (some ⟨.w32, 1⟩)) σ' ∧
        σ' ⟨0⟩ = 1 := by
  intro s
  let Γ : Context := ⟨s.types, s.entities⟩
  have hint : Γ.type? (.integer .int true) = some ⟨.w32, true⟩ := by decide
  have hx : Γ.Declares .int ⟨0⟩ ⟨.w32, true⟩ := ⟨hint, by decide⟩
  have htyped : Γ.IsTyped (.var .int ⟨0⟩) := ⟨_, .var hx⟩
  have hvalue (k : Int64) : Γ.Comparable ⟨.w32, true⟩ (.int .int k) :=
    ⟨_, .int hint, rfl, rfl⟩
  have hstructured : countdown.Structured Γ := by
    have hknown : (Γ.type? (.integer .int true)).isSome := by simp [hint]
    refine ⟨?_, ⟨htyped, by simp, ⟨hknown, ⟨_, .var hx, ?_⟩, ?_⟩, htyped, trivial⟩, trivial⟩
    · simp only [List.mem_singleton, forall_eq]
      exact ⟨by decide, fun init hi => ⟨_, _, hx.var, Option.some.inj hi ▸ .int hint, rfl⟩⟩
    · simp [Source.Case.values, hvalue]
    · have hstep : Γ.IsTyped (.postStep .int .dec (.var .int ⟨0⟩)) := ⟨_, .postStep hint hx rfl⟩
      have hnone {P : EntityId → Prop} : ∀ id ∈ [], P id := List.forall_mem_nil P
      exact ⟨⟨hnone, trivial, trivial⟩, ⟨hnone, trivial⟩, ⟨hnone, hstep, trivial, trivial⟩, trivial⟩
  obtain ⟨e, he, hkind⟩ : ∃ e, s.entities.entries[1]? = some e ∧
    e.kind = .definedFunction [] countdown := ⟨_, rfl, rfl⟩
  obtain ⟨f, s', hlower, hruns⟩ := function_correct (by decide) he hkind hstructured
  have hquiet : s'.diagnostics = [] := by
    have hcount : ((function ⟨1⟩ s).toOption.map (·.2.diagnostics.length)) = some 0 := by
      decide +kernel
    rw [hlower] at hcount
    exact List.length_eq_zero_iff.1 (Option.some.inj hcount)
  refine ⟨f, s', hlower, hquiet, fun σ => ?_⟩
  let τ₀ : Store := σ.write ⟨0⟩ ⟨.w32, 2⟩
  let τ₁ : Store := τ₀.write ⟨0⟩ ⟨.w32, 1⟩
  have hread₀ : (Source.Expr.var .int ⟨0⟩).eval Γ τ₀ = some (⟨.w32, 2⟩, τ₀) :=
    congrArg (fun y => some (y, τ₀)) (σ.read_write ⟨0⟩ ⟨.w32, 2⟩)
  have hread₁ : (Source.Expr.var .int ⟨0⟩).eval Γ τ₁ = some (⟨.w32, 1⟩, τ₁) :=
    congrArg (fun y => some (y, τ₁)) (τ₀.read_write ⟨0⟩ ⟨.w32, 1⟩)
  have hdec : (Source.Expr.postStep .int .dec (.var .int ⟨0⟩)).effect Γ τ₀ = some ((), τ₁) :=
    congrArg (fun y => some ((), τ₀.write ⟨0⟩ (Source.StepOp.dec.value y)))
      (σ.read_write ⟨0⟩ ⟨.w32, 2⟩)
  -- the first turn falls through to the last arm, and continues the loop from there
  have hswitch₀ : countdownSwitch.exec Γ τ₀ .continued τ₁ := by
    refine .other ⟨1, τ₀, ?_, .next (.next ⟨rfl, rfl⟩ ⟨rfl, rfl⟩) (.left (.next ⟨rfl, rfl⟩
      (.next ⟨(), τ₁, hdec, rfl, rfl⟩ (.left ⟨rfl, rfl⟩ (by simp)))) (by simp))⟩ (by simp)
    rw [Source.Expr.select, hread₀]
    rfl
  -- the second turn breaks out of the switch
  have hswitch₁ : countdownSwitch.exec Γ τ₁ .normal τ₁ := by
    refine .broke ⟨0, τ₁, ?_, .left (.next ⟨rfl, rfl⟩ (.left ⟨rfl, rfl⟩ (by simp))) (by simp)⟩
    rw [Source.Expr.select, hread₁]
    rfl
  have htest₀ : (Source.Expr.var .int ⟨0⟩).test Γ τ₀ = some (true, τ₀) := by
    rw [Source.Expr.test, hread₀]
    rfl
  have htest₁ : (Source.Expr.var .int ⟨0⟩).test Γ τ₁ = some (true, τ₁) := by
    rw [Source.Expr.test, hread₁]
    rfl
  have hexec : countdown.exec Γ σ (.returned (some ⟨.w32, 1⟩)) τ₁ := by
    refine .next (.next ⟨(), τ₀, rfl, rfl, rfl⟩ ⟨rfl, rfl⟩) (.left ⟨true, τ₀, htest₀, ?_⟩ (by simp))
    refine .again (.next ⟨rfl, rfl⟩ (.left hswitch₀ (by simp))) rfl htest₁ (.returned ?_)
    exact .next ⟨rfl, rfl⟩ (.next hswitch₁ (.left ⟨_, τ₁, hread₁, rfl, rfl⟩ (by simp)))
  have hends := (hruns hquiet σ τ₁ (.returned (some ⟨.w32, 1⟩))).1 ⟨τ₁, hexec, Agree.refl _ _⟩
  obtain ⟨σ', hf, hσ'⟩ := hends
  exact ⟨σ', hf, (hσ' ⟨0⟩ (by decide)).trans rfl⟩

end Lower

end Backend386
