import Backend386.Lowering.Module
import Backend386.Proofs.Lowering.Runs

/-!
# Runs over a unit

Between functions, the lowering starts on another function, and gives static variables their
numbers. Otherwise a unit is lowered by the steps of a walk.

* `Lower.UnitStep` — the steps between functions too;
* `Lower.UnitStepwise` — computations that change the state in these ways;
* `Lower.function_eq_body` — a function is lowered by lowering its body;
* `Lower.FunctionRuns` — the functions of a unit are lowered one after another.
-/

namespace Backend386

namespace Lower

open Relation (ReflTransGen)

variable {α β : Type} {s s' s₁ s₂ : LowerState} {w : Walk} {entities : EntityTable}
  {f : Ir.Function} {id : EntityId}

/-! ## Steps -/

/-- One change of the state while a unit is lowered. -/
inductive UnitStep (w : Walk) (s : LowerState) : LowerState → Prop where
  | inner {s' : LowerState} (h : Move w s s') : UnitStep w s s'
  | start (f : Ir.Function) : UnitStep w s { s with function := f, named := [] }
  | number {id : EntityId} {e : Entity} (sequence : Option Nat) (h : s.entities.get id = .ok e) :
    UnitStep w s { s with entities := s.entities.set id { e with sequence } }

/-- A run of such changes. -/
abbrev UnitSteps (w : Walk) : LowerState → LowerState → Prop :=
  ReflTransGen (UnitStep w)

theorem Moves.unit (h : Moves w s s') : UnitSteps w s s' :=
  ReflTransGen.mono (fun _ _ => .inner) _ _ h

/-- Each step of a unit carries entities on. -/
theorem UnitStep.carried (h : UnitStep w s s') : Carried s s' := by
  cases h with
  | inner h => exact h.step.grown.carried
  | start f => exact { Carried.refl s with }
  | number sequence h =>
    refine { Carried.refl s with entities := ?_, temps := fun id e he hle => ?_ }
    · exact .set Entity.Numbered.refl h ⟨sequence, rfl⟩
    · exact absurd (EntityTable.size_set ▸ EntityTable.lt_of_get he) (not_lt.2 hle)

theorem UnitSteps.carried (h : UnitSteps w s s') : Carried s s' := by
  induction h with
  | refl => exact .refl s
  | tail _ h ih => exact ih.trans h.carried

/-- Labels were handed out and problems reported, and nothing was taken back. -/
structure Grows (s s' : LowerState) : Prop where
  labels : s.labels.next ≤ s'.labels.next
  diagnostics : s.diagnostics <+: s'.diagnostics

namespace Grows

theorem refl (s : LowerState) : Grows s s :=
  ⟨le_rfl, List.prefix_rfl⟩

theorem trans (h : Grows s s₁) (h' : Grows s₁ s₂) : Grows s s₂ :=
  ⟨h.labels.trans h'.labels, h.diagnostics.trans h'.diagnostics⟩

end Grows

theorem UnitStep.grows (h : UnitStep w s s') : Grows s s' := by
  cases h with
  | inner h => exact ⟨h.step.grown.labels, h.step.grown.diagnostics⟩
  | start | number => exact ⟨le_rfl, List.prefix_rfl⟩

theorem UnitSteps.grows (h : UnitSteps w s s') : Grows s s' := by
  induction h with
  | refl => exact .refl s
  | tail _ h ih => exact ih.trans h.grows

/-- A computation changes the state by steps, when a unit is lowered that the part covers. -/
class UnitStepwise (w : Walk) (m : Lower α) : Prop where
  steps : ∀ ⦃s x s'⦄, w.part.Covers s.entities → m s = .ok (x, s') → UnitSteps w s s'

namespace UnitStepwise

variable {m : Lower α} {f : α → Lower β} {es : List Source.Expr}

theorem carried (h : UnitStepwise .any m) {x : α} (hm : m s = .ok (x, s')) : Carried s s' :=
  (h.steps (Source.Part.covers_all _) hm).carried

theorem grows (h : UnitStepwise .any m) {x : α} (hm : m s = .ok (x, s')) : Grows s s' :=
  (h.steps (Source.Part.covers_all _) hm).grows

theorem of_stepwise [Refers α] (h : Stepwise w .always m es) : UnitStepwise w m where
  steps := fun _ _ _ hc hm => (h.walked hc.closed trivial hm).moves.unit

instance [Refers α] [h : Stepwise w .always m es] : UnitStepwise w m :=
  .of_stepwise h

/-- A first step whose results are known to be of a certain form. -/
theorem bind_of {P : α → Prop} [hm : UnitStepwise w m]
    (hP : ∀ s x s', w.part.Covers s.entities → m s = .ok (x, s') → P x)
    (hf : ∀ x, P x → UnitStepwise w (f x)) : UnitStepwise w (m >>= f) where
  steps := fun s y s' hc h => by
    obtain ⟨x, s₁, hx, hy⟩ := bind_eq_ok_iff.1 h
    have h₁ := hm.steps hc hx
    exact h₁.trans ((hf x (hP s x s₁ hc hx)).steps (h₁.carried.covers hc) hy)

instance bind [UnitStepwise w m] [hf : ∀ x, UnitStepwise w (f x)] : UnitStepwise w (m >>= f) :=
  bind_of (P := fun _ => True) (fun _ _ _ _ _ => trivial) fun x _ => hf x

theorem after (_ : UnitStepwise w m) (_ : ∀ x, UnitStepwise w (f x)) : UnitStepwise w (m >>= f) :=
  bind

instance ite {c : Prop} [Decidable c] {m' : Lower α} [UnitStepwise w m] [UnitStepwise w m'] :
    UnitStepwise w (if c then m else m') := by
  split <;> infer_instance

instance pure {x : α} : UnitStepwise w (Pure.pure x : Lower α) where
  steps := fun _ _ _ _ h => (Prod.mk.inj (Except.ok.inj h)).2 ▸ .refl

instance start (f : Ir.Function) : UnitStepwise w (start f) where
  steps := fun s _ _ _ h => by
    obtain ⟨-, rfl⟩ := Prod.mk.inj (Except.ok.inj h)
    exact .single (.start f)

end UnitStepwise

section

variable [Fact w.hasLabels] {id : EntityId} {value : Source.Expr}

theorem unitStepwise_constant? (hc : w.part.Closed entities) (hv : w.part.exprs value) :
    UnitStepwise w (constant? id value) := by
  unfold constant?
  refine .after inferInstance fun _ => .after (.of_stepwise (stepwise_lower hc hv)) fun v => ?_
  cases v <;> infer_instance

instance : UnitStepwise w (reportNonConstant id value) := by
  unfold reportNonConstant
  infer_instance

theorem unitStepwise_staticValue (hc : w.part.Closed entities) (hv : w.part.exprs value) :
    UnitStepwise w (staticValue id value) := by
  have : UnitStepwise w (constant? id value) := unitStepwise_constant? hc hv
  unfold staticValue
  infer_instance

/-- A static variable lowers its initializer. -/
theorem unitStepwise_staticVariable (hc : w.part.Closed entities) :
    UnitStepwise w (staticVariable id) := by
  have : UnitStepwise w (staticInitializer id) := by
    unfold staticInitializer
    refine .bind_of (P := fun v => ∀ init, v.initializer? = some init → w.part.exprs init) ?_ ?_
    · intro s v s' hcovers hget init hinit
      exact hcovers.defined (lift_eq_ok (get_bind_eq_ok hget)).1
        (Entity.mem_exprs_of_initializer hinit)
    · intro v hinitial
      cases hinit : v.initializer? with
      | none => infer_instance
      | some init =>
        have : UnitStepwise w (staticValue id init) :=
          unitStepwise_staticValue hc (hinitial init hinit)
        infer_instance
  unfold staticVariable
  infer_instance

/-- A function lowers what its body evaluates. -/
theorem unitStepwise_function [Fact w.hasNames] (hc : w.part.Closed entities) :
    UnitStepwise w (function id) := by
  unfold function
  refine .bind_of (P := fun d => ∀ e ∈ d.exprs, w.part.exprs e) ?_ ?_
  · intro s d s' hcovers hget e he
    exact hcovers.defined (lift_eq_ok (get_bind_eq_ok hget)).1 he
  · intro d hdefined
    split
    · next params body hkind =>
      refine ⟨fun s x s' hcovers h => ?_⟩
      have : UnitStepwise w (body.lower {}) := .of_stepwise <|
        stepwise_block hc {} body (by simpa [Entity.exprs, hkind] using hdefined)
          (fun v _ => hcovers.vars v) _
      exact UnitStepwise.bind.steps hcovers h
    · infer_instance

instance {before : List String} : UnitStepwise w (numberStatic before id) where
  steps := fun s _ _ _ h => by
    obtain ⟨e, he, h⟩ := lift_bind_eq_ok (get_bind_eq_ok h)
    obtain ⟨-, rfl⟩ := Prod.mk.inj (Except.ok.inj h)
    exact .single (.number _ he)

/-- The static variables of a function are lowered one after another. -/
theorem unitStepwise_staticLocals (hc : w.part.Closed entities) {before : List String}
    {ids : List EntityId} : UnitStepwise w (staticLocals before ids) := by
  induction ids generalizing before with
  | nil =>
    rw [staticLocals]
    infer_instance
  | cons id ids ih =>
    have : UnitStepwise w (staticVariable id) := unitStepwise_staticVariable hc
    have (before : List String) : UnitStepwise w (staticLocals before ids) := ih
    rw [staticLocals]
    infer_instance

/-- So are the declarations of a unit. -/
theorem unitStepwise_declare (hc : w.part.Closed entities) {d : Declared} {ids : List EntityId} :
    UnitStepwise w (declare d ids) := by
  induction ids generalizing d with
  | nil =>
    rw [declare]
    infer_instance
  | cons id ids ih =>
    have : UnitStepwise w (staticVariable id) := unitStepwise_staticVariable hc
    have := fun d => ih (d := d)
    rw [declare]
    refine .bind_of (P := fun c => ∀ value, c.kind = .constant value → w.part.exprs value) ?_ ?_
    · intro s c s' hcovers hget value hkind
      refine hcovers.defined (lift_eq_ok (get_bind_eq_ok hget)).1 (e := value) ?_
      simp [Entity.exprs, hkind]
    · intro c hconstant
      cases hkind : c.kind with
      | constant value =>
        have : UnitStepwise w (staticValue id value) :=
          unitStepwise_staticValue hc (hconstant value hkind)
        infer_instance
      | _ => infer_instance

/-! ### Whole programs -/

variable [w.IsWhole] {before : List String} {ids : List EntityId}

open Walk.IsWhole (closed exprs)

instance : UnitStepwise w (constant? id value) := unitStepwise_constant? closed (exprs value)
instance : UnitStepwise w (staticValue id value) := unitStepwise_staticValue closed (exprs value)
instance : UnitStepwise w (staticVariable id) := unitStepwise_staticVariable closed
instance : UnitStepwise w (staticLocals before ids) := unitStepwise_staticLocals closed
instance [Fact w.hasNames] : UnitStepwise w (function id) := unitStepwise_function closed
instance {d : Declared} : UnitStepwise w (declare d ids) := unitStepwise_declare closed

end

/-! ## Functions -/

/-- What is reported for names that are not placed. -/
def undefinedLabels (entries : List NamedLabel) : Diagnostics :=
  entries.map fun e => ⟨.error, (LoweringProblem.undefinedLabel e.name).message, e.location⟩

/-- A report for each name is added to the diagnostics. -/
theorem forM_report_eq_ok {entries : List NamedLabel} {u : Unit}
    (h : entries.forM (fun e => report e.location (.undefinedLabel e.name)) s = .ok (u, s')) :
    s' = { s with diagnostics := s.diagnostics ++ undefinedLabels entries } := by
  induction entries generalizing s u with
  | nil =>
    obtain ⟨-, rfl⟩ := Prod.mk.inj (Except.ok.inj h)
    simp [undefinedLabels]
  | cons e es ih =>
    obtain ⟨v, s₁, hreport, h⟩ := bind_eq_ok_iff.1 h
    obtain ⟨-, rfl⟩ := Prod.mk.inj (Except.ok.inj hreport)
    rw [ih h]
    simp [undefinedLabels, Diagnostics.error, Diagnostics.report]

/-- The names that are not placed are reported, and nothing else happens. -/
theorem reportUnplaced_eq_ok {u : Unit} (h : reportUnplaced s = .ok (u, s')) :
    s' = { s with diagnostics :=
      s.diagnostics ++ undefinedLabels (s.named.filter (!·.isPlaced)) } := by
  exact forM_report_eq_ok (get_bind_eq_ok h)

/-- The state in which the statements of a function are lowered. -/
def entered (s : LowerState) (id : EntityId) (params : List EntityId) (body : Source.Block) :
    LowerState :=
  { s with function := { entity := id, params, scope := body.scope }, named := [] }

/-- A function is lowered by lowering its body; what follows only reports problems. -/
theorem function_eq_body (h : function id s = .ok (f, s')) :
    ∃ e params body s₁, s.entities.get id = .ok e ∧ e.kind = .definedFunction params body ∧
      body.lower {} (entered s id params body) = .ok ((), s₁) ∧ f = s₁.function ∧
      s' = { s₁ with diagnostics :=
        s₁.diagnostics ++ undefinedLabels (s₁.named.filter (!·.isPlaced)) } := by
  obtain ⟨e, s₁, he, hrest⟩ := bind_eq_ok_iff.1 h
  obtain ⟨he, rfl⟩ := lift_eq_ok (get_bind_eq_ok he)
  cases hkind : e.kind with
  | definedFunction params body =>
    simp only [hkind] at hrest
    obtain ⟨u, s₂, hstart, hrest⟩ := bind_eq_ok_iff.1 hrest
    obtain ⟨-, rfl⟩ := Prod.mk.inj (Except.ok.inj hstart)
    obtain ⟨u, s₃, hbody, hrest⟩ := bind_eq_ok_iff.1 hrest
    obtain ⟨u, s₄, hreport, hrest⟩ := bind_eq_ok_iff.1 hrest
    obtain ⟨rfl, rfl⟩ := Prod.mk.inj (Except.ok.inj hrest)
    have hs₄ := reportUnplaced_eq_ok hreport
    exact ⟨e, params, body, s₃, he, hkind, hbody, by rw [hs₄], hs₄⟩
  | _ =>
    simp only [hkind] at hrest
    cases hrest

/-- A function that was lowered, with the states before and after. -/
structure FunctionRun where
  before : LowerState
  function : Ir.Function
  after : LowerState

/-- What was reported while a function was lowered. -/
def FunctionRun.reported (r : FunctionRun) : Diagnostics :=
  r.after.diagnostics.drop r.before.diagnostics.length

/-- Functions are lowered one after another, each with its static local variables. -/
inductive FunctionRuns :
    List String → List EntityId → LowerState → List FunctionRun → LowerState → Prop
  | nil {before : List String} {s : LowerState} : FunctionRuns before [] s [] s
  | cons {before before' : List String} {id : EntityId} {ids statics : List EntityId}
      {vars : List Ir.StaticVariable} {s s₁ s₂ s₃ : LowerState} {f : Ir.Function}
      {runs : List FunctionRun} :
      function id s = .ok (f, s₁) → f.scope.staticVariables s₁.entities = .ok statics →
      staticLocals before statics s₁ = .ok ((before', vars), s₂) →
      FunctionRuns before' ids s₂ runs s₃ →
      FunctionRuns before (id :: ids) s (⟨s, f, s₁⟩ :: runs) s₃

/-- Functions are lowered in runs, one after another. -/
theorem functions_eq_ok {before : List String} {ids : List EntityId} {fs : List Ir.Function}
    {vars : List Ir.StaticVariable} (h : functions before ids s = .ok ((fs, vars), s')) :
    ∃ runs, FunctionRuns before ids s runs s' ∧ fs = runs.map (·.function) := by
  induction ids generalizing before fs vars s with
  | nil =>
    obtain ⟨hfs, rfl⟩ := Prod.mk.inj (Except.ok.inj h)
    obtain ⟨rfl, -⟩ := Prod.mk.inj hfs
    exact ⟨[], .nil, rfl⟩
  | cons id ids ih =>
    obtain ⟨f, s₁, hf, h⟩ := bind_eq_ok_iff.1 h
    obtain ⟨statics, hstatics, h⟩ := lift_bind_eq_ok (get_bind_eq_ok h)
    obtain ⟨⟨before', vars⟩, s₂, hlocals, h⟩ := bind_eq_ok_iff.1 h
    obtain ⟨⟨fs, more⟩, s₃, hfs, h⟩ := bind_eq_ok_iff.1 h
    obtain ⟨hpair, rfl⟩ := Prod.mk.inj (Except.ok.inj h)
    obtain ⟨rfl, -⟩ := Prod.mk.inj hpair
    -- the runs of the later functions start where this one has ended
    obtain ⟨runs, hruns, rfl⟩ := ih hfs
    exact ⟨_, .cons hf hstatics hlocals hruns, rfl⟩

/-- The runs of a unit are steps of its walk. -/
theorem FunctionRuns.steps [Fact w.hasLabels] [Fact w.hasNames] {before : List String}
    {ids : List EntityId} {runs : List FunctionRun} (h : FunctionRuns before ids s runs s')
    (hc : w.part.Covers s.entities) : UnitSteps w s s' := by
  induction h with
  | nil => exact .refl
  | cons hf _ hlocals _ ih =>
    have h₁ := (unitStepwise_function hc.closed).steps hc hf
    have hc₁ := h₁.carried.covers hc
    have h₂ := (unitStepwise_staticLocals hc.closed).steps hc₁ hlocals
    exact h₁.trans (h₂.trans (ih (h₂.carried.covers hc₁)))

end Lower

end Backend386
