import Backend386.Proofs.Ir.Fold
import Backend386.Proofs.Lowering.SourceEntities

/-!
# The string literals of a unit

The literals of a unit are looked up in the order in which its expressions are lowered. So the
string table holds each of them once, in that order, and each literal in the module is that of an
expression which is evaluated there.

* `Lower.Quoted` — the literals that are met when some expressions are evaluated;
* `Lower.interns_declare`, `Lower.interns_functions` — the literals of a unit are looked up in the
  order in which its expressions are evaluated;
* `Lowering.strings_eq` — the string table of a unit;
* `Lowering.literals_of_value` — the literals in what an expression is lowered to;
* `Lowering.literals_of_function`, `Lowering.literals_of_variable`, `Lowering.literals_of_constant`
  — the literals in the module.
-/

namespace Backend386

/-- Only a string literal folds to one. -/
theorem Ir.Expr.eq_str_of_fold {y : Ir.Expr} {w : Width} {id : StringId}
    (h : y.fold = .str w id) : y = .str w id := by
  cases y with
  | uni w' op e =>
    rw [fold] at h
    obtain ⟨h', -⟩ | ⟨_, _, _, -, h'⟩ := foldUni_cases w' op e.fold <;> rw [h'] at h <;> cases h
  | bin w' op l r =>
    rw [fold] at h
    obtain ⟨h', -⟩ | ⟨_, _, _, _, _, -, -, -, h'⟩ := foldBin_cases w' op l.fold r.fold <;>
      rw [h'] at h <;> cases h
  | _ => exact h

namespace Lower

open Source (Part Visits Meets)

variable {s s' s₁ : LowerState} {t : EntityTable} {es : List Source.Expr} {id : EntityId}
  {value e : Source.Expr} {x : Ir.Expr}

/-! ## What is met -/

/-- What was met is closed, once the types are settled. -/
theorem closed_met {visited : List Source.Expr} (hs : t.Readied s.entities) :
    (Part.met t visited).Closed s.entities where
  operand := Part.met_operand
  constant := fun he hc hv => Part.met_constant he ((hs.constant?_eq hc).trans hv)
  initial := fun {id v init} hvar hv hprivate hi => by
    have hinitial := hs.initial?_eq hv
    rw [hprivate, if_neg Bool.false_ne_true, hi] at hinitial
    exact hvar init hinitial

/-- The literal is one that is met when the expressions are evaluated. -/
def Quoted (t : EntityTable) (es : List Source.Expr) (strings : StringTable)
    (id : StringId) : Prop :=
  ∃ n v, Meets t es (.str n v) ∧ strings.value? id = some v

theorem Quoted.mono {strings strings' : StringTable} {id : StringId}
    (h : Quoted t es strings id) (hle : strings.entries <+: strings'.entries) :
    Quoted t es strings' id := by
  obtain ⟨n, v, hmeets, hvalue⟩ := h
  exact ⟨n, v, hmeets, StringTable.value?_of_prefix hle hvalue⟩

theorem Walk.MayQuote.quoted {visited : List Source.Expr} {id : StringId}
    (h : (Walk.along (.met t visited) t).MayQuote s id) (hvisits : Visits t es visited) :
    Quoted t es s.strings id := by
  obtain ⟨n, v, hmet, hvalue⟩ := h trivial
  exact ⟨n, v, ⟨visited, hvisits, Part.mem_of_met_str hmet⟩, hvalue⟩

/-- The literals of an expression are looked up, and those in its value are among them. -/
theorem interns_lowerWithin {depth : Nat} {d : Demand} {result : Option Ir.Expr}
    (hs : t.Readied s.entities) (h : e.lowerWithin depth d s = .ok (result, s'))
    (hq : s'.diagnostics.hasErrors = false) :
    InternsLiterals t [e] s s' ∧ ∀ id ∈ Refers.literals result, Quoted t [e] s'.strings id := by
  have hlower {part : Part} (hc : part.Closed s.entities) (he : part.exprs e) :
      Walked (.along part t) [e] s result s' :=
    (stepwise_lowerWithin (w := .along part t) (A := .always) hc depth he).walked hc trivial h
  obtain ⟨visited, hvisits, hstrings⟩ := (hlower (Part.closed_all _) trivial).interns hs hq
  have hknown := (hlower (closed_met hs) (hvisits.met List.mem_cons_self)).known
  exact ⟨⟨visited, hvisits, hstrings⟩, fun id hid => (hknown.literals id hid).quoted hvisits⟩

/-- The literals of a block are looked up, and those in its code are among them. -/
theorem interns_block {body : Source.Block} {u : Unit} (hs : t.Readied s.entities)
    (hempty : s.function.body.toList = []) (h : body.lower {} s = .ok (u, s'))
    (hq : s'.diagnostics.hasErrors = false) :
    InternsLiterals t (body.evaluated t) s s' ∧
      ∀ stmt ∈ s'.function.body.toList, ∀ id ∈ stmt.action.literals,
        Quoted t (body.evaluated t) s'.strings id := by
  have hlower {part : Part} (hc : part.Closed s.entities) (he : ∀ e ∈ body.exprs, part.exprs e)
      (hv : ∀ id ∈ body.scope.variablesOfTree, part.vars id) :
      Walked (.along part t) (body.evaluated t) s u s' :=
    (stepwise_block (w := .along part t) hc {} body he hv .always).walked hc trivial h
  obtain ⟨visited, hvisits, hstrings⟩ :=
    (hlower (Part.closed_all _) (fun _ _ => trivial) fun _ _ => trivial).interns hs hq
  have hmoves := (hlower (closed_met hs)
    (fun e he => hvisits.met (body.mem_evaluated.2 (.inl he)))
    fun v hv init hinit => hvisits.met <|
      body.mem_evaluated.2 (.inr (List.mem_filterMap.2 ⟨v, hv, hinit⟩))).moves
  have hknown := hmoves.known (hempty ▸ List.forall_mem_nil _)
  exact ⟨⟨visited, hvisits, hstrings⟩,
    fun stmt hstmt id hid => ((hknown stmt hstmt).literals id hid).quoted hvisits⟩

/-! ## Static values -/

theorem not_errorCount_lt (hq : s'.diagnostics.hasErrors = false) :
    ¬ s.diagnostics.errorCount < s'.diagnostics.errorCount := by
  rw [Diagnostics.errorCount_eq_zero hq]
  exact Nat.not_lt_zero _

/-- A static value is folded, which leaves a string literal as it is. -/
theorem interns_constant? (hs : t.Readied s.entities)
    (h : constant? id value s = .ok (some x, s')) (hq : s'.diagnostics.hasErrors = false) :
    InternsLiterals t [value] s s' ∧ ∀ id ∈ x.literals, Quoted t [value] s'.strings id := by
  obtain ⟨y, hy, -, rfl, hconstant⟩ := constant?_eq_ok h
  obtain ⟨hinterns, hquoted⟩ := interns_lowerWithin
    (s := { s with function := { entity := id }, named := [] }) hs (get_bind_eq_ok hy) hq
  refine ⟨hinterns, fun id' hid' => ?_⟩
  cases hfold : y.fold with
  | str w s =>
    obtain rfl := Ir.Expr.eq_str_of_fold hfold
    rw [hfold] at hid'
    exact hquoted id' hid'
  | int | addr =>
    rw [hfold] at hid'
    cases hid'
  | _ =>
    rw [hfold] at hconstant
    cases hconstant

/-- A static value interns its literals if there are no errors. -/
theorem interns_staticValue {result : Option Ir.Expr} (hs : t.Readied s.entities)
    (h : staticValue id value s = .ok (result, s')) (hq : s'.diagnostics.hasErrors = false) :
    InternsLiterals t [value] s s' := by
  obtain ⟨x, -, hconstant⟩ | ⟨-, hcount⟩ := staticValue_eq_ok h
  · exact (interns_constant? hs hconstant hq).1
  · exact absurd hcount (not_errorCount_lt hq)

/-- So does a static variable. -/
theorem interns_staticVariable {v : Ir.StaticVariable} (hs : t.Readied s.entities)
    (h : staticVariable id s = .ok (v, s')) (hq : s'.diagnostics.hasErrors = false) :
    InternsLiterals t (t.initializer? id).toList s s' := by
  obtain ⟨result, s₁, hresult, h⟩ := bind_eq_ok_iff.1 h
  obtain ⟨-, rfl⟩ := Prod.mk.inj (Except.ok.inj h)
  obtain ⟨e, s₂, he, hrest⟩ := bind_eq_ok_iff.1 hresult
  obtain ⟨he, rfl⟩ := lift_eq_ok (get_bind_eq_ok he)
  -- the entity may have been changed since it was read, but not its initializer
  rw [hs.initializer?_eq he]
  cases hinit : e.initializer? with
  | none =>
    simp only [hinit] at hrest
    obtain ⟨-, rfl⟩ := Prod.mk.inj (Except.ok.inj hrest)
    exact .of_same rfl
  | some init =>
    simp only [hinit] at hrest
    obtain ⟨type, -, hrest⟩ := lift_bind_eq_ok hrest
    obtain ⟨aggregate, s₃, hask, hvalue⟩ := bind_eq_ok_iff.1 hrest
    obtain ⟨-, rfl⟩ := lift_eq_ok (get_bind_eq_ok hask)
    -- with no errors in the end, there are none so far, and the initializer was a value
    split at hvalue
    · -- an aggregate is reported
      obtain ⟨u, s₄, hreport, hvalue⟩ := bind_eq_ok_iff.1 hvalue
      obtain ⟨-, rfl⟩ := Prod.mk.inj (Except.ok.inj hvalue)
      obtain ⟨e', s₅, he', hcount⟩ := bind_eq_ok_iff.1 hreport
      obtain ⟨-, rfl⟩ := entity_eq_ok he'
      exact absurd (report_errorCount hcount) (not_errorCount_lt hq)
    · exact interns_staticValue hs hvalue hq

/-! ## Declarations -/

theorem InternsLiterals.cons_filterMap {f : EntityId → Option Source.Expr} {ids : List EntityId}
    (h : InternsLiterals t (f id).toList s s₁) (h' : InternsLiterals t (ids.filterMap f) s₁ s') :
    InternsLiterals t ((id :: ids).filterMap f) s s' := by
  rw [List.filterMap_eq_flatMap_toList] at h' ⊢
  exact h.trans h'

/-- The expressions of declarations are lowered in their order. -/
theorem interns_declare {d d' : Declared} {ids : List EntityId} (hs : t.Readied s.entities)
    (h : declare d ids s = .ok (d', s')) (hq : s'.diagnostics.hasErrors = false) :
    InternsLiterals t (ids.filterMap t.declared?) s s' := by
  induction ids generalizing d s with
  | nil =>
    obtain ⟨rfl, rfl⟩ := Prod.mk.inj (Except.ok.inj h)
    exact .of_same rfl
  | cons id ids ih =>
    obtain ⟨e, s₁, he, hrest⟩ := bind_eq_ok_iff.1 h
    obtain ⟨he, hsame⟩ := lift_eq_ok (get_bind_eq_ok he)
    rw [hsame] at hrest
    have hdeclared := hs.declared?_eq he
    -- one declaration, then the others
    suffices hone : ∃ d₁ s₁, Carried s s₁ ∧ declare d₁ ids s₁ = .ok (d', s') ∧
        (s₁.diagnostics.hasErrors = false → InternsLiterals t (t.declared? id).toList s s₁) by
      obtain ⟨d₁, s₁, hcarried, hothers, hinterns⟩ := hone
      have hq₁ := hasErrors_mono (declare_eq_ok hothers).carried.diagnostics hq
      exact (hinterns hq₁).cons_filterMap (ih (hs.carried hcarried) hothers)
    cases hkind : e.kind with
    | parameter =>
      simp only [hkind] at hrest
      cases hrest
    | undefinedVariable | undefinedFunction | definedFunction params body =>
      simp only [hkind] at hrest
      simp only [Entity.constantValue?, Entity.initializer?, hkind] at hdeclared
      exact ⟨_, s, .refl s, hrest, fun _ => hdeclared ▸ .of_same rfl⟩
    | constant value =>
      simp only [hkind] at hrest
      simp only [Entity.constantValue?, hkind] at hdeclared
      obtain ⟨result, s₂, hvalue, hrest⟩ := bind_eq_ok_iff.1 hrest
      exact ⟨_, s₂, UnitStepwise.carried inferInstance hvalue, hrest,
        fun hq₂ => hdeclared ▸ interns_staticValue hs hvalue hq₂⟩
    | definedVariable init =>
      simp only [hkind] at hrest
      obtain ⟨v, s₂, hvar, hrest⟩ := bind_eq_ok_iff.1 hrest
      have hinitial : t.declared? id = t.initializer? id := by
        rw [hdeclared, hs.initializer?_eq he]
        simp only [Entity.constantValue?, hkind, Option.none_or]
      exact ⟨_, s₂, UnitStepwise.carried inferInstance hvar, hrest,
        fun hq₂ => hinitial ▸ interns_staticVariable hs hvar hq₂⟩

/-! ## Functions -/

/-- The temporaries that a run adds to a function are not static. -/
theorem Grown.withPrivacy (h : Grown s s') {ids : List EntityId}
    (hscope : s.function.scope.variablesOfTree = ids) :
    s'.entities.withPrivacy true s'.function.scope.variablesOfTree =
      s'.entities.withPrivacy true ids := by
  rw [← hscope, EntityTable.withPrivacy, EntityTable.withPrivacy, ← List.filterMap_eq_filter]
  refine h.filterMap_variables fun id hid => Option.guard_eq_none_iff.2 ?_
  cases he : s'.entities.get id with
  | error fault => rfl
  | ok e =>
    rcases h.get_cases he with hold | ⟨htemp, -⟩
    · exact absurd (EntityTable.lt_of_get hold) (not_lt.2 hid)
    · simp [Except.toOption, htemp.automatic]

/-- The literals of a function are looked up, and those in its code are among them. -/
theorem interns_function {f : Ir.Function} (hs : t.Readied s.entities)
    (h : function id s = .ok (f, s')) (hq : s'.diagnostics.hasErrors = false) :
    ∃ body, t.body? id = some body ∧ InternsLiterals t (body.evaluated t) s s' ∧
      (∀ stmt ∈ f.body.toList, ∀ id ∈ stmt.action.literals,
        Quoted t (body.evaluated t) s'.strings id) ∧
      s'.entities.withPrivacy true f.scope.variablesOfTree =
        t.withPrivacy true body.scope.variablesOfTree := by
  -- the run of the body alone, as what comes behind it only reports
  obtain ⟨e, params, body, s₁, he, hkind, hbody, rfl, rfl⟩ := function_eq_body h
  have hblock : Stepwise .any .always (body.lower {}) (body.evaluated ⟨[]⟩) := inferInstance
  have hgrown : Grown (entered s id params body) s₁ :=
    (hblock.walked (Part.closed_all _) trivial hbody).grown
  have hq₁ : s₁.diagnostics.hasErrors = false := hasErrors_mono (List.prefix_append ..) hq
  obtain ⟨hinterns, hquoted⟩ := interns_block (s := entered s id params body) hs rfl hbody hq₁
  have hstatic : s₁.entities.withPrivacy true s₁.function.scope.variablesOfTree =
      s₁.entities.withPrivacy true body.scope.variablesOfTree := hgrown.withPrivacy rfl
  have hs₁ : t.Readied s₁.entities :=
    EntityTable.Readied.carried (s := entered s id params body) hs hgrown.carried
  exact ⟨body, (hs.body?_eq he).trans (EntityTable.body?_eq_some he hkind), hinterns, hquoted,
    hstatic.trans (hs₁.withPrivacy_eq _)⟩

/-- Static local variables are initialized one after another. -/
theorem interns_staticLocals {before after : List String} {ids : List EntityId}
    {vars : List Ir.StaticVariable} (hs : t.Readied s.entities)
    (h : staticLocals before ids s = .ok ((after, vars), s'))
    (hq : s'.diagnostics.hasErrors = false) :
    InternsLiterals t (ids.filterMap t.initializer?) s s' := by
  induction ids generalizing before after vars s with
  | nil =>
    obtain ⟨-, rfl⟩ := Prod.mk.inj (Except.ok.inj h)
    exact .of_same rfl
  | cons id ids ih =>
    obtain ⟨names, s₁, hnumber, h⟩ := bind_eq_ok_iff.1 h
    obtain ⟨v, s₂, hvar, h⟩ := bind_eq_ok_iff.1 h
    obtain ⟨⟨after', vs⟩, s₃, hothers, h⟩ := bind_eq_ok_iff.1 h
    obtain ⟨hpair, rfl⟩ := Prod.mk.inj (Except.ok.inj h)
    have h₁ : Carried s s₁ := UnitStepwise.carried inferInstance hnumber
    have h₂ := UnitStepwise.carried inferInstance hvar
    have hq₂ := hasErrors_mono (staticLocals_eq_ok hothers).2.1.diagnostics hq
    -- numbering a name leaves the literals alone
    have hsame : s₁.strings = s.strings := by
      obtain ⟨e, -, hnumber⟩ := lift_bind_eq_ok (get_bind_eq_ok hnumber)
      obtain ⟨-, rfl⟩ := Prod.mk.inj (Except.ok.inj hnumber)
      rfl
    have hfirst := interns_staticVariable (hs.carried h₁) hvar hq₂
    exact .cons_filterMap ((InternsLiterals.of_same hsame).trans hfirst)
      (ih (hs.carried (h₁.trans h₂)) hothers)

/-- The functions are lowered one after another, each with its static variables. -/
theorem interns_functions {ids : List EntityId} {fs : List Ir.Function}
    {vars : List Ir.StaticVariable} (hs : t.Readied s.entities)
    (h : FunctionsFrom ids s fs vars s') (hq : s'.diagnostics.hasErrors = false) :
    InternsLiterals t (ids.flatMap t.evaluatedIn) s s' := by
  induction h with
  | nil => exact .of_same rfl
  | @cons id ids statics s s₁ s₂ s₃ f fs before before' vars more hf hstatics hvars hrest ih =>
    have h₁ := FunctionsFrom.carried_function hf
    have h₂ := (staticLocals_eq_ok hvars).2.1
    have hq₂ := hasErrors_mono hrest.carried.diagnostics hq
    have hs₁ := hs.carried h₁
    obtain ⟨body, hbody, hinterns, -, hstatic⟩ :=
      interns_function hs hf (hasErrors_mono h₂.diagnostics hq₂)
    obtain rfl := (EntityTable.selectPrivate_eq_ok hstatics).1.trans hstatic
    rw [List.flatMap_cons, EntityTable.evaluatedIn, hbody, Option.elim_some]
    refine (hinterns.trans ?_).trans (ih (hs₁.carried h₂) hq)
    exact interns_staticLocals hs₁ hvars hq₂

end Lower

/-! ## Units -/

namespace Lowering

open Lower (Carried)
open Source (Visits Meets literals)

variable {p : Source.Program} {types : TypeTable} {ds : Diagnostics} {lowered : Lowered}
  {s : LowerState}

/-- There are no errors on the way if there are none in the end. -/
theorem hasErrors_eq (l : Lowering p types ds lowered)
    (hquiet : lowered.diagnostics.hasErrors = false) (hs : Carried s l.final) :
    s.diagnostics.hasErrors = false :=
  Lower.hasErrors_mono (hs.diagnostics.trans l.diagnostics) hquiet

/-- The literals of a unit are interned in the order in which its expressions are lowered. -/
theorem strings_eq (l : Lowering p types ds lowered)
    (hquiet : lowered.diagnostics.hasErrors = false) :
    ∃ visited, Visits p.entities p.evaluated visited ∧
      lowered.module.strings = StringTable.internAll {} (literals visited) := by
  have hstart : p.entities.Readied l.start.entities := l.readied (.refl _)
  have hdeclares := Lower.declare_eq_ok l.declare
  have hfunctions := Lower.functionsFrom_of_ok l.functions
  have hinterns := Lower.interns_declare hstart l.declare (l.hasErrors_eq hquiet hfunctions.carried)
  have hinterns' := Lower.interns_functions (hstart.carried hdeclares.carried) hfunctions
    (l.hasErrors_eq hquiet (.refl _))
  obtain ⟨visited, hvisits, hstrings⟩ := hinterns.trans hinterns'
  rw [Lower.declare_functions hstart l.declare, List.nil_append, EntityTable.flatMap_functions
    fun id hnone => by rw [EntityTable.evaluatedIn, hnone]; rfl] at hvisits
  rw [l.entities_typed.2.2] at hvisits
  exact ⟨visited, hvisits, l.strings.trans hstrings⟩

/-- The literals in what an expression is lowered to, anywhere in the unit, are those that are met
when it is evaluated. -/
theorem literals_of_value (l : Lowering p types ds lowered)
    (hquiet : lowered.diagnostics.hasErrors = false) {e : Source.Expr} {x : Ir.Expr} {depth : Nat}
    {d : Demand} {s s' : LowerState} (hs : Carried l.start s)
    (hrun : e.lowerWithin depth d s = .ok (some x, s')) (hs' : Carried s' l.final) :
    ∀ id ∈ x.literals, ∃ n v, Meets p.entities [e] (.str n v) ∧
      lowered.module.strings.value? id = some v := by
  obtain ⟨-, hquoted⟩ := Lower.interns_lowerWithin (l.readied hs) hrun (l.hasErrors_eq hquiet hs')
  rw [l.strings]
  rw [Lower.literals_some] at hquoted
  exact fun id hid => (hquoted id hid).mono hs'.strings

/-- The literals in a function are those that are met when its body is evaluated. -/
theorem literals_of_function (l : Lowering p types ds lowered)
    (hquiet : lowered.diagnostics.hasErrors = false) {f : Ir.Function}
    (hf : f ∈ lowered.module.functions) :
    ∃ body, p.entities.body? f.entity = some body ∧ ∀ stmt ∈ f.body.toList,
      ∀ id ∈ stmt.action.literals, ∃ n v,
        Meets p.entities (body.evaluated p.entities) (.str n v) ∧
        lowered.module.strings.value? id = some v := by
  have hdeclares := Lower.declare_eq_ok l.declare
  obtain ⟨id, -, s₁, s₂, statics, h₁, h₂, hrun, -⟩ :=
    (Lower.functionsFrom_of_ok l.functions).function hf
  obtain ⟨e, params, body, -, -, rfl, hgrown, -⟩ := Lower.function_eq_ok hrun
  obtain ⟨body, hbody, -, hquoted, -⟩ := Lower.interns_function
    (l.readied (hdeclares.carried.trans h₁)) hrun (l.hasErrors_eq hquiet h₂)
  rw [l.strings, hgrown.entity]
  exact ⟨body, hbody, fun stmt hstmt id hid => (hquoted stmt hstmt id hid).mono h₂.strings⟩

/-- The literals in the initial value of a static variable are those of its initializer. -/
theorem literals_of_variable (l : Lowering p types ds lowered)
    (hquiet : lowered.diagnostics.hasErrors = false) {v : Ir.StaticVariable} {x : Ir.Expr}
    (hv : v ∈ lowered.module.vars) (hx : v.init = some x) :
    ∃ init, p.entities.initializer? v.entity = some init ∧ ∀ id ∈ x.literals, ∃ n s,
      Meets p.entities [init] (.str n s) ∧ lowered.module.strings.value? id = some s := by
  have hdeclares := Lower.declare_eq_ok l.declare
  have hfunctions := Lower.functionsFrom_of_ok l.functions
  obtain ⟨s₁, s₂, h₁, h₂, hrun⟩ : ∃ s₁ s₂, Carried l.start s₁ ∧ Carried s₂ l.final ∧
      Lower.staticVariable v.entity s₁ = .ok (v, s₂) := by
    rw [l.vars] at hv
    rcases List.mem_append.1 hv with hv | hv
    · rcases hdeclares.var v hv with hnone | ⟨-, s₁, s₂, h₁, h₂, hrun⟩
      · cases hnone
      · exact ⟨s₁, s₂, h₁, h₂.trans hfunctions.carried, hrun⟩
    · obtain ⟨f, -, s₁, s₂, e, h₁, h₂, hrun, -⟩ := hfunctions.static hv
      exact ⟨s₁, s₂, hdeclares.carried.trans h₁, h₂, hrun⟩
  obtain ⟨-, hinit⟩ := Lower.staticVariable_eq_ok hrun
  obtain ⟨e, init, he, hinit, hconstant⟩ := hinit x hx
  obtain ⟨-, hquoted⟩ := Lower.interns_constant? (l.readied h₁) hconstant (l.hasErrors_eq hquiet h₂)
  rw [l.strings]
  exact ⟨init, ((l.readied h₁).initializer?_eq he).trans hinit,
    fun id hid => (hquoted id hid).mono h₂.strings⟩

/-- The literals in the value of a named constant are those of its value in the program. -/
theorem literals_of_constant (l : Lowering p types ds lowered)
    (hquiet : lowered.diagnostics.hasErrors = false) {c : Ir.NamedConstant} {x : Ir.Expr}
    (hc : c ∈ lowered.module.namedConstants) (hx : c.value = some x) :
    ∃ value, p.entities.constant? c.entity = some value ∧ ∀ id ∈ x.literals, ∃ n s,
      Meets p.entities [value] (.str n s) ∧ lowered.module.strings.value? id = some s := by
  have hdeclares := Lower.declare_eq_ok l.declare
  have hfunctions := Lower.functionsFrom_of_ok l.functions
  rw [l.namedConstants] at hc
  rcases hdeclares.constant c hc with hnone | ⟨-, e, value, s₁, s₂, h₁, h₂, he, hkind, hrun⟩
  · cases hnone
  have h₂ := h₂.trans hfunctions.carried
  obtain ⟨y, hy, hconstant⟩ | ⟨hnone, -⟩ := Lower.staticValue_eq_ok hrun
  · obtain rfl := Option.some.inj (hx.symm.trans hy)
    obtain ⟨-, hquoted⟩ :=
      Lower.interns_constant? (l.readied h₁) hconstant (l.hasErrors_eq hquiet h₂)
    rw [l.strings]
    refine ⟨value, ((l.readied h₁).constant?_eq he).trans ?_,
      fun id hid => (hquoted id hid).mono h₂.strings⟩
    rw [Entity.constantValue?, hkind]
  · rw [hx] at hnone
    cases hnone

end Lowering

end Backend386
