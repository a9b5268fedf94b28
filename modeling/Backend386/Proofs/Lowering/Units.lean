import Backend386.Proofs.Lowering.PairedLabels
import Backend386.Proofs.Lowering.UnitRuns

/-!
# What a unit is lowered to

The pieces of a module, each with the computation that it came from.

* `Lower.constant?_eq_ok`, `Lower.constant?_names` — static values and what they name;
* `Lower.Declares` — what the declarations amount to;
* `Lower.function_eq_ok` — a function and the entities it mentions;
* `Lower.FunctionsFrom` — the functions and their static variables.
-/

namespace Backend386

namespace Source

/-- One expression. -/
def Expr.part (e : Expr) : Part :=
  ⟨(· = e), fun _ => False, fun _ => False⟩

end Source

/-- Only an address folds to an address. -/
theorem Ir.Expr.eq_addr_of_fold {y : Ir.Expr} {w : Width} {v : EntityId}
    (h : y.fold = .addr w v) : y = .addr w v := by
  cases y with
  | uni w' op e =>
    rw [fold] at h
    unfold foldUni at h
    split at h
    · split at h <;> cases h
    · cases h
  | bin w' op l r =>
    rw [fold] at h
    unfold foldBin at h
    split at h
    · split at h <;> cases h
    · cases h
  | _ => exact h

namespace Lower

variable {α : Type} {s s' s₁ s₂ : LowerState} {id : EntityId} {value : Source.Expr} {x : Ir.Expr}

/-! ## Static values -/

/-- A constant is what its expression is lowered to, in a function of its own. -/
theorem constant?_eq_ok (h : constant? id value s = .ok (some x, s')) :
    ∃ y, value.lower .value { s with function := { entity := id }, named := [] } =
      .ok (some y, s') ∧ s'.function.body.toList = [] ∧ x = y.fold ∧ x.isConstant = true := by
  obtain ⟨u, s₁, hstart, h⟩ := bind_eq_ok_iff.1 h
  obtain ⟨-, rfl⟩ := Prod.mk.inj (Except.ok.inj hstart)
  obtain ⟨v, s₁, hv, h⟩ := bind_eq_ok_iff.1 h
  cases v with
  | none => cases h
  | some y =>
    obtain ⟨hx, rfl⟩ := Prod.mk.inj (Except.ok.inj (get_bind_eq_ok h))
    split at hx
    · next hconstant =>
      obtain rfl := Option.some.inj hx
      exact ⟨y, hv, by simpa using hconstant.1, rfl, hconstant.2⟩
    · cases hx

/-- A value that takes no statements takes no temporaries either, so that an address is that of an
entity which the expression names, through constants perhaps. -/
theorem constant?_names {w : Width} {v : EntityId}
    (h : constant? id value s = .ok (some (.addr w v), s')) :
    ∃ n e, (value.part.closure s.entities).exprs (.var n v) ∧ s.entities.get v = .ok e ∧
      e.constantValue? = none := by
  obtain ⟨y, hy, hempty, hfold, -⟩ := constant?_eq_ok h
  -- a literal address is left only where a name was folded, and it is one of the value
  obtain rfl := Ir.Expr.eq_addr_of_fold hfold.symm
  have hc : (value.part.closure s.entities).Closed s.entities := Source.Part.closed_closure ..
  have hlower : Stepwise (.along (value.part.closure s.entities)) .always (value.lower .value)
    [value] := stepwise_lower hc (.root rfl)
  have hwalked := hlower.walked (s := { s with function := { entity := id }, named := [] }) hc
    trivial hy
  have hsame := hwalked.quiet hempty
  obtain ⟨new, hentities, hvars, -⟩ := hwalked.grown.added
  obtain rfl : new = [] := by
    rw [hsame] at hentities
    simpa using hentities
  rcases hwalked.known.entities v (List.mem_singleton.2 rfl) trivial with hv | hscope | hnamed
  · exact hv.elim
  · rw [hvars] at hscope
    cases hscope
  · obtain ⟨n, e, he, hget, hnone⟩ := hnamed
    exact ⟨n, e, he, hsame ▸ hget, hnone⟩

theorem report_errorCount {location : Option Location} {problem : LoweringProblem} {u : Unit}
    (h : report location problem s = .ok (u, s')) :
    s.diagnostics.errorCount < s'.diagnostics.errorCount := by
  obtain ⟨-, rfl⟩ := Prod.mk.inj (Except.ok.inj h)
  simp [Diagnostics.error, Diagnostics.report, Diagnostics.errorCount, Diagnostics.errors]

/-- A value that is not known to the assembler is reported. -/
theorem staticValue_eq_ok {result : Option Ir.Expr}
    (h : staticValue id value s = .ok (result, s')) :
    (∃ x, result = some x ∧ constant? id value s = .ok (some x, s')) ∨
      result = none ∧ s.diagnostics.errorCount < s'.diagnostics.errorCount := by
  obtain ⟨found, s₁, hfound, h⟩ := bind_eq_ok_iff.1 h
  cases found with
  | some x =>
    obtain ⟨rfl, rfl⟩ := Prod.mk.inj (Except.ok.inj h)
    exact .inl ⟨x, rfl, hfound⟩
  | none =>
    obtain ⟨u, s₂, hreport, h⟩ := bind_eq_ok_iff.1 h
    obtain ⟨rfl, rfl⟩ := Prod.mk.inj (Except.ok.inj h)
    obtain ⟨e, s₃, he, hcount⟩ := bind_eq_ok_iff.1 hreport
    obtain ⟨-, rfl⟩ := entity_eq_ok he
    have hle := Diagnostics.errorCount_mono
      (UnitStepwise.carried inferInstance hfound).diagnostics
    exact .inr ⟨rfl, hle.trans_lt (report_errorCount hcount)⟩

/-- The initializer of a static variable is a static value. -/
theorem staticVariable_eq_ok {v : Ir.StaticVariable} (h : staticVariable id s = .ok (v, s')) :
    v.entity = id ∧ ∀ x, v.init = some x → ∃ e init, s.entities.get id = .ok e ∧
      e.initializer? = some init ∧ constant? id init s = .ok (some x, s') := by
  obtain ⟨result, s₁, hresult, h⟩ := bind_eq_ok_iff.1 h
  obtain ⟨rfl, rfl⟩ := Prod.mk.inj (Except.ok.inj h)
  refine ⟨rfl, fun x hx => ?_⟩
  obtain rfl : result = some x := hx
  obtain ⟨e, s₂, he, hrest⟩ := bind_eq_ok_iff.1 hresult
  obtain ⟨he, rfl⟩ := lift_eq_ok (get_bind_eq_ok he)
  cases hinit : e.initializer? with
  | none =>
    simp only [hinit] at hrest
    cases hrest
  | some init =>
    simp only [hinit] at hrest
    obtain ⟨type, -, hrest⟩ := lift_bind_eq_ok hrest
    obtain ⟨aggregate, s₃, hask, hvalue⟩ := bind_eq_ok_iff.1 hrest
    -- an aggregate has no static value
    obtain ⟨-, rfl⟩ := lift_eq_ok (get_bind_eq_ok hask)
    split at hvalue
    · obtain ⟨u, s₄, -, hvalue⟩ := bind_eq_ok_iff.1 hvalue
      cases hvalue
    · obtain ⟨y, hy, hconstant⟩ | ⟨hnone, -⟩ := staticValue_eq_ok hvalue
      · obtain rfl := Option.some.inj hy
        exact ⟨e, init, he, hinit, hconstant⟩
      · cases hnone

/-! ## Declarations -/

/-- The variables, what is defined elsewhere and the functions. -/
def Declared.addressed (d : Declared) : List EntityId :=
  d.vars.map (·.entity) ++ (d.undefined ++ d.functions)

/-- The named constants. -/
def Declared.constants (d : Declared) : List EntityId :=
  d.namedConstants.map (·.entity)

/-- What a list of declarations amounts to: each becomes one piece of the module. -/
structure Declares (d : Declared) (ids : List EntityId) (s : LowerState) (d' : Declared)
    (s' : LowerState) : Prop where
  carried : Carried s s'
  perm : (d'.addressed ++ d'.constants).Perm (d.addressed ++ d.constants ++ ids)
  functions : ∃ new, d'.functions = d.functions ++ new ∧ new.Sublist ids
  defined : ∀ id ∈ ids, ∀ e params body, s.entities.get id = .ok e →
    e.kind = .definedFunction params body → id ∈ d'.functions
  var : ∀ v ∈ d'.vars, v ∈ d.vars ∨ v.entity ∈ ids ∧ ∃ s₁ s₂, Carried s s₁ ∧ Carried s₂ s' ∧
    staticVariable v.entity s₁ = .ok (v, s₂)
  constant : ∀ c ∈ d'.namedConstants, c ∈ d.namedConstants ∨ c.entity ∈ ids ∧ ∃ e value s₁ s₂,
    Carried s s₁ ∧ Carried s₂ s' ∧ s₁.entities.get c.entity = .ok e ∧ e.kind = .constant value ∧
    staticValue c.entity value s₁ = .ok (c.value, s₂)

namespace Declares

variable {d d' d₁ d₂ : Declared} {a b ids : List EntityId}

/-- An empty list declares nothing. -/
theorem refl (d : Declared) (s : LowerState) : Declares d [] s d s where
  carried := .refl s
  perm := by simp
  functions := ⟨[], by simp, .slnil⟩
  defined := by simp
  var := fun _ hv => .inl hv
  constant := fun _ hc => .inl hc

/-- Declarations may follow one another. -/
theorem trans (h : Declares d a s d₁ s₁) (h' : Declares d₁ b s₁ d₂ s₂) :
    Declares d (a ++ b) s d₂ s₂ where
  carried := h.carried.trans h'.carried
  perm := by
    rw [← List.append_assoc]
    exact h'.perm.trans (h.perm.append_right b)
  functions := by
    -- the functions of the second list come behind those of the first
    obtain ⟨new, hnew, hsub⟩ := h.functions
    obtain ⟨new', hnew', hsub'⟩ := h'.functions
    exact ⟨new ++ new', by rw [hnew', hnew, List.append_assoc], hsub.append hsub'⟩
  defined := fun id hid e params body he hkind => by
    rcases List.mem_append.1 hid with hid | hid
    · obtain ⟨new, hnew, -⟩ := h'.functions
      exact hnew ▸ List.mem_append_left _ (h.defined id hid e params body he hkind)
    · obtain ⟨e', he', sequence, rfl⟩ := h.carried.entities he
      exact h'.defined id hid _ params body he' hkind
  var := fun v hv => by
    rcases h'.var v hv with hv | ⟨hmem, s₃, s₄, h₃, h₄, hstatic⟩
    · rcases h.var v hv with hv | ⟨hmem, s₃, s₄, h₃, h₄, hstatic⟩
      · exact .inl hv
      · exact .inr ⟨List.mem_append_left _ hmem, s₃, s₄, h₃, h₄.trans h'.carried, hstatic⟩
    · exact .inr ⟨List.mem_append_right _ hmem, s₃, s₄, h.carried.trans h₃, h₄, hstatic⟩
  constant := fun c hc => by
    rcases h'.constant c hc with hc | ⟨hmem, e, value, s₃, s₄, h₃, h₄, hrest⟩
    · rcases h.constant c hc with hc | ⟨hmem, e, value, s₃, s₄, h₃, h₄, hrest⟩
      · exact .inl hc
      · exact .inr ⟨List.mem_append_left _ hmem, e, value, s₃, s₄, h₃, h₄.trans h'.carried, hrest⟩
    · exact .inr ⟨List.mem_append_right _ hmem, e, value, s₃, s₄, h.carried.trans h₃, h₄, hrest⟩

end Declares

/-- A list is declared entity by entity. -/
theorem declare_eq_ok {d d' : Declared} {ids : List EntityId}
    (h : declare d ids s = .ok (d', s')) : Declares d ids s d' s' := by
  induction ids generalizing d s with
  | nil =>
    obtain ⟨rfl, rfl⟩ := Prod.mk.inj (Except.ok.inj h)
    exact .refl d s
  | cons id ids ih =>
    obtain ⟨e, s₁, he, hrest⟩ := bind_eq_ok_iff.1 h
    obtain ⟨he, hsame⟩ := lift_eq_ok (get_bind_eq_ok he)
    rw [hsame] at hrest
    -- one declaration, then the others
    suffices hone : ∃ d₁ s₁, Declares d [id] s d₁ s₁ ∧ declare d₁ ids s₁ = .ok (d', s') by
      obtain ⟨d₁, s₁, hfirst, hothers⟩ := hone
      exact hfirst.trans (ih hothers)
    have hothers {P : EntityId → Prop}
        (hkind : ∀ params body, e.kind ≠ .definedFunction params body) :
        ∀ x ∈ [id], ∀ e' params body, s.entities.get x = .ok e' →
          e'.kind = .definedFunction params body → P x := by
      intro x hx e' params body he' hfunction
      obtain rfl := List.mem_singleton.1 hx
      obtain rfl := Except.ok.inj (he.symm.trans he')
      exact absurd hfunction (hkind params body)
    cases hkind : e.kind with
    | parameter =>
      simp only [hkind] at hrest
      cases hrest
    | undefinedVariable | undefinedFunction =>
      simp only [hkind] at hrest
      refine ⟨{ d with undefined := d.undefined ++ [id] }, s, ⟨.refl s, ?_, ⟨[], by simp, by simp⟩,
        hothers (by simp [hkind]), fun _ hv => .inl hv, fun _ hc => .inl hc⟩, hrest⟩
      refine List.perm_iff_count.2 fun x => ?_
      simp only [Declared.addressed, Declared.constants, List.count_append]
      omega
    | definedFunction params body =>
      simp only [hkind] at hrest
      refine ⟨{ d with functions := d.functions ++ [id] }, s, ⟨.refl s, ?_, ⟨[id], rfl, by simp⟩,
        by simp, fun _ hv => .inl hv, fun _ hc => .inl hc⟩, hrest⟩
      refine List.perm_iff_count.2 fun x => ?_
      simp only [Declared.addressed, Declared.constants, List.count_append]
      omega
    | constant value =>
      simp only [hkind] at hrest
      obtain ⟨result, s₂, hvalue, hrest⟩ := bind_eq_ok_iff.1 hrest
      have hcarried := UnitStepwise.carried inferInstance hvalue
      refine ⟨{ d with namedConstants := d.namedConstants ++ [⟨id, result⟩] }, s₂, ⟨hcarried, ?_,
        ⟨[], by simp, by simp⟩, hothers (by simp [hkind]), fun _ hv => .inl hv,
          fun c hc => ?_⟩, hrest⟩
      · simp [Declared.addressed, Declared.constants]
      · rcases List.mem_append.1 hc with hc | hc
        · exact .inl hc
        · obtain rfl := List.mem_singleton.1 hc
          exact .inr ⟨List.mem_singleton.2 rfl, e, value, s, s₂, .refl s, .refl s₂, he,
            hkind, hvalue⟩
    | definedVariable init =>
      simp only [hkind] at hrest
      obtain ⟨v, s₂, hvar, hrest⟩ := bind_eq_ok_iff.1 hrest
      obtain ⟨hentity, -⟩ := staticVariable_eq_ok hvar
      have hcarried := UnitStepwise.carried inferInstance hvar
      refine ⟨{ d with vars := d.vars ++ [v] }, s₂, ⟨hcarried, ?_, ⟨[], by simp, by simp⟩,
        hothers (by simp [hkind]), fun v' hv => ?_, fun _ hc => .inl hc⟩, hrest⟩
      · refine List.perm_iff_count.2 fun x => ?_
        simp only [Declared.addressed, Declared.constants, List.map_append, List.count_append,
          List.map_cons, List.map_nil, hentity]
        omega
      · rcases List.mem_append.1 hv with hv | hv
        · exact .inl hv
        · obtain rfl := List.mem_singleton.1 hv
          exact .inr ⟨by simp [hentity], s, s₂, .refl s, .refl s₂, hentity ▸ hvar⟩

/-! ## Functions -/

variable {f : Ir.Function}

/-- A function, and what its statements mention. -/
theorem function_eq_ok (h : function id s = .ok (f, s')) :
    ∃ e params body, s.entities.get id = .ok e ∧ e.kind = .definedFunction params body ∧
      f = s'.function ∧
      Grown { s with function := { entity := id, params, scope := body.scope }, named := [] } s' ∧
      ∀ stmt ∈ f.body.toList, Knows (.along (body.part.closure s.entities)) stmt.action s' := by
  obtain ⟨e, params, body, s₁, he, hkind, hbody, rfl, rfl⟩ := function_eq_body h
  have hc : (body.part.closure s.entities).Closed s.entities := Source.Part.closed_closure ..
  have hblock : Stepwise (.along (body.part.closure s.entities)) .always (body.lower {})
      (body.evaluated ⟨[]⟩) :=
    stepwise_block hc {} body (fun e he => Source.Occurs.root he) (fun id hid => hid) _
  have hwalked := hblock.walked (s := entered s id params body) hc trivial hbody
  have hreports : Grown s₁ { s₁ with diagnostics :=
      s₁.diagnostics ++ undefinedLabels (s₁.named.filter (!·.isPlaced)) } :=
    .of_same .refl List.prefix_rfl le_rfl (List.prefix_append ..)
  refine ⟨e, params, body, he, hkind, rfl, hwalked.grown.trans hreports, fun stmt hstmt => ?_⟩
  exact (hwalked.moves.known (fun _ hmem => nomatch hmem) stmt hstmt).grown hreports

/-- Static local variables are lowered one after another. -/
theorem staticLocals_eq_ok {before before' : List String} {ids : List EntityId}
    {vars : List Ir.StaticVariable}
    (h : staticLocals before ids s = .ok ((before', vars), s')) :
    vars.map (·.entity) = ids ∧ Carried s s' ∧ ∀ v ∈ vars, ∃ s₁ s₂, Carried s s₁ ∧
      Carried s₂ s' ∧ staticVariable v.entity s₁ = .ok (v, s₂) := by
  -- by induction on the list: each variable is numbered, then its initializer is lowered
  induction ids generalizing before before' vars s with
  | nil =>
    obtain ⟨hpair, rfl⟩ := Prod.mk.inj (Except.ok.inj h)
    obtain ⟨-, rfl⟩ := Prod.mk.inj hpair
    exact ⟨rfl, .refl s, by simp⟩
  | cons id ids ih =>
    obtain ⟨names, s₁, hnumber, h⟩ := bind_eq_ok_iff.1 h
    obtain ⟨v, s₂, hvar, h⟩ := bind_eq_ok_iff.1 h
    obtain ⟨⟨before₁, vs⟩, s₃, hothers, h⟩ := bind_eq_ok_iff.1 h
    obtain ⟨hpair, rfl⟩ := Prod.mk.inj (Except.ok.inj h)
    obtain ⟨-, rfl⟩ := Prod.mk.inj hpair
    have h₁ : Carried s s₁ := UnitStepwise.carried inferInstance hnumber
    have h₂ := UnitStepwise.carried inferInstance hvar
    obtain ⟨hmap, h₃, hstatic⟩ := ih hothers
    obtain ⟨rfl, -⟩ := staticVariable_eq_ok hvar
    refine ⟨by simp [hmap], h₁.trans (h₂.trans h₃), fun w hw => ?_⟩
    rcases List.mem_cons.1 hw with rfl | hw
    · exact ⟨s₁, s₂, h₁, h₃, hvar⟩
    · obtain ⟨s₄, s₅, h₄, h₅, hw⟩ := hstatic w hw
      exact ⟨s₄, s₅, h₁.trans (h₂.trans h₄), h₅, hw⟩

/-- Functions that were lowered one after another, with their static variables. -/
inductive FunctionsFrom : List EntityId → LowerState → List Ir.Function →
    List Ir.StaticVariable → LowerState → Prop where
  | nil {s : LowerState} : FunctionsFrom [] s [] [] s
  | cons {id : EntityId} {ids statics : List EntityId} {s s₁ s₂ s₃ : LowerState}
    {f : Ir.Function} {fs : List Ir.Function} {before before' : List String}
    {vars more : List Ir.StaticVariable} (hf : function id s = .ok (f, s₁))
    (hstatics : f.scope.staticVariables s₁.entities = .ok statics)
    (hvars : staticLocals before statics s₁ = .ok ((before', vars), s₂))
    (rest : FunctionsFrom ids s₂ fs more s₃) :
    FunctionsFrom (id :: ids) s (f :: fs) (vars ++ more) s₃

/-- Functions are lowered one after another, each with its static variables. -/
theorem functionsFrom_of_ok {before : List String} {ids : List EntityId} {fs : List Ir.Function}
    {vars : List Ir.StaticVariable} (h : functions before ids s = .ok ((fs, vars), s')) :
    FunctionsFrom ids s fs vars s' := by
  induction ids generalizing before fs vars s with
  | nil =>
    obtain ⟨hpair, rfl⟩ := Prod.mk.inj (Except.ok.inj h)
    obtain ⟨rfl, rfl⟩ := Prod.mk.inj hpair
    exact .nil
  | cons id ids ih =>
    obtain ⟨f, s₁, hf, h⟩ := bind_eq_ok_iff.1 h
    obtain ⟨statics, hstatics, h⟩ := lift_bind_eq_ok (get_bind_eq_ok h)
    obtain ⟨⟨before', vars⟩, s₂, hlocals, h⟩ := bind_eq_ok_iff.1 h
    obtain ⟨⟨fs, more⟩, s₃, hfs, h⟩ := bind_eq_ok_iff.1 h
    obtain ⟨hpair, rfl⟩ := Prod.mk.inj (Except.ok.inj h)
    obtain ⟨rfl, rfl⟩ := Prod.mk.inj hpair
    exact .cons hf hstatics hlocals (ih hfs)

namespace FunctionsFrom

variable {ids : List EntityId} {fs : List Ir.Function} {vars : List Ir.StaticVariable}

theorem carried_function (h : function id s = .ok (f, s')) : Carried s s' :=
  UnitStepwise.carried inferInstance h

theorem carried (h : FunctionsFrom ids s fs vars s') : Carried s s' := by
  induction h with
  | nil => exact .refl _
  | cons hf _ hvars _ ih =>
    exact (carried_function hf).trans ((staticLocals_eq_ok hvars).2.1.trans ih)

/-- Each function was lowered on the way, and its static variables are among those of the unit. -/
theorem function (h : FunctionsFrom ids s fs vars s') (hf : f ∈ fs) :
    ∃ id ∈ ids, ∃ s₁ s₂ statics, Carried s s₁ ∧ Carried s₂ s' ∧ Lower.function id s₁ = .ok (f, s₂) ∧
      f.scope.staticVariables s₂.entities = .ok statics ∧
      ∀ v ∈ statics, v ∈ vars.map (·.entity) := by
  induction h with
  | nil => cases hf
  | cons hg hstatics hvars hrest ih =>
    obtain ⟨hmap, hbetween, -⟩ := staticLocals_eq_ok hvars
    rcases List.mem_cons.1 hf with rfl | hf
    · refine ⟨_, List.mem_cons_self, _, _, _, .refl _, hbetween.trans hrest.carried, hg, hstatics,
        fun v hv => ?_⟩
      rw [List.map_append, hmap]
      exact List.mem_append_left _ hv
    · obtain ⟨id, hid, s₁, s₂, statics, h₁, h₂, hf, hselect, hmem⟩ := ih hf
      refine ⟨id, List.mem_cons_of_mem _ hid, s₁, s₂, statics,
        (carried_function hg).trans (hbetween.trans h₁), h₂, hf, hselect, fun v hv => ?_⟩
      rw [List.map_append]
      exact List.mem_append_right _ (hmem v hv)

/-- Each static variable belongs to a function, and was lowered on the way. -/
theorem static (h : FunctionsFrom ids s fs vars s') {v : Ir.StaticVariable} (hv : v ∈ vars) :
    ∃ f ∈ fs, ∃ s₁ s₂ e, Carried s s₁ ∧ Carried s₂ s' ∧
      staticVariable v.entity s₁ = .ok (v, s₂) ∧ v.entity ∈ f.scope.variablesOfTree ∧
      s₁.entities.get v.entity = .ok e ∧ e.isPrivate = true := by
  induction h with
  | nil => cases hv
  | cons hf hstatics hvars hrest ih =>
    obtain ⟨hmap, hbetween, hstatic⟩ := staticLocals_eq_ok hvars
    rcases List.mem_append.1 hv with hv | hv
    · obtain ⟨s₁, s₂, h₁, h₂, hrun⟩ := hstatic v hv
      have hmem := List.mem_map_of_mem (f := (·.entity)) hv
      rw [hmap, (EntityTable.selectPrivate_eq_ok hstatics).1] at hmem
      obtain ⟨htree, e, he, hprivate⟩ := EntityTable.mem_withPrivacy.1 hmem
      obtain ⟨e', he', sequence, rfl⟩ := h₁.entities he
      exact ⟨_, List.mem_cons_self, s₁, s₂, _, (carried_function hf).trans h₁,
        h₂.trans hrest.carried, hrun, htree, he', hprivate⟩
    · obtain ⟨g, hg, s₁, s₂, e, h₁, h₂, hrun⟩ := ih hv
      exact ⟨g, List.mem_cons_of_mem _ hg, s₁, s₂, e,
        (carried_function hf).trans (hbetween.trans h₁), h₂, hrun⟩

end FunctionsFrom

end Lower

end Backend386
