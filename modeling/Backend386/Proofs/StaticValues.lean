import Backend386.Proofs.I386.Symbols
import Backend386.Proofs.PlacedOnce

/-!
# Static values

The values of constants and of variables with static storage are reduced to literals and addresses.
An address is accepted whatever it is the address of, so the assembler knows it only if the
initializer names nothing but static storage.

* `Source.Program.IsStatic` — entities with static storage;
* `Source.Program.StaticallyInitialized` — static initializers name only such entities;
* `Source.ProgramUnit.static_values` — then all addresses in the data are known;
* `Source.ProgramUnit.static_values_stack` — otherwise they need not be.
-/

namespace Backend386

/-! ## Static storage -/

namespace Source.Program

/-- An entity that is declared, or is a static variable of a declared function. -/
def IsStatic (p : Source.Program) (v : EntityId) : Prop :=
  v ∈ p.declarations ∨ ∃ id ∈ p.declarations, ∃ f params body e, p.entities.get id = .ok f ∧
    f.kind = .definedFunction params body ∧ v ∈ body.scope.variablesOfTree ∧
    p.entities.get v = .ok e ∧ e.isPrivate = true

/-- The initializers of static storage, and the constants that are inlined into them, name only
constants and what has static storage itself. -/
def StaticallyInitialized (p : Source.Program) : Prop :=
  ∀ id e init, p.IsStatic id → p.entities.get id = .ok e →
    (e.initializer? = some init ∨ e.constantValue? = some init) →
    ∀ n v, (init.part.closure p.entities).exprs (.var n v) →
      p.IsStatic v ∨ ∃ c, p.entities.get v = .ok c ∧ c.isConstant = true

end Source.Program

/-- A literal, or the address of something with static storage. -/
def Ir.Module.Knows (m : Ir.Module) : Ir.Expr → Prop
  | .int .. | .str .. => True
  | .addr _ v => v ∈ m.addressed
  | _ => False

namespace Lowering

variable {p : Source.Program} {types : TypeTable} {ds : Diagnostics} {lowered : Lowered}

/-- The static variables of a declared function are among those of the module. -/
theorem static_local (l : Lowering p types ds lowered) {id v : EntityId} {f e : Entity}
    {params : List EntityId} {body : Source.Block} (hid : id ∈ p.declarations)
    (hf : p.entities.get id = .ok f) (hkind : f.kind = .definedFunction params body)
    (hv : v ∈ body.scope.variablesOfTree) (he : p.entities.get v = .ok e)
    (hprivate : e.isPrivate = true) : v ∈ lowered.module.addressed := by
  obtain ⟨f₁, hf₁, type, uses, sequence, rfl⟩ := (l.readied (.refl l.start)).passes hf
  have hfunction := l.declares.defined id hid _ params body hf₁ hkind
  rw [← l.functionsFrom.map_entity] at hfunction
  obtain ⟨g, hg, rfl⟩ := List.mem_map.1 hfunction
  obtain ⟨id, -, s₁, s₂, statics, h₁, -, hrun, hstatics, hmem⟩ := l.functionsFrom.function hg
  have hready := l.readied (l.declares.carried.trans h₁)
  have hlater := hready.carried (Lower.FunctionsFrom.carried_function hrun)
  obtain ⟨f₂, params', body', hf₂, hkind', rfl, hgrown, -⟩ := Lower.function_eq_ok hrun
  -- the function that was lowered is the one that is declared
  obtain ⟨f₃, hf₃, type, uses, sequence, rfl⟩ := hready.passes (hgrown.entity ▸ hf)
  obtain rfl := Except.ok.inj (hf₂.symm.trans hf₃)
  obtain ⟨rfl, rfl⟩ := EntityKind.definedFunction.inj (hkind'.symm.trans hkind)
  obtain ⟨count, -, htree⟩ := hgrown.variablesOfTree
  obtain ⟨e₂, he₂, type, uses, sequence, rfl⟩ := hlater.passes he
  rw [Ir.Module.addressed, l.vars, List.map_append]
  refine List.mem_append_left _ (List.mem_append_right _ (hmem v ?_))
  rw [(EntityTable.selectPrivate_eq_ok hstatics).1]
  exact EntityTable.mem_withPrivacy.2
    ⟨htree.mem_iff.2 (List.mem_append_left _ hv), _, he₂, hprivate⟩

/-- What has static storage in the program has it in the module, constants apart. -/
theorem static_addressed (l : Lowering p types ds lowered) {v : EntityId} (hv : p.IsStatic v) :
    v ∈ lowered.module.addressed ∨ ∃ c, p.entities.get v = .ok c ∧ c.isConstant = true := by
  obtain hv | ⟨id, hid, f, params, body, e, hf, hkind, hv, he, hprivate⟩ := hv
  · exact l.addressed_or_constant hv
  · exact .inl (l.static_local hid hf hkind hv he hprivate)

/-- The static variables of the module have static storage in the program. -/
theorem isStatic_of_static (l : Lowering p types ds lowered) {f : Ir.Function}
    (hf : f ∈ lowered.module.functions) {s : LowerState} (hs : Lower.Carried l.start s)
    {v : EntityId} (hv : v ∈ f.scope.variablesOfTree) {e : Entity} (he : s.entities.get v = .ok e)
    (hprivate : e.isPrivate = true) : p.IsStatic v := by
  obtain ⟨id, hid, s₁, s₂, statics, h₁, h₂, hrun, -⟩ := l.functionsFrom.function hf
  have hready := l.readied (l.declares.carried.trans h₁)
  obtain ⟨f₁, params, body, hf₁, hkind, rfl, hgrown, -⟩ := Lower.function_eq_ok hrun
  obtain ⟨count, -, htree⟩ := hgrown.variablesOfTree
  rcases (l.readied hs).get_cases he with ⟨e₀, he₀, type, uses, sequence, rfl⟩ | ⟨htemp, -⟩
  · rcases hready.get_cases hf₁ with ⟨f₀, hf₀, type, uses, sequence, rfl⟩ | ⟨htemp, -⟩
    · rcases List.mem_append.1 (htree.mem_iff.1 hv) with hv | hv
      · exact .inr ⟨id, l.declared_functions.mem hid, f₀, params, body, e₀, hf₀, hkind, hv, he₀,
          hprivate⟩
      · -- a temporary is no entity of the program
        have hlt := EntityTable.lt_of_get he₀
        have hle := hready.passes.size_le
        have hv := (Lower.mem_idsFrom.1 hv).1
        omega
    · rw [htemp.kind] at hkind
      cases hkind
  · rw [htemp.automatic] at hprivate
    cases hprivate

/-- A value that was reduced to a literal or an address is known to the assembler if the initializer
names only static storage. -/
theorem knows (l : Lowering p types ds lowered) (h : p.StaticallyInitialized) {id : EntityId}
    (hid : p.IsStatic id) {s s' : LowerState} (hs : Lower.Carried l.start s) {e : Entity}
    (he : s.entities.get id = .ok e) {init : Source.Expr}
    (hinit : e.initializer? = some init ∨ e.constantValue? = some init) {x : Ir.Expr}
    (hx : Lower.constant? id init s = .ok (some x, s')) : lowered.module.Knows x := by
  have hready := l.readied hs
  obtain ⟨-, -, -, -, hconstant⟩ := Lower.constant?_eq_ok hx
  cases x with
  | int w v | str w v => trivial
  | addr w v =>
    obtain ⟨n, d, hnamed, hd, hnone⟩ := Lower.constant?_names hx
    rcases hready.get_cases he with ⟨e₀, he₀, type, uses, sequence, rfl⟩ | ⟨htemp, -⟩
    · have hcases : p.IsStatic v ∨ ∃ c, p.entities.get v = .ok c ∧ c.isConstant = true :=
        h id e₀ init hid he₀ hinit n v (hready.occurs hnamed)
      -- a constant would have been inlined
      have hnot : ¬ ∃ c, p.entities.get v = .ok c ∧ c.isConstant = true := by
        rintro ⟨c, hc, hconstant⟩
        obtain ⟨c', hc', type, uses, sequence, rfl⟩ := hready.passes hc
        obtain rfl := Except.ok.inj (hc'.symm.trans hd)
        exact Entity.not_isConstant hnone hconstant
      exact (l.static_addressed (hcases.resolve_right hnot)).resolve_right hnot
    · rw [Entity.initializer?, Entity.constantValue?, htemp.kind] at hinit
      rcases hinit with hinit | hinit <;> cases hinit
  | _ => cases hconstant

end Lowering

/-- In a unit whose static initializers name only static storage, every initializer and every value
of a constant is a literal or the address of a declared variable or function or of a static local
variable. So every address that is stored in the data is that of a symbol which the listing defines,
or of one that is defined elsewhere. -/
theorem Source.ProgramUnit.static_values {unit : Source.ProgramUnit} {profile : WidthProfile}
    {lowered : Lowered} (h : unit.Lowers profile lowered)
    (hstatic : unit.program.StaticallyInitialized) :
    (∀ v ∈ lowered.module.vars, ∀ x, v.init = some x → lowered.module.Knows x) ∧
    (∀ c ∈ lowered.module.namedConstants, ∃ x, c.value = some x ∧ lowered.module.Knows x) ∧
    ∀ options code, lowered.module.assemble lowered.types options = .ok code →
      ∀ s ∈ code.stored, s ∈ code.defined ∨
        ∃ id ∈ lowered.module.undefined, ∃ e, lowered.module.entities.get id = .ok e ∧
          e.symbol = s := by
  obtain ⟨types, ds, htypes, hchecked, hlower, hquiet⟩ := h
  obtain ⟨l⟩ := lowering_of_ok hlower
  have hvars : ∀ v ∈ lowered.module.vars, ∀ x, v.init = some x → lowered.module.Knows x := by
    intro v hv x hx
    rw [l.vars] at hv
    -- both kinds of static variables were lowered in a state on the way
    obtain ⟨s₁, s₂, h₁, hrun, hid⟩ : ∃ s₁ s₂, Lower.Carried l.start s₁ ∧
        Lower.staticVariable v.entity s₁ = .ok (v, s₂) ∧ unit.program.IsStatic v.entity := by
      rcases List.mem_append.1 hv with hv | hv
      · rcases l.declares.var v hv with hv | ⟨hid, s₁, s₂, h₁, -, hrun⟩
        · cases hv
        · exact ⟨s₁, s₂, h₁, hrun, .inl hid⟩
      · obtain ⟨f, hf, s₁, s₂, e, h₁, -, hrun, htree, he, hprivate⟩ := l.functionsFrom.static hv
        have hs := l.declares.carried.trans h₁
        exact ⟨s₁, s₂, hs, hrun, l.isStatic_of_static hf hs htree he hprivate⟩
    obtain ⟨-, hinit⟩ := Lower.staticVariable_eq_ok hrun
    obtain ⟨e, init, he, hinit, hvalue⟩ := hinit x hx
    exact l.knows hstatic hid h₁ he (.inl hinit) hvalue
  refine ⟨hvars, fun c hc => ?_, fun options code hcode s hs => ?_⟩
  · obtain ⟨x, hx, -⟩ := l.constant_value hquiet hc
    rw [l.namedConstants] at hc
    rcases l.declares.constant c hc with hc | ⟨hid, e, value, s₁, s₂, h₁, -, he, hkind, hrun⟩
    · cases hc
    rcases Lower.staticValue_eq_ok hrun with ⟨y, hy, hvalue⟩ | ⟨hnone, -⟩
    · refine ⟨y, hy, l.knows hstatic (.inl hid) h₁ he (.inr ?_) hvalue⟩
      rw [Entity.constantValue?, hkind]
    · rw [hx] at hnone
      cases hnone
  · rcases Ir.Module.stored_cases hcode hs with hs | ⟨v, hv, w, id, e, hinit, he, rfl⟩
    · exact .inl hs
    · have hknown : id ∈ lowered.module.addressed := hvars v hv _ hinit
      simp only [Ir.Module.addressed, List.mem_append] at hknown
      rcases hknown with hid | hid | hid
      · exact .inl (Ir.Module.defined_symbol hcode (.inl hid) he)
      · exact .inr ⟨id, hid, e, he, rfl⟩
      · exact .inl (Ir.Module.defined_symbol hcode (.inr hid) he)

/-- The unit `extern int limit; const int *const bound = &limit; void next(void) { static int total;
static int *p = &total; static const int *q = bound; }`. -/
def pointers : Source.ProgramUnit where
  program :=
    let int : TypeRef := .integer .int true
    let pointer : Source.Note := { type := .pointer int }
    { entities := ⟨[
        { name := "limit", ref := int, kind := .undefinedVariable },
        { name := "bound", ref := .pointer int,
          kind := .constant (.addr pointer (.var .int ⟨0⟩)) },
        { name := "next", ref := .function .void [] false,
          kind := .definedFunction [] (.mk [⟨3⟩, ⟨4⟩, ⟨5⟩] []) },
        { name := "total", ref := int, isPrivate := true, kind := .definedVariable none },
        { name := "p", ref := .pointer int, isPrivate := true,
          kind := .definedVariable (some (.addr pointer (.var .int ⟨3⟩))) },
        { name := "q", ref := .pointer int, isPrivate := true,
          kind := .definedVariable (some (.var pointer ⟨1⟩)) }]⟩
      declarations := [⟨0⟩, ⟨1⟩, ⟨2⟩] }

/-- All entities of the unit have static storage. -/
theorem pointers_isStatic {v : EntityId} (h : v ∈ [⟨0⟩, ⟨1⟩, ⟨2⟩, ⟨3⟩, ⟨4⟩, ⟨5⟩]) :
    pointers.program.IsStatic v := by
  simp only [List.mem_cons, List.not_mem_nil, or_false] at h
  rcases h with rfl | rfl | rfl | h
  · exact .inl (by decide)
  · exact .inl (by decide)
  · exact .inl (by decide)
  · rcases h with rfl | rfl | rfl <;>
      exact .inr ⟨⟨2⟩, by decide, _, _, _, _, rfl, rfl, by decide, rfl, rfl⟩

/-- The example initializes its static variables by addresses of others. -/
theorem pointers_staticallyInitialized : pointers.program.StaticallyInitialized := by
  intro id e init hid he hinit n v hv
  refine .inl (pointers_isStatic ?_)
  refine hv.uses (· ∈ _) ?_ ?_ nofun v (List.mem_singleton.2 rfl)
  · rintro _ rfl
    have hmem := EntityTable.mem_of_get he
    simp only [pointers, List.mem_cons, List.not_mem_nil, or_false] at hmem
    rcases hmem with rfl | rfl | rfl | rfl | rfl | rfl <;>
      simp only [Entity.initializer?, Entity.constantValue?, reduceCtorEq, or_self, or_false,
        false_or, Option.some.injEq] at hinit <;>
      subst hinit <;> simp [Source.Expr.uses]
  · simp [pointers, Entity.constantValue?, Source.Expr.uses]

/-- The addresses of the variable that is defined elsewhere and of the static variable are stored.
-/
theorem Source.ProgramUnit.static_values_pointers :
    ∃ lowered code, pointers.Lowers .ilp32 lowered ∧
      lowered.module.assemble lowered.types {} = .ok code ∧ code.stored = ["total.0", "limit"] ∧
      ∀ s ∈ code.stored, s ∈ code.defined ∨
        ∃ id ∈ lowered.module.undefined, ∃ e, lowered.module.entities.get id = .ok e ∧
          e.symbol = s := by
  obtain ⟨lowered, hlowers, hseen⟩ := exists_lowers pointers .ilp32
    (fun lowered => (lowered.module.assemble lowered.types {}).toOption.map Listing.stored)
    (some ["total.0", "limit"]) (by decide +kernel)
  cases hcode : lowered.module.assemble lowered.types {} with
  | error fault =>
    rw [hcode] at hseen
    cases hseen
  | ok code =>
    rw [hcode] at hseen
    exact ⟨lowered, code, hlowers, hcode, Option.some.inj hseen,
      (static_values hlowers pointers_staticallyInitialized).2.2 {} code hcode⟩

/-- The unit `void f(void) { int x; static int *p = &x; }`. -/
def stackAddress : Source.ProgramUnit where
  program :=
    let int : TypeRef := .integer .int true
    { entities := ⟨[
        { name := "x", ref := int, kind := .definedVariable none },
        { name := "p", ref := .pointer int, isPrivate := true,
          kind := .definedVariable (some (.addr { type := .pointer int } (.var .int ⟨0⟩))) },
        { name := "f", ref := .function .void [] false,
          kind := .definedFunction [] (.mk [⟨0⟩, ⟨1⟩] []) }]⟩
      declarations := [⟨2⟩] }

/-- The counterexample declares what it uses. -/
theorem stackAddress_wellScoped : stackAddress.program.WellScoped where
  declared := by
    intro id hid
    obtain rfl := List.mem_singleton.1 hid
    exact ⟨_, rfl, rfl⟩
  locals := by decide
  nodup := by decide
  -- one function, and it names one variable of its block
  named := by
    intro id hid f params body hf hkind n v hv
    obtain rfl := List.mem_singleton.1 hid
    obtain rfl := Except.ok.inj hf
    obtain ⟨rfl, rfl⟩ := EntityKind.definedFunction.inj hkind
    suffices hmem : v ∈ [⟨0⟩] by
      obtain rfl := List.mem_singleton.1 hmem
      exact .inr (.inr (by decide))
    refine hv.uses (· ∈ _) ?_ ?_ ?_ v (List.mem_singleton.2 rfl)
    · simp [Source.Block.part, Source.Block.exprs, Source.exprsOfStmts]
    · simp [stackAddress, Entity.constantValue?]
    · simp [Source.Block.part, Source.Block.scope, Scope.variablesOfTree, Scope.variablesOfTrees,
        Source.scopesOfStmts, stackAddress, EntityTable.get, Entity.initializer?,
        Source.Expr.uses]
  unplaced := by
    intro id e he
    have hmem := EntityTable.mem_of_get he
    simp only [stackAddress, List.mem_cons, List.not_mem_nil, or_false] at hmem
    rcases hmem with rfl | rfl | rfl <;> rfl

/-- The address of a variable on the stack is accepted as the initializer of a static variable, and
stored under a symbol that nothing defines. -/
theorem Source.ProgramUnit.static_values_stack :
    stackAddress.program.WellScoped ∧ ∃ lowered code, stackAddress.Lowers .ilp32 lowered ∧
      lowered.module.assemble lowered.types {} = .ok code ∧
      lowered.module.vars.map (fun v => (v.entity, v.init)) = [(⟨1⟩, some (.addr .w32 ⟨0⟩))] ∧
      ⟨0⟩ ∉ lowered.module.addressed ∧ code.stored = ["x"] ∧ "x" ∉ code.defined ∧
      lowered.module.undefined = [] := by
  refine ⟨stackAddress_wellScoped, ?_⟩
  -- the kernel compiles the unit once, and all that is claimed is read off the result
  obtain ⟨lowered, hlowers, hseen⟩ := exists_lowers stackAddress .ilp32
    (fun lowered =>
      (lowered.module.vars.map fun v => (v.entity, v.init), lowered.module.addressed,
        lowered.module.undefined, (lowered.module.assemble lowered.types {}).toOption.map
          fun code => (code.stored, code.defined)))
    ([(⟨1⟩, some (.addr .w32 ⟨0⟩))], [⟨1⟩, ⟨2⟩], [], some (["x"], ["p.0", "f", ".L0"]))
    rfl
  simp only [Prod.mk.injEq] at hseen
  obtain ⟨hvars, haddressed, hundefined, hlisting⟩ := hseen
  cases hcode : lowered.module.assemble lowered.types {} with
  | error fault =>
    rw [hcode] at hlisting
    cases hlisting
  | ok code =>
    rw [hcode] at hlisting
    obtain ⟨hstored, hdefined⟩ := Prod.mk.inj (Option.some.inj hlisting)
    refine ⟨lowered, code, hlowers, hcode, hvars, ?_, hstored, ?_, hundefined⟩
    · rw [haddressed]
      decide
    · rw [hdefined]
      decide

end Backend386
