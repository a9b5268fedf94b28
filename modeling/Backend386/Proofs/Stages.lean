import Backend386.Pipeline
import Backend386.Proofs.Lowering.PairedLabels
import Backend386.Proofs.Lowering.UnitRuns
import Backend386.Proofs.Types.Check

/-!
# The stages of the pipeline

What is known when the stages of the pipeline have succeeded: the checked types are sound, every
entity has a type, and the tables that the lowering leaves behind go on from those it began with.

* `checkedTypes_sound` — the types that pass the check;
* `Lowering` — the lowering of a program, stage by stage, and `exists_lowering` — every successful
  lowering goes through them, and then warns about unused variables;
* `Lowering.readied` — in every state of the lowering, the entities are those of the program and
  temporaries;
* `Source.ProgramUnit.Lowers` — a unit gets as far as the code generator;
* `compile_stages` — every unit that gives intermediate code or a listing was lowered without
  errors, and `compile_diagnostics` — what is reported about a unit that is lowered.
-/

namespace Backend386

theorem Diagnostics.errorCount_eq_zero {ds : Diagnostics} (h : ds.hasErrors = false) :
    ds.errorCount = 0 := by
  simpa [hasErrors] using h

/-! ## Types -/

section

variable {profile : WidthProfile} {definitions : List TypeDefinition} {types : TypeTable}
  {ds : Diagnostics}

/-- Types are complete when they are checked. -/
theorem checkedTypes_complete (h : checkedTypes profile definitions = .ok (types, ds)) :
    types.Complete ∧ types.profile = profile ∧ types.check [] = .ok ds := by
  obtain ⟨t, hdefine, hsettle, hcheck⟩ := checkedTypes_eq_ok_iff.1 h
  have hreachable := TypeTable.Reachable.initial.defineAll hdefine
  obtain ⟨hcomplete, hprofile⟩ := hreachable.wellFormed.1.settle hsettle
  exact ⟨hcomplete, hprofile.trans hreachable.wellFormed.2, hcheck⟩

/-- Types that pass the check are complete and sound. -/
theorem checkedTypes_sound (h : checkedTypes profile definitions = .ok (types, ds))
    (hquiet : ds.hasErrors = false) : types.Complete ∧ types.Sound ∧ types.profile = profile := by
  obtain ⟨hcomplete, hprofile, hcheck⟩ := checkedTypes_complete h
  refine ⟨hcomplete, hcomplete.sound_of_check hcheck ?_, hprofile⟩
  rw [Diagnostics.errorCount_eq_zero hquiet]
  rfl

/-- The check of the types gives no warnings. -/
theorem checkedTypes_warnings (h : checkedTypes profile definitions = .ok (types, ds)) :
    ds.warnings = [] := by
  obtain ⟨hcomplete, -, hcheck⟩ := checkedTypes_complete h
  obtain ⟨ds', hcheck', hadds, -⟩ := hcomplete.reports_check []
  obtain rfl := Except.ok.inj (hcheck.symm.trans hcheck')
  exact hadds.warnings

end

/-- Settling the types of entities keeps those that are registered. -/
theorem EntityTable.settleTypesOf_extends {types types' : TypeTable} {es es' : List Entity}
    (h : settleTypesOf types es = .ok (types', es')) : types.Extends types' := by
  induction es generalizing types es' with
  | nil =>
    obtain ⟨rfl, -⟩ := Prod.mk.inj (Except.ok.inj h)
    exact .refl
  | cons e es ih =>
    obtain ⟨⟨types₁, e₁⟩, he, h⟩ := bind_eq_ok_iff.1 h
    obtain ⟨⟨types₂, es₁⟩, hes, h⟩ := bind_eq_ok_iff.1 h
    obtain ⟨rfl, rfl⟩ := Prod.mk.inj (Except.ok.inj h)
    rcases settleType_eq_ok he with ⟨rfl, -⟩ | ⟨ref, type, -, hintern, -⟩
    · exact ih hes
    · exact (TypeTable.intern_extends hintern).1.trans (ih hes)

/-! ## Lowering -/

/-- The lowering of a program, stage by stage. -/
structure Lowering (p : Source.Program) (types : TypeTable) (ds : Diagnostics)
    (lowered : Lowered) where
  /-- the types once those of the entities are looked up -/
  typed : TypeTable
  /-- the program whose entities have types and counted uses -/
  program : Source.Program
  /-- what the declarations amount to -/
  declared : Lower.Declared
  statics : List Ir.StaticVariable
  /-- the states between the two rounds and behind them -/
  between : LowerState
  final : LowerState
  settle : ∃ entities, p.entities.settleTypes types = .ok (typed, entities) ∧
    { p with entities }.markUses = .ok program
  declare : Lower.declare {} program.declarations
    { types := typed, entities := program.entities, diagnostics := ds } = .ok (declared, between)
  functions : Lower.functions [] declared.functions between =
    .ok ((lowered.module.functions, statics), final)
  entities : lowered.module.entities = final.entities
  strings : lowered.module.strings = final.strings
  vars : lowered.module.vars = declared.vars ++ statics
  namedConstants : lowered.module.namedConstants = declared.namedConstants
  undefined : lowered.module.undefined = declared.undefined
  types_eq : lowered.types = final.types
  /-- warnings may follow -/
  diagnostics : final.diagnostics <+: lowered.diagnostics

/-- The warning about a variable, if nothing uses it. -/
def Entity.unused? (e : Entity) : Option Diagnostic :=
  if e.isUsed || e.isTemporary then none
  else some ⟨.warning, "unused variable: " ++ e.name, e.location⟩

/-- The warning about a variable of a table, if nothing uses it. -/
def EntityTable.unused? (t : EntityTable) (id : EntityId) : Option Diagnostic :=
  (t.get id).toOption.bind (·.unused?)

/-- Unused variables are warnings. -/
theorem EntityTable.severity_unused {t : EntityTable} {ids : List EntityId} {d : Diagnostic}
    (h : d ∈ ids.filterMap t.unused?) : d.severity = .warning := by
  obtain ⟨id, -, hid⟩ := List.mem_filterMap.1 h
  obtain ⟨e, -, he⟩ := Option.bind_eq_some_iff.1 hid
  rw [Entity.unused?] at he
  split at he
  · cases he
  · obtain rfl := Option.some.inj he
    rfl

/-- The unused variables of a tree are warned about in the order of the tree. -/
theorem Scope.reportUnused_eq_ok {scope : Scope} {entities : EntityTable} {ds ds' : Diagnostics}
    (h : scope.reportUnused entities ds = .ok ds') :
    ds' = ds ++ scope.variablesOfTree.filterMap entities.unused? := by
  unfold reportUnused at h
  generalize scope.variablesOfTree = ids at h ⊢
  induction ids generalizing ds with
  | nil =>
    obtain rfl := Except.ok.inj h
    exact (List.append_nil _).symm
  | cons id ids ih =>
    rw [List.foldlM_cons] at h
    obtain ⟨ds₁, hstep, h⟩ := bind_eq_ok_iff.1 h
    obtain ⟨e, he, hstep⟩ := bind_eq_ok_iff.1 hstep
    have hunused : entities.unused? id = e.unused? := by rw [EntityTable.unused?, he]; rfl
    rw [ih h, List.filterMap_cons, hunused, Entity.unused?]
    split at hstep
    · next hused =>
      obtain rfl := Except.ok.inj hstep
      rw [if_pos hused]
    · next hused =>
      obtain rfl := Except.ok.inj hstep
      rw [if_neg hused]
      simp [Diagnostics.warn, Diagnostics.report]

/-- The functions are gone through one after another. -/
theorem reportUnused_functions {fs : List Ir.Function} {entities : EntityTable}
    {ds ds' : Diagnostics}
    (h : fs.foldlM (fun ds f => f.scope.reportUnused entities ds) ds = .ok ds') :
    ds' = ds ++ (fs.flatMap (·.scope.variablesOfTree)).filterMap entities.unused? := by
  induction fs generalizing ds with
  | nil =>
    obtain rfl := Except.ok.inj h
    exact (List.append_nil _).symm
  | cons f fs ih =>
    rw [List.foldlM_cons] at h
    obtain ⟨ds₁, hstep, h⟩ := bind_eq_ok_iff.1 h
    rw [ih h, Scope.reportUnused_eq_ok hstep, List.flatMap_cons, List.filterMap_append,
      List.append_assoc]

/-- A lowering goes through its stages, and then warns about the variables that nothing uses. -/
theorem exists_lowering {p : Source.Program} {types : TypeTable} {ds : Diagnostics}
    {lowered : Lowered} (h : lowerProgram p types ds = .ok lowered) :
    ∃ l : Lowering p types ds lowered, lowered.diagnostics = l.final.diagnostics ++
      (lowered.module.functions.flatMap (·.scope.variablesOfTree)).filterMap
        lowered.module.entities.unused? := by
  obtain ⟨⟨typed, entities⟩, hsettle, h⟩ := bind_eq_ok_iff.1 h
  obtain ⟨program, hmark, h⟩ := bind_eq_ok_iff.1 h
  obtain ⟨lowered', hlower, h⟩ := bind_eq_ok_iff.1 h
  obtain ⟨ds', hunused, h⟩ := bind_eq_ok_iff.1 h
  obtain rfl := Except.ok.inj h
  obtain ⟨⟨result, final⟩, hwork, hlowered⟩ := bind_eq_ok_iff.1 hlower
  obtain rfl := Except.ok.inj hlowered
  obtain ⟨declared, between, hdeclare, hrest⟩ := Lower.bind_eq_ok_iff.1 hwork
  obtain ⟨⟨fs, statics⟩, s, hfunctions, hpure⟩ := Lower.bind_eq_ok_iff.1 hrest
  obtain ⟨rfl, rfl⟩ := Prod.mk.inj (Except.ok.inj hpure)
  have hwarned := reportUnused_functions hunused
  exact ⟨⟨typed, program, declared, statics, between, s, ⟨entities, hsettle, hmark⟩, hdeclare,
    hfunctions, rfl, rfl, rfl, rfl, rfl, rfl, hwarned ▸ List.prefix_append ..⟩, hwarned⟩

theorem lowering_of_ok {p : Source.Program} {types : TypeTable} {ds : Diagnostics}
    {lowered : Lowered} (h : lowerProgram p types ds = .ok lowered) :
    Nonempty (Lowering p types ds lowered) := by
  obtain ⟨l, -⟩ := exists_lowering h
  exact ⟨l⟩

namespace Lowering

variable {p : Source.Program} {types : TypeTable} {ds : Diagnostics} {lowered : Lowered}

/-- The state in which the first round begins. -/
def start (l : Lowering p types ds lowered) : LowerState :=
  { types := l.typed, entities := l.program.entities, diagnostics := ds }

/-- The types of the entities are looked up first. -/
theorem typed_extends (l : Lowering p types ds lowered) : types.Extends l.typed := by
  obtain ⟨entities, hsettle, -⟩ := l.settle
  obtain ⟨⟨types₁, es⟩, hes, h⟩ := bind_eq_ok_iff.1 hsettle
  obtain ⟨rfl, -⟩ := Prod.mk.inj (Except.ok.inj h)
  exact EntityTable.settleTypesOf_extends hes

/-- Every entity of the program has a type when the lowering begins. -/
theorem entities_typed (l : Lowering p types ds lowered) :
    EntityTable.Passes (fun e e' => ∃ type uses, e' = { e with type := .settled type, uses })
      p.entities l.program.entities ∧ l.program.entities.size = p.entities.size ∧
      l.program.declarations = p.declarations := by
  obtain ⟨entities, hsettle, hmark⟩ := l.settle
  obtain ⟨htyped, hsize⟩ := EntityTable.settleTypes_eq_ok hsettle
  obtain ⟨hcounted, hsize', hdeclarations⟩ := Source.Program.markUses_eq_ok hmark
  refine ⟨fun id e he => ?_, hsize'.trans hsize, hdeclarations⟩
  obtain ⟨e₁, he₁, type, rfl⟩ := htyped he
  obtain ⟨e₂, he₂, uses, rfl⟩ := hcounted he₁
  exact ⟨_, he₂, type, uses, rfl⟩

/-- What the first round carries on to the second. -/
theorem declare_steps (l : Lowering p types ds lowered) {w : Lower.Walk} [Fact w.hasLabels]
    (hc : w.part.Covers l.program.entities) : Lower.UnitSteps w l.start l.between :=
  (Lower.unitStepwise_declare hc.closed).steps hc l.declare

/-- The functions are lowered one after another. -/
theorem runs (l : Lowering p types ds lowered) :
    ∃ runs, Lower.FunctionRuns [] l.declared.functions l.between runs l.final ∧
      lowered.module.functions = runs.map (·.function) :=
  Lower.functions_eq_ok l.functions

/-- Both rounds are runs of steps. -/
theorem steps (l : Lowering p types ds lowered) {w : Lower.Walk} [Fact w.hasLabels]
    [Fact w.hasNames] (hc : w.part.Covers l.program.entities) :
    Lower.UnitSteps w l.start l.final := by
  have hfirst := l.declare_steps hc
  obtain ⟨runs, hruns, -⟩ := l.runs
  exact hfirst.trans (hruns.steps (hfirst.carried.covers hc))

/-- Both rounds carry their tables on. -/
theorem carried (l : Lowering p types ds lowered) : Lower.Carried l.start l.final :=
  (l.steps (w := .any) (Source.Part.covers_all _)).carried

/-- The types that are left go on from those that were given. -/
theorem types_extends (l : Lowering p types ds lowered) : types.Extends lowered.types :=
  l.types_eq ▸ l.typed_extends.trans l.carried.types

end Lowering

/-! ## Entities -/

/-- In every state of the lowering, the entities are those of the program and temporaries. -/
theorem Lowering.readied {p : Source.Program} {types : TypeTable} {ds : Diagnostics}
    {lowered : Lowered} (l : Lowering p types ds lowered) {s : LowerState}
    (h : Lower.Carried l.start s) : p.entities.Readied s.entities := by
  obtain ⟨htyped, hsize, -⟩ := l.entities_typed
  have hstart : p.entities.Readied l.start.entities := by
    refine ⟨fun id e he => ?_, fun id e he hle => ?_⟩
    · obtain ⟨e', he', type, uses, rfl⟩ := htyped he
      exact ⟨_, he', type, uses, _, rfl⟩
    · exact absurd (EntityTable.lt_of_get he) (not_lt.2 (hsize.trans_le hle))
  exact hstart.carried h

/-! ## Units -/

namespace Source.ProgramUnit

/-- The unit gets as far as the code generator: neither its types nor its program has errors. -/
def Lowers (unit : ProgramUnit) (profile : WidthProfile) (lowered : Lowered) : Prop :=
  ∃ types ds, checkedTypes profile unit.types = .ok (types, ds) ∧ ds.hasErrors = false ∧
    lowerProgram unit.program types ds = .ok lowered ∧ lowered.diagnostics.hasErrors = false

/-- What the code generator gets of a unit. -/
def lowered? (unit : ProgramUnit) (profile : WidthProfile) : Option Lowered :=
  match checkedTypes profile unit.types with
  | .error _ => none
  | .ok (types, ds) =>
    if ds.hasErrors then none
    else (lowerProgram unit.program types ds).toOption.filter (!·.diagnostics.hasErrors)

/-- A unit that was lowered has gone through the stages before. -/
theorem lowers_of_eq_some {unit : ProgramUnit} {profile : WidthProfile} {lowered : Lowered}
    (h : unit.lowered? profile = some lowered) : unit.Lowers profile lowered := by
  unfold lowered? at h
  split at h
  · cases h
  · next types ds htypes =>
    split at h
    · cases h
    · next hquiet =>
      obtain ⟨hlower, hlowered⟩ := Option.filter_eq_some_iff.1 h
      refine ⟨types, ds, htypes, by simpa using hquiet, ?_, by simpa using hlowered⟩
      cases hresult : lowerProgram unit.program types ds with
      | error fault => simp [hresult, Except.toOption] at hlower
      | ok result =>
        rw [hresult] at hlower
        rw [Option.some.inj hlower]

/-- A unit gets as far as the code generator if a run shows part of what the generator gets. -/
theorem exists_lowers (unit : ProgramUnit) (profile : WidthProfile) {α : Type} (view : Lowered → α)
    (seen : α) (h : (unit.lowered? profile).map view = some seen) :
    ∃ lowered, unit.Lowers profile lowered ∧ view lowered = seen := by
  obtain ⟨lowered, hlowered, hview⟩ := Option.map_eq_some_iff.1 h
  exact ⟨lowered, lowers_of_eq_some hlowered, hview⟩

end Source.ProgramUnit

/-! ## The pipeline -/

/-- A unit that gives intermediate code or a listing has passed every stage before without
errors. -/
theorem compile_stages {unit : Source.ProgramUnit} {options : Options} {compiled : Compiled}
    {output : Output} (h : compile unit options = .ok compiled) (hok : compiled.result = .ok output)
    (hemit : options.emit ≠ .types) :
    ∃ types ds lowered, checkedTypes options.profile unit.types = .ok (types, ds) ∧
      ds.hasErrors = false ∧ lowerProgram unit.program types ds = .ok lowered ∧
      lowered.diagnostics.hasErrors = false ∧
      ((options.emit = .mir ∧ output = .mir lowered.module) ∨
        ∃ code, lowered.module.assemble lowered.types
          { fileName := options.fileName, verbose := options.verbose } = .ok code ∧
          output = .asm code) := by
  -- the stages in the order that they are run in: each one ends the compilation, or hands on its
  -- result
  unfold compile at h
  simp only [hemit] at h
  split at h
  · obtain rfl := Except.ok.inj h
    cases hok
  obtain ⟨⟨types, ds⟩, htypes, h⟩ := bind_eq_ok_iff.1 h
  dsimp only at h
  split at h
  · obtain rfl := Except.ok.inj h
    cases hok
  next hquiet =>
  obtain ⟨lowered, hlower, h⟩ := bind_eq_ok_iff.1 h
  split at h
  · obtain rfl := Except.ok.inj h
    cases hok
  next hquiet' =>
  refine ⟨types, ds, lowered, htypes, by simpa using hquiet, hlower, by simpa using hquiet', ?_⟩
  split at h
  · next hmir =>
    obtain rfl := Except.ok.inj h
    exact .inl ⟨hmir, (Except.ok.inj hok).symm⟩
  · obtain ⟨code, hcode, h⟩ := bind_eq_ok_iff.1 h
    obtain rfl := Except.ok.inj h
    exact .inr ⟨code, hcode, (Except.ok.inj hok).symm⟩

/-- All that is reported about a unit whose types pass the check is reported while it is lowered. -/
theorem compile_diagnostics {unit : Source.ProgramUnit} {options : Options} {types : TypeTable}
    {ds : Diagnostics} {lowered : Lowered} {compiled : Compiled}
    (htypes : checkedTypes options.profile unit.types = .ok (types, ds))
    (hquiet : ds.hasErrors = false) (hlower : lowerProgram unit.program types ds = .ok lowered)
    (hemit : options.emit ≠ .types)
    (htarget : options.emit = .asm → options.profile.pointerSize = WidthProfile.ilp32.pointerSize)
    (h : compile unit options = .ok compiled) : compiled.diagnostics = lowered.diagnostics := by
  unfold compile at h
  simp only [hemit] at h
  split at h
  -- the profile was supported, as the target was asked for
  · next hunsupported => exact absurd (htarget hunsupported.1) hunsupported.2
  obtain ⟨⟨types', ds'⟩, htypes', h⟩ := bind_eq_ok_iff.1 h
  -- each stage has one result, so the ones that the compilation used are those that are given
  obtain ⟨rfl, rfl⟩ := Prod.mk.inj (Except.ok.inj (htypes'.symm.trans htypes))
  simp only [hquiet] at h
  obtain ⟨lowered', hlower', h⟩ := bind_eq_ok_iff.1 h
  obtain rfl := Except.ok.inj (hlower'.symm.trans hlower)
  split at h
  · obtain rfl := Except.ok.inj h
    rfl
  split at h
  · obtain rfl := Except.ok.inj h
    rfl
  · obtain ⟨code, -, h⟩ := bind_eq_ok_iff.1 h
    obtain rfl := Except.ok.inj h
    rfl

/-- Whoever asks for the types gets them. -/
theorem output_of_types {unit : Source.ProgramUnit} {options : Options} {compiled : Compiled}
    {output : Output} (hemit : options.emit = .types) (h : compile unit options = .ok compiled)
    (hok : compiled.result = .ok output) : ∃ summaries, output = .types summaries := by
  unfold compile at h
  simp only [hemit] at h
  split at h
  · obtain rfl := Except.ok.inj h
    cases hok
  obtain ⟨⟨types, ds⟩, -, h⟩ := bind_eq_ok_iff.1 h
  dsimp only at h
  split at h
  · obtain rfl := Except.ok.inj h
    cases hok
  obtain ⟨summaries, -, h⟩ := bind_eq_ok_iff.1 h
  obtain rfl := Except.ok.inj h
  exact ⟨summaries, (Except.ok.inj hok).symm⟩

/-- A listing is not emitted for the types alone. -/
theorem emit_of_listing {unit : Source.ProgramUnit} {options : Options} {compiled : Compiled}
    {code : Listing} (h : compile unit options = .ok compiled)
    (hcode : compiled.result = .ok (.asm code)) : options.emit ≠ .types := by
  intro hemit
  obtain ⟨summaries, hout⟩ := output_of_types hemit h hcode
  cases hout

/-- Neither is a module. -/
theorem emit_of_mir {unit : Source.ProgramUnit} {options : Options} {compiled : Compiled}
    {m : Ir.Module} (h : compile unit options = .ok compiled)
    (hok : compiled.result = .ok (.mir m)) : options.emit ≠ .types := by
  intro hemit
  obtain ⟨summaries, hout⟩ := output_of_types hemit h hok
  cases hout

/-- The listing that a unit is compiled to. -/
def Source.ProgramUnit.listing? (unit : Source.ProgramUnit) (options : Options) : Option Listing :=
  match compile unit options with
  | .ok ⟨_, .ok (.asm code)⟩ => some code
  | _ => none

/-- A unit is compiled to a listing if a run shows part of it. -/
theorem Source.ProgramUnit.exists_listing (unit : Source.ProgramUnit) (options : Options) {α : Type}
    (view : Listing → α) (seen : α) (h : (unit.listing? options).map view = some seen) :
    ∃ compiled code, compile unit options = .ok compiled ∧ compiled.result = .ok (.asm code) ∧
      view code = seen := by
  obtain ⟨code, hcode, hview⟩ := Option.map_eq_some_iff.1 h
  unfold listing? at hcode
  split at hcode
  · next hcompile =>
    obtain rfl := Option.some.inj hcode
    exact ⟨_, _, hcompile, rfl, hview⟩
  · cases hcode

end Backend386
