import Backend386.Proofs.ControlErrors
import Backend386.Proofs.FormatRoundtrip
import Backend386.Proofs.Source.Names

/-!
# Warnings about unused variables

A unit that is lowered gets one warning for each variable of a block that is no temporary and that
the unit names nowhere, and no other warnings. They come function by function in the order of the
declarations, and for the variables of a block before those of the blocks that stand in it.

* `Source.Program.unused?` — the warning about a variable, if any;
* `Lowering.unused?_eq` — what is warned about a variable of the program once it is lowered;
* `Lower.functions_filterMap` — the variables of the functions are those of the program and
  temporaries, in order;
* `Source.ProgramUnit.unused_variables` — the warnings about a unit.
-/

namespace Backend386

/-- The warning about a variable of a program, unless it is a temporary or something names it. -/
def Source.Program.unused? (p : Source.Program) (id : EntityId) : Option Diagnostic :=
  (p.entities.get id).toOption.bind fun e =>
    if e.isTemporary ∨ p.Names id then none
    else some ⟨.warning, "unused variable: " ++ e.name, e.location⟩

/-! ## Warnings and errors -/

/-- What is reported is added to the diagnostics. -/
theorem Lower.Reported.adds {found : List Finding} {s s' : LowerState}
    (h : Lower.Reported found s s') : s.diagnostics.Adds s'.diagnostics := by
  obtain ⟨all, hall, -⟩ := h
  refine ⟨_, hall, fun d hd => ?_⟩
  obtain ⟨f, -, rfl⟩ := List.mem_map.1 hd
  rfl

theorem EntityTable.warnings_unused (t : EntityTable) (ids : List EntityId) :
    Diagnostics.warnings (ids.filterMap t.unused?) = ids.filterMap t.unused? := by
  refine List.filter_eq_self.2 fun d hd => ?_
  simp [severity_unused hd]

/-! ## Entities -/

namespace EntityTable

variable {t t' : EntityTable}

/-! The definitions of the entities are the same once their types are settled. -/

section

variable (h : Passes Entity.Typed t t') (hsize : t'.size = t.size)

include h hsize

theorem initializer?_typed : t'.initializer? = t.initializer? := by
  funext id
  exact h.bind_toOption hsize (by rintro e _ ⟨type, rfl⟩; rfl) id

theorem body?_typed : t'.body? = t.body? := by
  funext id
  exact h.bind_toOption hsize (by rintro e _ ⟨type, rfl⟩; rfl) id

theorem blockVariables_typed : t'.blockVariables = t.blockVariables := by
  funext id
  rw [blockVariables, blockVariables, body?_typed h hsize]

/-- What is written in an entity does not depend on its type being settled. -/
theorem written_typed : t'.written = t.written := by
  funext id
  rw [written, written, Option.map_eq_bind, Option.map_eq_bind,
    Entity.written_congr (initializer?_typed h hsize), h.bind_toOption hsize]
  rintro e _ ⟨type, rfl⟩
  rfl

end

end EntityTable

namespace Lowering

variable {p : Source.Program} {types : TypeTable} {ds : Diagnostics} {lowered : Lowered}
  {id : EntityId} {e : Entity}

/-- The variables of the blocks of a program that is lowered are among its entities. -/
theorem blockVariables_lt (l : Lowering p types ds lowered) :
    ∀ v ∈ p.blockVariables, v.index < p.entities.size := by
  obtain ⟨entities, hsettle, hmark⟩ := l.settle
  obtain ⟨htyped, hsize⟩ := EntityTable.settleTypes_eq_ok hsettle
  obtain ⟨hlt, -⟩ := Source.Program.markUses_get hmark
  rw [Source.Program.blockVariables, EntityTable.blockVariables_typed htyped hsize] at hlt
  exact fun v hv => hsize ▸ hlt v hv

/-- Lowering leaves the name and the location of an entity as they were, and the entity is used if
the program names it. -/
theorem unused?_eq (l : Lowering p types ds lowered) (huses : ∀ e ∈ p.entities.entries, e.uses = 0)
    (hid : id.index < p.entities.size) : lowered.module.entities.unused? id = p.unused? id := by
  obtain ⟨entities, hsettle, hmark⟩ := l.settle
  obtain ⟨htyped, hsize⟩ := EntityTable.settleTypes_eq_ok hsettle
  obtain ⟨e, he⟩ := EntityTable.exists_get hid
  obtain ⟨e₁, he₁, type, rfl⟩ := htyped he
  obtain ⟨count, he₂, hcount⟩ := (Source.Program.markUses_get hmark).2 id _ he₁
  obtain ⟨e₃, he₃, sequence, rfl⟩ := l.carried.entities he₂
  have hnames : { p with entities }.Names id ↔ p.Names id := by
    rw [Source.Program.Names, Source.Program.Names, EntityTable.written_typed htyped hsize]
  rw [hnames] at hcount
  rw [EntityTable.unused?, l.entities, he₃, Source.Program.unused?, he]
  simp only [Except.toOption, Option.bind_some, Entity.unused?, Entity.isUsed, Entity.isTemporary,
    huses e (EntityTable.mem_of_get he), Nat.zero_add, ← hcount, Bool.or_eq_true,
    decide_eq_true_eq, or_comm]

/-- What was added to the entities are temporaries, so that nothing is warned about them. -/
theorem unused?_eq_none (l : Lowering p types ds lowered) (hid : p.entities.size ≤ id.index) :
    lowered.module.entities.unused? id = none := by
  cases he : lowered.module.entities.get id with
  | error fault => rw [EntityTable.unused?, he]; rfl
  | ok e =>
    obtain ⟨temps, htemps, happend⟩ := l.asInput_entities
    have hread : lowered.module.entities.asInput[id.index]? = some e.asInput := by
      rw [EntityTable.asInput, List.getElem?_map, EntityTable.get_eq_ok_iff.1 he, Option.map_some]
    rw [happend, List.getElem?_append_right (by rwa [EntityTable.length_asInput])] at hread
    obtain ⟨ref, htemp⟩ := htemps _ _ hread
    have hname : e.name = "@tmp" ++ _ := congrArg Entity.name htemp
    have htemporary : e.isTemporary = true := by
      rw [Entity.isTemporary, hname, String.toList_append]
      rfl
    rw [EntityTable.unused?, he]
    simp [Except.toOption, Entity.unused?, htemporary]

end Lowering

/-! ## Functions -/

namespace Lower

/-- What is made of the variables of the functions is made of those of their bodies, if nothing is
made of temporaries. -/
theorem functions_filterMap {s s' : LowerState} {t : EntityTable} {ids : List EntityId}
    {fs : List Ir.Function} {vars : List Ir.StaticVariable} {α : Type} {g : EntityId → Option α}
    (hs : t.Readied s.entities) (h : FunctionsFrom ids s fs vars s')
    (hnone : ∀ id, t.size ≤ id.index → g id = none) :
    (fs.flatMap (·.scope.variablesOfTree)).filterMap g =
      (ids.flatMap t.blockVariables).filterMap g := by
  induction h with
  | nil => rfl
  | @cons id ids statics s s₁ s₂ s₃ f fs before before' vars more hf _ hvars _ ih =>
    obtain ⟨e, params, body, he, hkind, rfl, hgrown, -⟩ := function_eq_ok hf
    have hs₁ := hs.carried (FunctionsFrom.carried_function hf)
    have hs₂ := hs₁.carried (staticLocals_eq_ok hvars).2.1
    have hfirst : s₁.function.scope.variablesOfTree.filterMap g =
        (t.blockVariables id).filterMap g := by
      rw [hgrown.filterMap_variables fun id hid => hnone id (hs.passes.size_le.trans hid),
        EntityTable.blockVariables, hs.body?_eq he, EntityTable.body?_eq_some he hkind,
        Option.elim_some, ← Source.Block.variablesOfTree_scope]
    rw [List.flatMap_cons, List.flatMap_cons, List.filterMap_append, List.filterMap_append, hfirst,
      ih hs₂]

end Lower

/-- A program that is lowered gets a warning for each variable that it does not name, temporaries
apart, and no other warnings. -/
theorem lowerProgram_warnings {p : Source.Program} {types : TypeTable} {ds : Diagnostics}
    {lowered : Lowered} (huses : ∀ e ∈ p.entities.entries, e.uses = 0)
    (h : lowerProgram p types ds = .ok lowered) :
    (∀ v ∈ p.blockVariables, v.index < p.entities.size) ∧
      lowered.diagnostics.warnings = ds.warnings ++ p.blockVariables.filterMap p.unused? := by
  obtain ⟨l, hwarned⟩ := exists_lowering h
  have hlt := l.blockVariables_lt
  refine ⟨hlt, ?_⟩
  have hstart : p.entities.Readied l.start.entities := l.readied (.refl _)
  have hbetween := hstart.carried (Lower.declare_eq_ok l.declare).carried
  -- a constant and a temporary are in no block, so what is found of the variables is the same at
  -- the end
  have hvariables := Lower.functions_filterMap hbetween (Lower.functionsFrom_of_ok l.functions)
    fun _ hid => l.unused?_eq_none hid
  rw [Lower.declare_functions hstart l.declare, List.nil_append,
    EntityTable.flatMap_functions fun _ hbody => by rw [EntityTable.blockVariables, hbody]; rfl,
    l.entities_typed.2.2] at hvariables
  have hnamed : p.blockVariables.filterMap lowered.module.entities.unused? =
      p.blockVariables.filterMap p.unused? :=
    List.filterMap_congr fun v hv => l.unused?_eq huses (hlt v hv)
  calc lowered.diagnostics.warnings
      = l.final.diagnostics.warnings ++
          p.blockVariables.filterMap lowered.module.entities.unused? := by
        rw [hwarned, Diagnostics.warnings_append, EntityTable.warnings_unused, hvariables]
        rfl
    _ = ds.warnings ++ p.blockVariables.filterMap p.unused? := by
        rw [l.reported.adds.warnings, hnamed]
        rfl

/-! ## Units -/

/-- A unit whose types pass the check and that is lowered gets one warning for each variable of a
block that is no temporary and that no variable node of the unit is for, in the order of the
variables, and no other warnings. In a unit that is read, no uses are counted yet. -/
theorem Source.ProgramUnit.unused_variables {unit : ProgramUnit} {options : Options}
    {types : TypeTable} {ds : Diagnostics} {lowered : Lowered}
    (huses : ∀ e ∈ unit.program.entities.entries, e.uses = 0)
    (htypes : checkedTypes options.profile unit.types = .ok (types, ds))
    (hquiet : ds.hasErrors = false) (hlower : lowerProgram unit.program types ds = .ok lowered) :
    (∀ v ∈ unit.program.blockVariables, ∃ e, unit.program.entities.get v = .ok e) ∧
    lowered.diagnostics.warnings = unit.program.blockVariables.filterMap unit.program.unused? ∧
    (options.emit ≠ .types →
      (options.emit = .asm → options.profile.pointerSize = WidthProfile.ilp32.pointerSize) →
      ∀ compiled, compile unit options = .ok compiled →
        compiled.diagnostics = lowered.diagnostics) := by
  obtain ⟨hlt, hwarnings⟩ := lowerProgram_warnings huses hlower
  refine ⟨fun v hv => EntityTable.exists_get (hlt v hv), ?_, fun hemit htarget compiled h =>
    compile_diagnostics htypes hquiet hlower hemit htarget h⟩
  rw [hwarnings, checkedTypes_warnings htypes, List.nil_append]

/-- The unit
```
int scan(int n) {
  int first, second = first;
  static int third;
  switch (n) {
  case fourth: { int fourth; while (n++) { int fifth = sizeof sixth, sixth; } }
  default: if (n) { int seventh; }
  }
}
int scan_twice(void) { int eighth; return limit; }
```
where the declaration of each variable has a line of its own. -/
def sparseUnit : Source.ProgramUnit where
  program :=
    let int : Source.Note := { type := .integer .int true }
    let var (name : String) (line : UInt32) (init : Option Source.Expr) (isPrivate : Bool) :
        Entity :=
      { name, ref := int.type, isPrivate, location := some { line },
        kind := .definedVariable init }
    let use (id : Nat) : Source.Expr := .var int ⟨id⟩
    let loop : Source.Stmt := .whileLoop none (.postStep int .inc (use 1))
      (.block none (.mk [⟨6⟩, ⟨7⟩] []))
    let scan : Source.Block := .mk [⟨2⟩, ⟨3⟩, ⟨4⟩] [.switch none (use 1) [
      .mk [use 5] (.mk [⟨5⟩] [loop]),
      .mk [] (.mk [] [.ifThen none (use 1) (.block none (.mk [⟨8⟩] []))])]]
    { entities := ⟨[
        { name := "scan", ref := .function int.type [int.type] false,
          kind := .definedFunction [⟨1⟩] scan },
        { name := "n", ref := int.type, kind := .parameter },
        var "first" 1 none false, var "second" 2 (some (use 2)) false, var "third" 3 none true,
        var "fourth" 4 none false, var "fifth" 5 (some (.sizeofExpr int (use 7))) false,
        var "sixth" 6 none false, var "seventh" 7 none false,
        { name := "scan_twice", ref := .function int.type [] false,
          kind := .definedFunction [] (.mk [⟨10⟩] [.ret none (some (use 11))]) },
        var "eighth" 8 none false, var "limit" 9 none false]⟩
      declarations := [⟨11⟩, ⟨0⟩, ⟨9⟩] }

/-- The variables that are named in an initializer, as a case or in what `sizeof` measures are
used. The others are reported from outer to inner blocks and function by function. -/
theorem Source.ProgramUnit.unused_variables_sparseUnit :
    ∃ compiled, compile sparseUnit { emit := .mir } = .ok compiled ∧
      compiled.diagnostics.warnings = [
        ⟨.warning, "unused variable: second", some { line := 2 }⟩,
        ⟨.warning, "unused variable: third", some { line := 3 }⟩,
        ⟨.warning, "unused variable: fifth", some { line := 5 }⟩,
        ⟨.warning, "unused variable: seventh", some { line := 7 }⟩,
        ⟨.warning, "unused variable: eighth", some { line := 8 }⟩] := by
  obtain ⟨lowered, ⟨types, ds, htypes, hquiet, hlower, -⟩, -⟩ :=
    sparseUnit.exists_lowers .ilp32 (fun _ => ()) () (by decide +kernel)
  have hcompiles : (compile sparseUnit { emit := .mir }).toOption.isSome = true := by
    decide +kernel
  cases h : compile sparseUnit { emit := .mir } with
  | error fault =>
    rw [h] at hcompiles
    cases hcompiles
  | ok compiled =>
    obtain ⟨-, hwarnings, hreported⟩ :=
      @unused_variables sparseUnit { emit := .mir } types ds lowered (by decide) htypes hquiet
        hlower
    refine ⟨compiled, rfl, ?_⟩
    rw [hreported (by decide) nofun compiled h, hwarnings]
    decide +kernel

end Backend386
