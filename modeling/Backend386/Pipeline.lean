import Backend386.I386.Dump
import Backend386.I386.Generate
import Backend386.Ir.Dump
import Backend386.Lowering.Module
import Backend386.Source.Reader
import Backend386.Text.Json.Printer
import Backend386.Text.Yaml
import Backend386.Types.Check
import Backend386.Types.Dump

/-!
# The pipeline

From a resolved unit to assembly: register and check its types, lower its functions, then generate
code. The pipeline stops after a stage that reported an error.

* `Options` — what to emit, and how;
* `compile` — runs the pipeline up to the stage that is asked for;
* `Output.render` — the text of the result.
-/

namespace Backend386

/-- The format of units and dumps. -/
inductive Format where
  | json
  | yaml
deriving DecidableEq, Inhabited, Repr

namespace Format

/-- The name of a format. -/
def name : Format → String
  | json => "json"
  | yaml => "yaml"

/-- The format of a given name. -/
def ofName? (s : String) : Option Format :=
  [json, yaml].find? (·.name = s)

/-- The text of a value. -/
def render (f : Format) (j : Json) : String :=
  match f with
  | json => j.render
  | yaml => Yaml.render j

end Format

/-- The stage whose result is asked for. -/
inductive Emit where
  | types
  | mir
  | asm
deriving DecidableEq, Inhabited, Repr

namespace Emit

/-- The name of a stage. -/
def name : Emit → String
  | types => "types"
  | mir => "mir"
  | asm => "asm"

/-- The stage of a given name. -/
def ofName? (s : String) : Option Emit :=
  [types, mir, asm].find? (·.name = s)

end Emit

/-- What to emit, and how. -/
structure Options where
  emit : Emit := .asm
  profile : WidthProfile := .ilp32
  verbose : Bool := false
  /-- the name of the source file -/
  fileName : Option String := none
deriving DecidableEq, Inhabited, Repr

/-- Why the pipeline gave no result. -/
inductive PipelineError where
  | typeCheck (errors : Nat)
  | semantic (errors : Nat)
  | unsupportedProfile (name : String)
deriving DecidableEq, Repr

/-- The wording of an error. -/
def PipelineError.message : PipelineError → String
  | typeCheck n => n.repr ++ " error(s) in type definitions"
  | semantic n => n.repr ++ " error(s) in the program"
  | unsupportedProfile name => "the x86 target does not support the " ++ name ++ " profile"

/-- The result of the pipeline. -/
inductive Output where
  | types (summaries : List TypeSummary)
  | mir (module : Ir.Module)
  | asm (code : Listing)

/-- The text of a result: a listing is the same in every format. -/
def Output.render (format : Format) : Output → String
  | types summaries => format.render (.list TypeSummary.toJson summaries)
  | mir module => format.render module.toJson
  | asm code => code.render

/-- What the pipeline leaves behind: the problems reported, and a result or an error. -/
structure Compiled where
  diagnostics : Diagnostics
  result : Except PipelineError Output

/-- The type table of a unit, checked. -/
def checkedTypes (profile : WidthProfile) (definitions : List TypeDefinition) :
    Except Fault (TypeTable × Diagnostics) := do
  let types ← (TypeTable.initial profile).defineAll definitions
  let types ← types.settleDefinitions
  return (types, ← types.check [])

/-- The types are defined one after another, then settled and checked. -/
theorem checkedTypes_eq_ok_iff {profile : WidthProfile} {definitions : List TypeDefinition}
    {types : TypeTable} {diagnostics : Diagnostics} :
    checkedTypes profile definitions = .ok (types, diagnostics) ↔
      ∃ t, (TypeTable.initial profile).defineAll definitions = .ok t ∧
        t.settleDefinitions = .ok types ∧ types.check [] = .ok diagnostics := by
  constructor
  · intro h
    obtain ⟨t, hdefine, h⟩ := bind_eq_ok_iff.1 h
    obtain ⟨t', hsettle, h⟩ := bind_eq_ok_iff.1 h
    obtain ⟨ds, hcheck, h⟩ := bind_eq_ok_iff.1 h
    obtain ⟨rfl, rfl⟩ := Prod.mk.inj (Except.ok.inj h)
    exact ⟨t, hdefine, hsettle, hcheck⟩
  · rintro ⟨t, hdefine, hsettle, hcheck⟩
    exact bind_eq_ok_iff.2 ⟨t, hdefine, bind_eq_ok_iff.2 ⟨types, hsettle,
      bind_eq_ok_iff.2 ⟨diagnostics, hcheck, rfl⟩⟩⟩

/-- Lowers a program, and warns about the variables of its functions that nothing uses. -/
def lowerProgram (program : Source.Program) (types : TypeTable) (diagnostics : Diagnostics) :
    Except Fault Lowered := do
  let (types, entities) ← program.entities.settleTypes types
  let program ← { program with entities }.markUses
  let lowered ← program.lower types diagnostics
  let diagnostics ← lowered.module.functions.foldlM
    (fun ds f => f.scope.reportUnused lowered.module.entities ds) lowered.diagnostics
  return { lowered with diagnostics }

/-- Runs the pipeline up to the stage that is asked for. -/
def compile (unit : Source.ProgramUnit) (options : Options) : Except Fault Compiled := do
  let profile := options.profile
  if options.emit = .asm ∧ profile.pointerSize ≠ WidthProfile.ilp32.pointerSize then
    -- the target is checked before anything is read of the unit
    return { diagnostics := [], result := .error (.unsupportedProfile profile.name) }
  let (types, diagnostics) ← checkedTypes profile unit.types
  -- a stage that has found errors ends the compilation, and its warnings are kept
  if diagnostics.hasErrors then
    return { diagnostics, result := .error (.typeCheck diagnostics.errorCount) }
  if options.emit = .types then
    -- the layouts are asked for only here, and they may fault for a function
    return { diagnostics, result := .ok (.types (← types.summaries)) }
  let ⟨module, types, diagnostics⟩ ← lowerProgram unit.program types diagnostics
  if diagnostics.hasErrors then
    return { diagnostics, result := .error (.semantic diagnostics.errorCount) }
  if options.emit = .mir then
    return { diagnostics, result := .ok (.mir module) }
  let code ← module.assemble types { fileName := options.fileName, verbose := options.verbose }
  return { diagnostics, result := .ok (.asm code) }

end Backend386
