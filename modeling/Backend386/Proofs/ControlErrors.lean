import Backend386.Proofs.Lowering.JumpReports
import Backend386.Proofs.Lowering.SourceEntities

/-!
# The errors about control flow

The errors that a unit gets are those about the jumps of its functions, in the order in which the
functions are declared, and errors about initializers in between. What is reported about a function
depends on its body and its name alone: a label of one function means nothing to another.

* `Source.Program.controlFindings` — the problems of the jumps of a program;
* `Lower.UnitSteps.reported` — declarations report problems of initializers only;
* `Source.Program.control_errors` — the errors of a program.
-/

namespace Backend386

/-- What is wrong with the jumps of a function. -/
def Entity.controlFindings? (e : Entity) : Option (List Finding) :=
  match e.kind with
  | .definedFunction _ body => some (body.controlFindings e.name)
  | _ => none

/-- What is wrong with the jumps of an entity of a table, if it is a function. -/
def EntityTable.controlFindings (t : EntityTable) (id : EntityId) : List Finding :=
  ((t.get id).toOption.bind (·.controlFindings?)).getD []

/-- What is wrong with the jumps of the functions that a program declares, one after another. -/
def Source.Program.controlFindings (p : Source.Program) : List Finding :=
  p.declarations.flatMap p.entities.controlFindings

/-- What is found in the body of a function is found in the program. -/
theorem EntityTable.Readied.controlFindings_eq {t t' : EntityTable} {id : EntityId} {e : Entity}
    (h : t.Readied t') (he : t'.get id = .ok e) :
    t.controlFindings id = e.controlFindings?.getD [] := by
  rw [EntityTable.controlFindings, h.lookup_eq (f := (·.controlFindings?))
    (by rintro e _ ⟨type, uses, sequence, rfl⟩; rfl)
    (fun e he => by rw [Entity.controlFindings?, he.kind]) he]

/-- Nothing is found where there is no body. -/
theorem EntityTable.controlFindings_eq_nil {t : EntityTable} {id : EntityId}
    (h : t.body? id = none) : t.controlFindings id = [] := by
  rw [controlFindings]
  cases he : t.get id with
  | error fault => rfl
  | ok e =>
    cases hkind : e.kind with
    | definedFunction params body => cases h.symm.trans (body?_eq_some he hkind)
    | _ => simp [Except.toOption, Entity.controlFindings?, hkind]

namespace Lower

variable {s s' : LowerState} {t : EntityTable}

/-! ## Initializers -/

/-- Between functions, and away from the names of labels, only problems of initializers are
reported. -/
theorem UnitSteps.reported {w : Walk} (h : UnitSteps w s s') (hn : ¬ w.hasNames) :
    Reported [] s s' := by
  induction h with
  | refl => exact .of_same rfl
  | tail _ h ih =>
    refine ih.trans ?_
    cases h with
    | inner h => exact h.reported hn
    | start | number => exact .of_same rfl

/-! ## Functions -/

/-- What is reported about functions is wrong with their jumps, function by function. -/
theorem functions_reported {ids : List EntityId} {fs : List Ir.Function}
    {vars : List Ir.StaticVariable} (hs : t.Readied s.entities)
    (h : FunctionsFrom ids s fs vars s') : Reported (ids.flatMap t.controlFindings) s s' := by
  induction h with
  | nil => exact .of_same rfl
  | cons hf _ hvars _ ih =>
    obtain ⟨e, params, body, he, hkind, hreported⟩ := function_reported hf
    have hs₁ := hs.carried (FunctionsFrom.carried_function hf)
    have hs₂ := hs₁.carried (staticLocals_eq_ok hvars).2.1
    rw [List.flatMap_cons, hs.controlFindings_eq he, Entity.controlFindings?, hkind]
    have hlocals := (unitStepwise_staticLocals (w := .unnamed) Walk.IsWhole.closed).steps
      (Source.Part.covers_all _) hvars
    exact hreported.trans ((hlocals.reported id).trans (ih hs₂))

end Lower

/-- The problems that are reported while a program is lowered. -/
theorem Lowering.reported {p : Source.Program} {types : TypeTable} {ds : Diagnostics}
    {lowered : Lowered} (l : Lowering p types ds lowered) :
    Lower.Reported p.controlFindings l.start l.final := by
  have hstart : p.entities.Readied l.start.entities := l.readied (.refl _)
  have hbetween := hstart.carried (Lower.declare_eq_ok l.declare).carried
  have hfunctions := Lower.functions_reported hbetween (Lower.functionsFrom_of_ok l.functions)
  rw [Lower.declare_functions hstart l.declare, List.nil_append,
    EntityTable.flatMap_functions fun _ => EntityTable.controlFindings_eq_nil,
    l.entities_typed.2.2] at hfunctions
  have hdeclare := l.declare_steps (w := .unnamed) (Source.Part.covers_all _)
  exact (hdeclare.reported id).trans hfunctions

theorem Diagnostics.errors_append (a b : Diagnostics) : errors (a ++ b) = errors a ++ errors b :=
  List.filter_append ..

theorem EntityTable.errors_unused (t : EntityTable) (ids : List EntityId) :
    Diagnostics.errors (ids.filterMap t.unused?) = [] := by
  rw [Diagnostics.errors, List.filter_eq_nil_iff]
  intro d hd
  simp [severity_unused hd]

theorem Finding.errors_diagnostic (found : List Finding) :
    Diagnostics.errors (found.map Finding.diagnostic) = found.map Finding.diagnostic := by
  refine List.filter_eq_self.2 fun d hd => ?_
  obtain ⟨r, -, rfl⟩ := List.mem_map.1 hd
  rfl

/-- The errors of a program, besides those about initializers, are those about the jumps of its
functions: function by function in the order of the declarations, and in each function first every
break that is in no loop and no switch, every continue that is in no loop and every label whose name
stands before it, as they stand, and then the names that are used and that no label of the function
has, each where it is used first. Whatever was lowered before, what is reported about a function
depends on its name and its body alone. -/
theorem Source.Program.control_errors {p : Source.Program} {types : TypeTable} {ds : Diagnostics}
    {lowered : Lowered} (h : lowerProgram p types ds = .ok lowered) :
    (∃ found : List Finding,
      lowered.diagnostics.errors = ds.errors ++ found.map Finding.diagnostic ∧
      found.filter Finding.isControl = p.controlFindings) ∧
    ∀ (s s' : LowerState) (id : EntityId) (f : Ir.Function),
      Lower.function id s = .ok (f, s') →
      ∃ e params body, s.entities.get id = .ok e ∧ e.kind = .definedFunction params body ∧
        ∃ found : List Finding,
          s'.diagnostics = s.diagnostics ++ found.map Finding.diagnostic ∧
          found.filter Finding.isControl = body.controlFindings e.name := by
  refine ⟨?_, fun s s' id f h => Lower.function_reported h⟩
  obtain ⟨l, hwarned⟩ := exists_lowering h
  obtain ⟨found, hdiagnostics, hcontrol⟩ := l.reported
  refine ⟨found, ?_, hcontrol⟩
  rw [hwarned, hdiagnostics, Diagnostics.errors_append, Diagnostics.errors_append,
    Finding.errors_diagnostic, EntityTable.errors_unused, List.append_nil]
  rfl

/-- The unit
```
int first, second = first;
void loop(int n) { more: if (n) break; more: switch (n) { case 1: break; default: continue; }
  goto done; }
void quit(void) { while (1) done: break; goto more; goto more; }
```
where the statement of each jump and label has a line of its own. -/
def strayJumps : Source.Program where
  entities :=
    let int : TypeRef := .integer .int true
    let line (n : UInt32) : Option Location := some { line := n }
    let n : Source.Expr := .var { type := int } ⟨3⟩
    let one : Source.Expr := .int { type := int } 1
    let loop : Source.Block := .mk [] [
      .label (line 1) "more" (.ifThen none n (.breakOut (line 2))),
      .label (line 3) "more" (.switch none n [.mk [one] (.mk [] [.breakOut (line 4)]),
        .mk [] (.mk [] [.continueOn (line 5)])]),
      .goto (line 6) "done"]
    let quit : Source.Block := .mk [] [
      .whileLoop none one (.label (line 7) "done" (.breakOut (line 8))),
      .goto (line 9) "more", .goto (line 10) "more"]
    ⟨[{ name := "first", ref := int, kind := .definedVariable none },
      { name := "second", ref := int,
        kind := .definedVariable (some (.var { type := int } ⟨0⟩)) },
      { name := "loop", ref := .function .void [int] false, kind := .definedFunction [⟨3⟩] loop },
      { name := "n", ref := int, kind := .parameter },
      { name := "quit", ref := .function .void [] false, kind := .definedFunction [] quit }]⟩
  declarations := [⟨0⟩, ⟨1⟩, ⟨2⟩, ⟨4⟩]

/-- Five jumps are wrong besides an initializer. The labels of one function are none of the other,
and a break in a switch is none outside a loop. -/
theorem Source.Program.control_errors_strayJumps :
    ∃ lowered, lowerProgram strayJumps (.initial .ilp32) [] = .ok lowered ∧
      lowered.diagnostics.errorCount = 6 ∧
      strayJumps.controlFindings = [
        ⟨some { line := 2 }, .breakOutsideLoop⟩,
        ⟨some { line := 3 }, .duplicatedLabel "loop" "more"⟩,
        ⟨some { line := 5 }, .continueOutsideLoop⟩, ⟨some { line := 6 }, .undefinedLabel "done"⟩,
        ⟨some { line := 9 }, .undefinedLabel "more"⟩] ∧
      ∃ found : List Finding, lowered.diagnostics.errors = found.map Finding.diagnostic ∧
        found.filter Finding.isControl = strayJumps.controlFindings := by
  have hlower : (lowerProgram strayJumps (.initial .ilp32) []).toOption.map
      (·.diagnostics.errorCount) = some 6 := by decide +kernel
  cases h : lowerProgram strayJumps (.initial .ilp32) [] with
  | error fault =>
    rw [h] at hlower
    cases hlower
  | ok lowered =>
    rw [h] at hlower
    exact ⟨lowered, rfl, Option.some.inj hlower, by decide +kernel, (control_errors h).1⟩

end Backend386
