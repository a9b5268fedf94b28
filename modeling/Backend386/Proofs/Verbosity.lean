import Backend386.Proofs.Places.Code
import Backend386.Proofs.Stages

/-!
# Places and comments do not change the code

Two units that differ only in their places, compiled with options that differ only in whether the
listing has comments, give the same code: they fail together, and their listings are the same but
for the comments.

* `compile_bare` — a unit is compiled as it is without its places;
* `Source.ProgramUnit.code_of_bare_eq` — two such units are compiled alike.
-/

namespace Backend386

/-- A unit is compiled as it is without its places, to the listing without comments. -/
theorem compile_bare (unit : Source.ProgramUnit) (options : Options) :
    Echoes Compiled.bare (compile unit options) (compile unit.bare options.quiet) := by
  -- each stage echoes the same one of the bare unit, and whatever ends it ends both
  refine .ite (.ok (Compiled.mk [] (.error _))) ?_
  refine (Echoes.of_eq (checkedTypes_bare options.profile unit.types)).bind fun (types, ds) => ?_
  dsimp only
  rw [Diagnostics.hasErrors_bare, Diagnostics.errorCount_bare, TypeTable.summaries_bare]
  refine .ite (.ok (Compiled.mk ds (.error _))) (.ite ?_ ?_)
  · cases types.summaries with
    | error fault => exact .error rfl
    | ok summaries => exact .ok (Compiled.mk ds (.ok (.types summaries)))
  · refine (lowerProgram_bare unit.program types ds).bind fun ⟨module, types, ds⟩ => ?_
    rw [show Lowered.bare ⟨module, types, ds⟩ = ⟨module.bare, types.bare, ds.bare⟩ from rfl]
    dsimp only
    rw [Diagnostics.hasErrors_bare, Diagnostics.errorCount_bare]
    refine .ite (.ok (Compiled.mk ds (.error _))) ?_
    refine .ite (.ok (Compiled.mk ds (.ok (.mir module)))) ?_
    have hassemble := module.assemble_bare types
      { fileName := options.fileName, verbose := options.verbose }
    exact (Echoes.of_eq hassemble).bind fun code =>
      .ok (Compiled.mk ds (.ok (.asm code)))

theorem Compiled.result_bare_eq_error {c : Compiled} {e : PipelineError} :
    c.bare.result = .error e ↔ c.result = .error e := by
  unfold bare
  cases c.result <;> simp [Except.map]

/-- Two units that differ only in their places, compiled with options that differ only in the
comments, have the same listing but for its comments, and fail together. Whether a jump of a body is
dropped does not depend on the comments between the code of its statements. -/
theorem Source.ProgramUnit.code_of_bare_eq {unit₁ unit₂ : Source.ProgramUnit}
    {options₁ options₂ : Options} (hunits : unit₁.bare = unit₂.bare)
    (hoptions : options₁.quiet = options₂.quiet) :
    (∀ compiled₁ compiled₂ code₁ code₂,
      compile unit₁ options₁ = .ok compiled₁ → compiled₁.result = .ok (.asm code₁) →
      compile unit₂ options₂ = .ok compiled₂ → compiled₂.result = .ok (.asm code₂) →
      code₁.withoutComments = code₂.withoutComments) ∧
    (∀ (p : Placement) (options : AssemblyOptions) (epilogue : Ir.Label) (body : List Ir.Stmt)
        (code : Listing), p.bodyCode options epilogue body = .ok code →
      (∀ before i after, code = before ++ i :: after →
        (i.FallsThrough epilogue.render after ↔
          i.FallsThrough epilogue.render (Listing.withoutComments after))) ∧
      (dropJumps epilogue.render code).withoutComments =
        dropJumps epilogue.render code.withoutComments) ∧
    (∀ e, (∃ compiled, compile unit₁ options₁ = .ok compiled ∧ compiled.result = .error e) ↔
      ∃ compiled, compile unit₂ options₂ = .ok compiled ∧ compiled.result = .error e) ∧
    ((∃ fault, compile unit₁ options₁ = .error fault) ↔
      ∃ fault, compile unit₂ options₂ = .error fault) := by
  -- both units compile to the same once they are bare, so that each result is compared with that
  -- one
  have h₁ := compile_bare unit₁ options₁
  rw [hunits, hoptions] at h₁
  have hsame := h₁.cases_of_same (compile_bare unit₂ options₂)
  refine ⟨fun c₁ c₂ code₁ code₂ hc₁ hcode₁ hc₂ hcode₂ => ?_,
    fun p options epilogue body code hcode => ⟨?_, ?_⟩, fun e => ?_, ?_⟩
  · obtain ⟨fault, -, hfault, -⟩ | ⟨a₁, a₂, ha₁, ha₂, hbare⟩ := hsame
    · rw [hc₁] at hfault
      cases hfault
    · obtain rfl := Except.ok.inj (hc₁.symm.trans ha₁)
      obtain rfl := Except.ok.inj (hc₂.symm.trans ha₂)
      have hresult := congrArg Compiled.result hbare
      rw [Compiled.bare, Compiled.bare, hcode₁, hcode₂] at hresult
      exact Output.asm.inj (Except.ok.inj hresult)
  · rintro before i after rfl
    exact (Placement.commentsLead_bodyCode hcode).fallsThrough_iff
  · exact dropJumps_withoutComments (Placement.commentsLead_bodyCode hcode) epilogue.render
  · obtain ⟨fault₁, fault₂, hfault₁, hfault₂⟩ | ⟨a₁, a₂, ha₁, ha₂, hbare⟩ := hsame
    · simp [hfault₁, hfault₂]
    · simp only [ha₁, ha₂, Except.ok.injEq, exists_eq_left']
      rw [← Compiled.result_bare_eq_error, hbare, Compiled.result_bare_eq_error]
  · obtain ⟨fault₁, fault₂, hfault₁, hfault₂⟩ | ⟨a₁, a₂, ha₁, ha₂, -⟩ := hsame
    · simp [hfault₁, hfault₂]
    · simp [ha₁, ha₂]

/-- The unit `int n; void drain(void) { if (n) return; while (n) n--; return; }`, which begins on a
given line. -/
def drain (line : UInt32) : Source.ProgramUnit where
  program :=
    let int : TypeRef := .integer .int true
    let place (offset : UInt32) : Option Location := some { line := line + offset }
    let n (offset : UInt32) : Source.Expr := .var { type := int, location := place offset } ⟨0⟩
    { entities := ⟨[
        { name := "n", ref := int, location := place 0, kind := .definedVariable none },
        { name := "drain", ref := .function .void [] false, location := place 1,
          kind := .definedFunction [] (.mk [] [
            .ifThen (place 2) (n 2) (.ret (place 2) none),
            .whileLoop (place 3) (n 3) (.expr (place 3)
              (.postStep { type := int, location := place 3 } .dec (n 3))),
            .ret (place 4) none]) }]⟩
      declarations := [⟨0⟩, ⟨1⟩] }

/-- One listing has five comments, one of them between a label and a jump that is dropped, and the
other has none. -/
theorem Source.ProgramUnit.code_of_bare_eq_drain :
    ∃ compiled₁ compiled₂ code₁ code₂,
      compile (drain 1) { verbose := true } = .ok compiled₁ ∧
      compiled₁.result = .ok (.asm code₁) ∧ code₁.countP (·.isComment) = 5 ∧
      compile (drain 20) {} = .ok compiled₂ ∧
      compiled₂.result = .ok (.asm code₂) ∧ code₂.countP (·.isComment) = 0 ∧
      code₁.withoutComments = code₂.withoutComments := by
  obtain ⟨compiled₁, code₁, hcompile₁, hcode₁, hcomments₁⟩ := (drain 1).exists_listing
    { verbose := true } (fun code => code.countP (·.isComment)) 5 (by decide +kernel)
  obtain ⟨compiled₂, code₂, hcompile₂, hcode₂, hcomments₂⟩ := (drain 20).exists_listing
    {} (fun code => code.countP (·.isComment)) 0 (by decide +kernel)
  have hunits : (drain 1).bare = (drain 20).bare := rfl
  have hoptions : Options.quiet { verbose := true } = Options.quiet {} := rfl
  have hcode := (code_of_bare_eq hunits hoptions).1
  exact ⟨compiled₁, compiled₂, code₁, code₂, hcompile₁, hcode₁, hcomments₁, hcompile₂, hcode₂,
    hcomments₂, hcode compiled₁ compiled₂ code₁ code₂ hcompile₁ hcode₁ hcompile₂ hcode₂⟩

end Backend386
