import Backend386.Proofs.I386.Avoids
import Backend386.Proofs.Lowering.UnitLabels

/-!
# Labels are paired

The labels of a unit that was lowered: no label is placed twice, and the check of a function's
labels finds a problem iff an undefined label was reported for that function. So the code generator
meets no broken labels if no error was reported, and the labels it takes itself are new. The check
is the only part of the code generator that stops with broken labels.

* `LabelSafe` — computations that do not stop with broken labels, and
  `Ir.Module.labelSafe_assemble` — modules whose functions pass the check;
* `Ir.Module.exists_epilogue` — where the labels of the epilogues come from;
* `Lower.lower_eq_ok` — the rounds in which a unit is lowered;
* `Source.Program.labels_paired` — the labels of its functions.
-/

namespace Backend386

/-- The labels of a function are not paired. -/
def Fault.IsBrokenLabels : Fault → Prop
  | brokenLabels .. => True
  | _ => False

instance : Promises Fault.IsBrokenLabels where
  isPromise := fun {fault} h => by cases fault <;> trivial

/-- A computation that does not stop with broken labels. -/
abbrev LabelSafe {α : Type} (x : Except Fault α) : Prop :=
  Avoids Fault.IsBrokenLabels x

namespace LabelSafe

variable {α : Type} {p : Placement} {types : TypeTable} {id : EntityId}

/-! ## What is settled later -/

instance {d : Deferred α} {what : String} : LabelSafe (d.get what) := by
  cases d with
  | pending => exact .error not_false
  | settled v => exact .ok v

instance {d : Deferred α} {v : α} {what : String} : LabelSafe (d.settle v what) := by
  cases d with
  | pending => exact .ok _
  | settled v => exact .error not_false

instance {e : Entity} : LabelSafe e.getStorage :=
  inferInstanceAs (LabelSafe (Deferred.get ..))

instance {t : EntityTable} {storage : Storage} : LabelSafe (t.place id storage) := by
  unfold EntityTable.place EntityTable.update Entity.setStorage
  infer_instance

/-- Sizes and alignments do not ask for labels. -/
theorem measurable (entities : EntityTable) (types : TypeTable) :
    Avoids.Measurable Fault.IsBrokenLabels entities types where
  typeId := fun _ => inferInstanceAs (LabelSafe (Deferred.get ..))
  layout := fun id => Avoids.layoutWithin _ id
    (fun _ _ _ _ _ => inferInstanceAs (LabelSafe (Deferred.get ..)))
    fun _ _ _ => inferInstanceAs (LabelSafe (Deferred.get ..))

/-- Neither does reading an entity. -/
theorem readable (p : Placement) (id : EntityId) : p.Readable Fault.IsBrokenLabels id where
  storage := fun _ => inferInstance
  address := by
    have (e : Entity) : LabelSafe e.address? := by
      unfold Entity.address?
      refine @Avoids.bind _ _ _ _ _ _ fun storage => ?_
      split <;> infer_instance
    unfold Placement.entityAddressCode
    refine @Avoids.bind _ _ _ _ _ _ fun _ => @Avoids.bind _ _ _ _ _ _ fun _ =>
      @Avoids.bind _ _ _ _ _ _ fun _ => ?_
    split <;> first | infer_instance | exact .error not_false

/-! ## Static storage -/

instance {storage : Storage} : LabelSafe (p.place id storage) := by
  unfold Placement.place
  infer_instance

instance {c : Ir.NamedConstant} : LabelSafe (p.placeConstant c) := by
  unfold Placement.placeConstant
  dsimp only
  split
  all_goals
    refine @Avoids.bind _ _ _ _ _ _ fun value => ?_
    cases value with
    | some i => infer_instance
    | none => exact @Avoids.bind _ _ _ _ _ _ fun _ => .error not_false

instance {m : Ir.Module} : LabelSafe m.place := by
  unfold Ir.Module.place Placement.placeVariable Placement.placeSymbol
  infer_instance

/-! ## Functions -/

/-- A function whose labels are in order does not stop the code generator with broken labels. -/
theorem functionCode (p : Placement) (types : TypeTable) (options : AssemblyOptions)
    (epilogue : Ir.Label) {f : Ir.Function} (h : f.labelProblem? = none) :
    LabelSafe (p.functionCode types options epilogue f) := by
  have (entities : EntityTable) := Avoids.compute (measurable entities types) (f := f)
  have (frame : Frame) (entities : EntityTable) : LabelSafe (frame.assign entities) := by
    unfold Frame.assign Frame.assignSlot
    infer_instance
  have (p : Placement) : LabelSafe (p.bodyCode options epilogue f.body.toList) :=
    Avoids.bodyCode fun _ _ v _ => readable p v
  unfold Placement.functionCode
  simp only [h]
  infer_instance

/-- Functions whose labels are paired are compiled without a fault in their labels. -/
theorem functionsCode (p : Placement) (types : TypeTable) (options : AssemblyOptions)
    (labels : Ir.LabelSupply) {fs : List Ir.Function} (h : ∀ f ∈ fs, f.labelProblem? = none) :
    LabelSafe (p.functionsCode types options labels fs) := by
  induction fs generalizing p labels with
  | nil => exact .ok _
  | cons f fs ih =>
    have hf := fun epilogue => functionCode p types options epilogue (h f List.mem_cons_self)
    have hfs := fun p labels => ih p labels fun g hg => h g (List.mem_cons_of_mem _ hg)
    rw [Placement.functionsCode]
    infer_instance

end LabelSafe

/-- The code generator does not stop with broken labels if the labels of every function are in
order. -/
theorem Ir.Module.labelSafe_assemble {m : Ir.Module}
    (h : ∀ f ∈ m.functions, f.labelProblem? = none) (types : TypeTable)
    (options : AssemblyOptions) : LabelSafe (m.assemble types options) := by
  have hfunctions := fun p => LabelSafe.functionsCode p types options m.labels h
  have hvars := fun p : Placement =>
    Avoids.variableData (LabelSafe.measurable p.entities types) m.vars
  unfold Ir.Module.assemble
  dsimp only
  split
  · exact .error not_false
  · infer_instance

/-! ## Epilogues -/

/-- A supply hands out a label sooner or later. -/
inductive Ir.LabelSupply.HandsOut : Ir.LabelSupply → Ir.Label → Prop
  | now {supply : Ir.LabelSupply} : HandsOut supply supply.take.2
  | later {supply : Ir.LabelSupply} {l : Ir.Label} : HandsOut supply.take.1 l → HandsOut supply l

/-- What a supply hands out has not been handed out before. -/
theorem Ir.LabelSupply.HandsOut.le {supply : Ir.LabelSupply} {l : Ir.Label}
    (h : supply.HandsOut l) : supply.next ≤ l.index := by
  induction h with
  | now => exact Nat.le_refl _
  | later _ ih => exact Nat.le_of_succ_le ih

/-- The epilogue of every function is behind a label that the supply hands out. -/
theorem Placement.exists_epilogue {p : Placement} {types : TypeTable} {options : AssemblyOptions}
    {labels : Ir.LabelSupply} {fs : List Ir.Function} {code : Listing}
    (h : p.functionsCode types options labels fs = .ok code) {f : Ir.Function} (hf : f ∈ fs) :
    ∃ p' p'' epilogue part, labels.HandsOut epilogue ∧
      Placement.functionCode p' types options epilogue f = .ok (p'', part) ∧ part <:+: code := by
  induction fs generalizing p labels code with
  | nil => cases hf
  | cons g fs ih =>
    obtain ⟨⟨p', part⟩, hpart, hrest⟩ := bind_eq_ok_iff.1 h
    obtain ⟨rest, hcode, hcat⟩ := bind_eq_ok_iff.1 hrest
    obtain rfl := Except.ok.inj hcat
    rcases List.mem_cons.1 hf with rfl | hf
    · exact ⟨p, p', _, part, .now, hpart, (List.prefix_append ..).isInfix⟩
    · obtain ⟨q, q', epilogue, part', hlabel, hpart', hinfix⟩ := ih hcode hf
      exact ⟨q, q', epilogue, part', .later hlabel, hpart',
        hinfix.trans (List.suffix_append ..).isInfix⟩

/-- The code of each function was made with an epilogue label of its own. -/
theorem Ir.Module.exists_epilogue {m : Ir.Module} {types : TypeTable} {options : AssemblyOptions}
    {code : Listing} (h : m.assemble types options = .ok code) {f : Ir.Function}
    (hf : f ∈ m.functions) :
    ∃ p p' epilogue part, m.labels.HandsOut epilogue ∧
      Placement.functionCode p types options epilogue f = .ok (p', part) ∧ part <:+: code := by
  unfold Ir.Module.assemble at h
  dsimp only at h
  split at h
  · cases h
  · obtain ⟨p, -, h⟩ := bind_eq_ok_iff.1 h
    obtain ⟨vars, -, h⟩ := bind_eq_ok_iff.1 h
    obtain ⟨strings, -, h⟩ := bind_eq_ok_iff.1 h
    obtain ⟨functions, hfunctions, h⟩ := bind_eq_ok_iff.1 h
    obtain rfl := Except.ok.inj h
    obtain ⟨p', p'', epilogue, part, hlabel, hpart, hinfix⟩ := p.exists_epilogue hfunctions hf
    exact ⟨p', p'', epilogue, part, hlabel, hpart, hinfix.trans (List.suffix_append ..).isInfix⟩

/-! ## Errors -/

namespace Diagnostics

theorem errorCount_append (a b : Diagnostics) :
    errorCount (a ++ b) = errorCount a + errorCount b := by
  simp [errorCount, errors]

theorem errorCount_mono {a b : Diagnostics} (h : a <+: b) : errorCount a ≤ errorCount b := by
  obtain ⟨c, rfl⟩ := h
  rw [errorCount_append]
  exact Nat.le_add_right ..

/-- Without errors there are no undefined labels. -/
theorem not_isUndefinedLabel {ds : Diagnostics} (h : ds.errorCount = 0) {d : Diagnostic}
    (hd : d ∈ ds) : ¬ d.IsUndefinedLabel := by
  rintro ⟨name, location, rfl⟩
  have hnone := List.filter_eq_nil_iff.1 (List.length_eq_zero_iff.1 h) _ hd
  exact hnone (decide_eq_true rfl)

end Diagnostics

/-! ## Units -/

namespace Lower

/-- A unit is lowered in two rounds: its declarations, then its functions. -/
theorem lower_eq_ok {p : Source.Program} {types : TypeTable} {ds : Diagnostics} {lowered : Lowered}
    (h : p.lower types ds = .ok lowered) :
    ∃ declared s runs s',
      declare {} p.declarations { types, entities := p.entities, diagnostics := ds } =
        .ok (declared, s) ∧
      FunctionRuns [] declared.functions s runs s' ∧
      lowered.module.functions = runs.map (·.function) ∧
      lowered.module.labels = s'.labels ∧ lowered.diagnostics = s'.diagnostics := by
  obtain ⟨⟨result, s'⟩, hwork, hlowered⟩ := Backend386.bind_eq_ok_iff.1 h
  obtain rfl := Except.ok.inj hlowered
  obtain ⟨declared, s, hdeclared, hrest⟩ := bind_eq_ok_iff.1 hwork
  obtain ⟨⟨fs, statics⟩, s₁, hfs, hpure⟩ := bind_eq_ok_iff.1 hrest
  obtain ⟨rfl, rfl⟩ := Prod.mk.inj (Except.ok.inj hpure)
  obtain ⟨runs, hruns, hmap⟩ := functions_eq_ok hfs
  exact ⟨declared, s, runs, s₁, hdeclared, hruns, hmap, rfl, rfl⟩

/-- No undefined label is reported for a function if no error is reported at all. -/
theorem FunctionRuns.labelProblem?_eq_none {before : List String} {ids : List EntityId}
    {runs : List FunctionRun} {s s' : LowerState} (h : FunctionRuns before ids s runs s')
    (hquiet : s'.diagnostics.errorCount = s.diagnostics.errorCount) {r : FunctionRun}
    (hr : r ∈ runs) : r.function.labelProblem? = none := by
  obtain ⟨hlabels, hbefore, hafter⟩ := h.labels hr
  obtain ⟨hreported, hiff⟩ := hlabels.isSome_iff
  have hcount : Diagnostics.errorCount r.reported = 0 := by
    have hle₁ := Diagnostics.errorCount_mono hbefore.diagnostics
    have hle₂ := Diagnostics.errorCount_mono hafter.diagnostics
    rw [← hreported, Diagnostics.errorCount_append] at hle₂
    omega
  rw [← Option.not_isSome_iff_eq_none, hiff]
  rintro ⟨d, hd, hundefined⟩
  exact Diagnostics.not_isUndefinedLabel hcount hd hundefined

end Lower

/-- Whenever a unit is lowered: no label is placed twice in it, and for every function the check of
its labels finds a problem iff an undefined label was reported for it. If no error was reported, the
code generator does not stop with broken labels. The labels that are handed out later, those of the
epilogues among them, are placed nowhere. -/
theorem Source.Program.labels_paired {p : Source.Program} {types : TypeTable} {ds : Diagnostics}
    {lowered : Lowered} (h : p.lower types ds = .ok lowered) :
    (lowered.module.functions.flatMap (·.placedLabels)).Nodup ∧
    (∃ declared s runs s',
      Lower.declare {} p.declarations { types, entities := p.entities, diagnostics := ds } =
        .ok (declared, s) ∧
      Lower.FunctionRuns [] declared.functions s runs s' ∧
      lowered.module.functions = runs.map (·.function) ∧ lowered.diagnostics = s'.diagnostics ∧
      ∀ r ∈ runs, r.before.diagnostics ++ r.reported = r.after.diagnostics ∧
        (r.function.labelProblem?.isSome ↔ ∃ d ∈ r.reported, d.IsUndefinedLabel)) ∧
    (lowered.diagnostics.errorCount = ds.errorCount → ∀ types' options function problem,
      lowered.module.assemble types' options ≠ .error (.brokenLabels function problem)) ∧
    (∀ l, lowered.module.labels.HandsOut l → ∀ f ∈ lowered.module.functions,
      l ∉ f.placedLabels) ∧
    ∀ types' options code, lowered.module.assemble types' options = .ok code →
      ∀ f ∈ lowered.module.functions, ∃ before after epilogue part,
        lowered.module.labels.HandsOut epilogue ∧
        Placement.functionCode before types' options epilogue f = .ok (after, part) ∧
        part <:+: code := by
  obtain ⟨declared, s, runs, s', hdeclared, hruns, hfunctions, hsupply, hdiagnostics⟩ :=
    Lower.lower_eq_ok h
  refine ⟨?_, ⟨declared, s, runs, s', hdeclared, hruns, hfunctions, hdiagnostics, ?_⟩, ?_, ?_, ?_⟩
  · rw [hfunctions, List.flatMap_map]
    exact hruns.nodup
  · exact fun r hr => (hruns.labels hr).1.isSome_iff
  -- without new errors no function has a problem with its labels, and nothing else faults like that
  · intro hquiet types' options function problem herror
    have hbefore : ds.errorCount ≤ s.diagnostics.errorCount :=
      Diagnostics.errorCount_mono (Lower.UnitStepwise.grows inferInstance hdeclared).diagnostics
    have hafter := Diagnostics.errorCount_mono hruns.grows.diagnostics
    rw [hdiagnostics] at hquiet
    have hnone : ∀ f ∈ lowered.module.functions, f.labelProblem? = none := by
      rw [hfunctions]
      rintro f hf
      obtain ⟨r, hr, rfl⟩ := List.mem_map.1 hf
      exact hruns.labelProblem?_eq_none (by omega) hr
    exact (lowered.module.labelSafe_assemble hnone types' options).faults _ herror trivial
  -- labels that are handed out later are beyond all that were placed
  · intro l hl f hf hplaced
    rw [hfunctions] at hf
    obtain ⟨r, hr, rfl⟩ := List.mem_map.1 hf
    have hnew := hl.le
    have hold := (hruns.handed hr hplaced).2
    rw [hsupply] at hnew
    omega
  · exact fun types' options code hcode f hf => Ir.Module.exists_epilogue hcode hf

/-- The functions `{ again: while (1 && 1) break; name: goto again; }` and
`{ goto target; done: return; }`. -/
def retries (name target : String) : Source.Program where
  entities :=
    let int : Source.Note := { type := .integer .int true }
    let both : Source.Expr := .logical int .and (.int int 1) (.int int 1)
    let retry : Source.Block := .mk [] [.label none "again" (.whileLoop none both (.breakOut none)),
      .label none name (.goto none "again")]
    let leave : Source.Block := .mk [] [.goto none target, .label none "done" (.ret none none)]
    ⟨[{ name := "retry", ref := .function .void [] false, kind := .definedFunction [] retry },
      { name := "leave", ref := .function .void [] false, kind := .definedFunction [] leave }]⟩
  declarations := [⟨0⟩, ⟨1⟩]

/-- A name that is placed twice does not disturb the pairing, and a target that is missing is
reported for the function that jumps to it. -/
theorem Source.Program.labels_paired_retries :
    (∃ lowered, (retries "more" "done").lower (.initial .ilp32) [] = .ok lowered ∧
      lowered.diagnostics.errorCount = 0 ∧
      ∀ types' options function problem,
        lowered.module.assemble types' options ≠ .error (.brokenLabels function problem)) ∧
    ∃ lowered, (retries "again" "nowhere").lower (.initial .ilp32) [] = .ok lowered ∧
      lowered.diagnostics.errorCount = 2 ∧
      lowered.module.functions.map (·.labelProblem?.isSome) = [false, true] ∧
      (lowered.module.functions.flatMap (·.placedLabels)).Nodup := by
  -- a run of the compiler, of which two results are read off
  have hlowers (p : Source.Program) (errors : Nat) (problems : List Bool)
      (h : (p.lower (.initial .ilp32) []).toOption.map (fun lowered =>
        (lowered.diagnostics.errorCount, lowered.module.functions.map (·.labelProblem?.isSome))) =
          some (errors, problems)) :
      ∃ lowered, p.lower (.initial .ilp32) [] = .ok lowered ∧
        lowered.diagnostics.errorCount = errors ∧
        lowered.module.functions.map (·.labelProblem?.isSome) = problems := by
    cases hlower : p.lower (.initial .ilp32) [] with
    | error fault =>
      rw [hlower] at h
      cases h
    | ok lowered =>
      rw [hlower] at h
      obtain ⟨rfl, rfl⟩ := Prod.mk.inj (Option.some.inj h)
      exact ⟨lowered, rfl, rfl, rfl⟩
  constructor
  · obtain ⟨lowered, hlower, hcount, -⟩ := hlowers (retries "more" "done") 0 [false, false]
      (by decide +kernel)
    exact ⟨lowered, hlower, hcount, (labels_paired hlower).2.2.1 hcount⟩
  · obtain ⟨lowered, hlower, hcount, hproblems⟩ := hlowers (retries "again" "nowhere") 2
      [false, true] (by decide +kernel)
    exact ⟨lowered, hlower, hcount, hproblems, (labels_paired hlower).1⟩

end Backend386
