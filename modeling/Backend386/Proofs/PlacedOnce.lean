import Mathlib.Data.List.Flatten
import Backend386.Proofs.I386.Placed
import Backend386.Proofs.Lowering.Expr
import Backend386.Proofs.Lowering.Units
import Backend386.Proofs.Stages

/-!
# The entities of a unit are placed once

In a well scoped unit, no entity is declared twice or belongs to two functions, and the code of a
function names only what is declared and what belongs to the function. The lists that the code
generator goes through are made from these: the declarations, the parameters and block variables of
the functions, and the temporaries that the lowering adds.

* `Source.Program.WellScoped` — well scoped units;
* `Lower.FunctionsFrom.placed` — where the variables of the functions are placed;
* `Source.Program.placed_once` — all that is used is placed before, and nothing is placed twice.
-/

namespace Backend386

/-! ## Well scoped units -/

/-- The parameters and the block variables of a function. -/
def Entity.locals (e : Entity) : List EntityId :=
  match e.kind with
  | .definedFunction params body => params ++ body.scope.variablesOfTree
  | _ => []

/-- The parameters and the block variables of a function of the table. -/
def EntityTable.localsOf (t : EntityTable) (id : EntityId) : List EntityId :=
  match t.get id with
  | .ok e => e.locals
  | .error _ => []

/-- A unit in which every entity is declared once or belongs to one function, and every function
names only what is declared, constants, and what belongs to it. -/
structure Source.Program.WellScoped (p : Source.Program) : Prop where
  /-- parameters are not declared -/
  declared : ∀ id ∈ p.declarations, ∃ e, p.entities.get id = .ok e ∧ e.isParameter = false
  locals : ∀ id ∈ p.declarations, ∀ v ∈ p.entities.localsOf id, v.index < p.entities.size
  nodup : (p.declarations ++ p.declarations.flatMap p.entities.localsOf).Nodup
  /-- in the body of a function, in the initializers of its variables and in the constants that are
  inlined into them -/
  named : ∀ id ∈ p.declarations, ∀ f params body, p.entities.get id = .ok f →
    f.kind = .definedFunction params body → ∀ n v,
    (body.part.closure p.entities).exprs (.var n v) →
      v ∈ p.declarations ∨ (∃ c, p.entities.get v = .ok c ∧ c.isConstant = true) ∨ v ∈ f.locals
  /-- storage is for the code generator to settle -/
  unplaced : ∀ id, p.entities.Unplaced id

/-- An entity without a constant value is no constant. -/
theorem Entity.not_isConstant {e : Entity} (h : e.constantValue? = none) :
    ¬ e.isConstant = true := by
  unfold constantValue? at h
  unfold isConstant
  split at h
  · cases h
  · exact Bool.false_ne_true

namespace EntityTable

variable {t t' : EntityTable} {id : EntityId} {e : Entity}

theorem localsOf_eq (h : t.get id = .ok e) : t.localsOf id = e.locals := by
  rw [localsOf, h]

/-- The functions stay what they are while a unit is lowered. -/
theorem Readied.locals (h : t.Readied t') (he : t'.get id = .ok e) : t.localsOf id = e.locals := by
  rcases h.get_cases he with ⟨e₀, he₀, type, uses, sequence, rfl⟩ | ⟨htemp, hle⟩
  · rw [localsOf_eq he₀, Entity.locals, Entity.locals]
  · rw [Entity.locals, htemp.kind, localsOf]
    split
    · next hget => exact absurd (lt_of_get hget) (not_lt.2 hle)
    · rfl

end EntityTable

namespace Lower

variable {s s' F : LowerState} {id : EntityId} {f : Ir.Function} {t : EntityTable}

/-! ## Functions -/

theorem nodup_idsFrom (start count : Nat) : (idsFrom start count).Nodup :=
  List.Nodup.map (fun _ _ h => EntityId.mk.inj h) List.nodup_range'

/-- The variables of a lowered function are those it had, and temporaries. -/
theorem Grown.variablesOfTree {params : List EntityId} {body : Source.Block}
    (h : Grown
      { s with function := { entity := id, params, scope := body.scope }, named := [] } s') :
    ∃ count, s'.entities.size = s.entities.size + count ∧
      s'.function.scope.variablesOfTree.Perm
        (body.scope.variablesOfTree ++ idsFrom s.entities.size count) := by
  obtain ⟨new, hentities, hvars, -⟩ := h.added
  refine ⟨new.length, ?_, ?_⟩
  · rw [EntityTable.size, hentities, List.length_append]
    rfl
  · -- the temporaries stand behind the variables of the outermost block
    rw [Scope.variablesOfTree_eq, Scope.variablesOfTree_eq body.scope, hvars, h.children]
    refine List.perm_iff_count.2 fun x => ?_
    simp only [List.count_append]
    omega

/-- Privacy does not change while a unit is lowered. -/
theorem Carried.withPrivacy (h : Carried s s') {isPrivate : Bool} {ids : List EntityId}
    (hids : ∀ id ∈ ids, id.index < s.entities.size) :
    s'.entities.withPrivacy isPrivate ids = s.entities.withPrivacy isPrivate ids := by
  refine EntityTable.withPrivacy_congr fun id hid => ?_
  obtain ⟨e, he⟩ := EntityTable.exists_get (hids id hid)
  obtain ⟨e', he', sequence, rfl⟩ := h.entities he
  exact ⟨e, _, he, he', rfl⟩

/-- The variables of a function are its static variables, and those in its frame. -/
theorem statics_perm {statics : List EntityId} (h : Carried s F)
    (hstatics : f.scope.staticVariables s.entities = .ok statics) :
    (statics ++ f.frameEntities F.entities).Perm (f.params ++ f.scope.variablesOfTree) := by
  obtain ⟨rfl, hrange⟩ := EntityTable.selectPrivate_eq_ok hstatics
  have hsplit := EntityTable.withPrivacy_perm hrange
  rw [Ir.Function.frameEntities, h.withPrivacy hrange]
  refine (List.perm_iff_count.2 fun x => ?_).trans (hsplit.append_left f.params)
  simp only [List.count_append]
  omega

namespace FunctionsFrom

variable {ids : List EntityId} {fs : List Ir.Function} {vars : List Ir.StaticVariable}

/-- There is one function for each id. -/
theorem map_entity (h : FunctionsFrom ids s fs vars s') : fs.map (·.entity) = ids := by
  induction h with
  | nil => rfl
  | cons hf _ _ _ ih =>
    obtain ⟨e, params, body, -, -, rfl, hgrown, -⟩ := function_eq_ok hf
    rw [List.map_cons, ih, hgrown.entity]

/-- The variables of the functions are placed once each: the parameters and block variables that the
program gives them, and new temporaries. -/
theorem placed (h : FunctionsFrom ids s fs vars s') (ht : t.Readied s.entities)
    (hF : Carried s' F) : ∃ temps : List EntityId, temps.Nodup ∧
      (∀ v ∈ temps, s.entities.size ≤ v.index ∧ v.index < s'.entities.size) ∧
      (vars.map (·.entity) ++ fs.flatMap (·.frameEntities F.entities)).Perm
        (ids.flatMap t.localsOf ++ temps) := by
  induction h with
  | nil => exact ⟨[], by simp, by simp, by simp⟩
  -- the entities of one function, then those of the others: the numbers of its temporaries are
  -- between
  | @cons id ids statics s s₁ s₂ s₃ f fs before before' vars more hf hstatics hvars hrest ih =>
    obtain ⟨hmap, hbetween, -⟩ := staticLocals_eq_ok hvars
    have hcarried := carried_function hf
    obtain ⟨e, params, body, he, hkind, rfl, hgrown, -⟩ := function_eq_ok hf
    obtain ⟨count, hsize, htree⟩ := hgrown.variablesOfTree
    -- what the function declares is known from the unit, before anything is lowered
    have hlocals : t.localsOf id = params ++ body.scope.variablesOfTree := by
      rw [ht.locals he, Entity.locals, hkind]
    have hfirst : (s₁.function.params ++ s₁.function.scope.variablesOfTree).Perm
        (t.localsOf id ++ idsFrom s.entities.size count) := by
      rw [hlocals, List.append_assoc, hgrown.params]
      exact htree.append_left params
    obtain ⟨temps, hnodup, hrange, hothers⟩ := ih (ht.carried (hcarried.trans hbetween)) hF
    have hlater := hbetween.size_le
    refine ⟨idsFrom s.entities.size count ++ temps, ?_, fun v hv => ?_, ?_⟩
    · -- the temporaries of the first function come before those of the others
      refine List.nodup_append.2 ⟨nodup_idsFrom .., hnodup, fun v hv w hw heq => ?_⟩
      have hv := mem_idsFrom.1 hv
      have hw := hrange w hw
      rw [heq] at hv
      omega
    · have hend := hrest.carried.size_le
      rcases List.mem_append.1 hv with hv | hv
      · have hv := mem_idsFrom.1 hv
        omega
      · have hv := hrange v hv
        omega
    · have hone := (statics_perm (hbetween.trans (hrest.carried.trans hF)) hstatics).trans hfirst
      -- two lists are rearranged into one another when they agree in every count
      refine List.perm_iff_count.2 fun x => ?_
      have hone := hone.count_eq x
      have hothers := hothers.count_eq x
      simp only [List.map_append, List.flatMap_cons, List.count_append, hmap] at hone hothers ⊢
      omega

end FunctionsFrom

end Lower

/-! ## Units -/

namespace Lowering

variable {p : Source.Program} {types : TypeTable} {ds : Diagnostics} {lowered : Lowered}

theorem declares (l : Lowering p types ds lowered) :
    Lower.Declares {} p.declarations l.start l.declared l.between :=
  l.entities_typed.2.2 ▸ Lower.declare_eq_ok l.declare

theorem functionsFrom (l : Lowering p types ds lowered) :
    Lower.FunctionsFrom l.declared.functions l.between lowered.module.functions l.statics l.final :=
  Lower.functionsFrom_of_ok l.functions

theorem declared_functions (l : Lowering p types ds lowered) :
    l.declared.functions.Sublist p.declarations := by
  obtain ⟨new, hnew, hsub⟩ := l.declares.functions
  rwa [hnew]

/-- What is declared is placed as such, or it is a constant. -/
theorem addressed_or_constant (l : Lowering p types ds lowered) {id : EntityId}
    (h : id ∈ p.declarations) : id ∈ lowered.module.addressed ∨
      ∃ c, p.entities.get id = .ok c ∧ c.isConstant = true := by
  have hmem := l.declares.perm.mem_iff.2 (List.mem_append_right _ h)
  rcases List.mem_append.1 hmem with hmem | hmem
  · refine .inl ?_
    rw [Ir.Module.addressed, l.vars, l.undefined, l.functionsFrom.map_entity, List.map_append]
    simp only [Lower.Declared.addressed, List.mem_append] at hmem ⊢
    tauto
  · obtain ⟨c, hc, rfl⟩ := List.mem_map.1 hmem
    rcases l.declares.constant c hc with hc | ⟨-, e, value, s₁, s₂, h₁, -, he, hkind, -⟩
    · cases hc
    · rcases (l.readied h₁).get_cases he with ⟨e₀, he₀, type, uses, sequence, rfl⟩ | ⟨htemp, -⟩
      · refine .inr ⟨e₀, he₀, ?_⟩
        rw [Entity.isConstant, show e₀.kind = .constant value from hkind]
      · rw [htemp.kind] at hkind
        cases hkind

/-- The lists of the code generator hold what is declared, the variables of the functions and
temporaries. -/
theorem placements_nodup (l : Lowering p types ds lowered) (h : p.WellScoped) :
    lowered.module.placements.Nodup := by
  obtain ⟨temps, hnodup, hrange, hfunctions⟩ := l.functionsFrom.placed
    (l.readied l.declares.carried) (.refl l.final)
  have hperm : lowered.module.placements.Perm (p.declarations ++
      l.declared.functions.flatMap p.entities.localsOf ++ temps) := by
    refine List.perm_iff_count.2 fun x => ?_
    have hdeclared := l.declares.perm.count_eq x
    have hfunctions := hfunctions.count_eq x
    rw [Ir.Module.placements, Ir.Module.addressed, l.vars, l.undefined, l.namedConstants,
      l.entities, l.functionsFrom.map_entity]
    simp only [Lower.Declared.addressed, Lower.Declared.constants, List.map_append,
      List.count_append, List.map_nil, List.nil_append] at hdeclared hfunctions ⊢
    omega
  have hsub := (List.Sublist.refl p.declarations).append
    (l.declared_functions.flatMap p.entities.localsOf)
  refine hperm.nodup_iff.2 (List.nodup_append.2 ⟨h.nodup.sublist hsub, hnodup, ?_⟩)
  -- temporaries are no entities of the program
  intro v hv w hw heq
  have hsize : v.index < p.entities.size := by
    rcases List.mem_append.1 hv with hv | hv
    · obtain ⟨e, he, -⟩ := h.declared v hv
      exact EntityTable.lt_of_get he
    · obtain ⟨id, hid, hv⟩ := List.mem_flatMap.1 hv
      exact h.locals id (l.declared_functions.mem hid) v hv
  have hle := (l.readied l.declares.carried).passes.size_le
  have hw := (hrange w hw).1
  rw [← heq] at hw
  omega

/-- All variables of a function are placed: the static ones as such, the others in the frame. -/
theorem placed_local (l : Lowering p types ds lowered) {f : Ir.Function}
    (hf : f ∈ lowered.module.functions) {v : EntityId}
    (hv : v ∈ f.params ++ f.scope.variablesOfTree) :
    v ∈ lowered.module.addressed ∨ v ∈ f.frameEntities lowered.module.entities := by
  obtain ⟨id, -, s₁, s₂, statics, -, h₂, -, hstatics, hmem⟩ := l.functionsFrom.function hf
  rw [l.entities]
  have hv := (Lower.statics_perm h₂ hstatics).mem_iff.2 hv
  refine (List.mem_append.1 hv).imp_left fun hv => ?_
  rw [Ir.Module.addressed, l.vars, List.map_append]
  exact List.mem_append_left _ (List.mem_append_right _ (hmem v hv))

/-- What a function mentions is placed. -/
theorem mentioned (l : Lowering p types ds lowered) (h : p.WellScoped) {f : Ir.Function}
    (hf : f ∈ lowered.module.functions) {stmt : Ir.Stmt} (hstmt : stmt ∈ f.body.toList)
    {v : EntityId} (hv : v ∈ stmt.action.entities) :
    v ∈ lowered.module.addressed ∨ v ∈ f.frameEntities lowered.module.entities := by
  obtain ⟨id, hid, s₁, s₂, -, h₁, -, hrun, -⟩ := l.functionsFrom.function hf
  have hready := l.readied (l.declares.carried.trans h₁)
  have hlater := hready.carried (Lower.FunctionsFrom.carried_function hrun)
  obtain ⟨e, params, body, he, hkind, rfl, hgrown, hknown⟩ := Lower.function_eq_ok hrun
  obtain ⟨count, -, htree⟩ := hgrown.variablesOfTree
  have hlocal {v : EntityId} (hv : v ∈ params ++ body.scope.variablesOfTree) :=
    l.placed_local hf (v := v) <| List.mem_append.2 <| (List.mem_append.1 hv).imp
      (hgrown.params ▸ ·) fun hv => htree.mem_iff.2 (List.mem_append_left _ hv)
  -- a variable of a block, a name of the source, or a temporary
  rcases (hknown stmt hstmt).entities v hv trivial with hv | hscope | ⟨n, d, hexpr, hget, hnone⟩
  · exact hlocal (List.mem_append_right _ hv)
  · refine l.placed_local hf (List.mem_append_right _ ?_)
    rw [Scope.variablesOfTree_eq]
    exact List.mem_append_left _ hscope
  · -- what the function names is declared, or it is a constant, or it is local
    rcases hready.get_cases he with ⟨e₀, he₀, type, uses, sequence, rfl⟩ | ⟨htemp, -⟩
    · have hnot : ¬ ∃ c, p.entities.get v = .ok c ∧ c.isConstant = true := by
        rintro ⟨c, hc, hconstant⟩
        obtain ⟨c', hc', type, uses, sequence, rfl⟩ := hlater.passes hc
        obtain rfl := Except.ok.inj (hc'.symm.trans hget)
        exact Entity.not_isConstant hnone hconstant
      rcases h.named id (l.declared_functions.mem hid) e₀ params body he₀ hkind n v
        (hready.occurs hexpr) with hv | hv | hv
      · exact (l.addressed_or_constant hv).elim .inl fun hc => absurd hc hnot
      · exact absurd hv hnot
      · rw [Entity.locals, show e₀.kind = .definedFunction params body from hkind] at hv
        exact hlocal hv
    · rw [htemp.kind] at hkind
      cases hkind

/-- Every named constant has a value, or an error was reported. -/
theorem constant_value (l : Lowering p types ds lowered)
    (hquiet : lowered.diagnostics.hasErrors = false) {c : Ir.NamedConstant}
    (hc : c ∈ lowered.module.namedConstants) :
    ∃ value, c.value = some value ∧ value.isConstant = true := by
  rw [l.namedConstants] at hc
  rcases l.declares.constant c hc with hc | ⟨-, e, init, s₁, s₂, -, h₂, -, -, hstatic⟩
  · cases hc
  rcases Lower.staticValue_eq_ok hstatic with ⟨x, hx, hconstant⟩ | ⟨-, hreported⟩
  · obtain ⟨-, -, -, -, hx'⟩ := Lower.constant?_eq_ok hconstant
    exact ⟨x, hx, hx'⟩
  · have hrest := Diagnostics.errorCount_mono ((h₂.trans l.functionsFrom.carried).diagnostics)
    have hend := Diagnostics.errorCount_mono l.diagnostics
    have hzero := Diagnostics.errorCount_eq_zero hquiet
    omega

end Lowering

/-- In a well scoped unit that is lowered without errors, the lists of entities that the code
generator goes through have no entity in common, and the code of a function mentions only what has
static storage or a slot in its frame. So no storage is set twice, none is read before it is set,
and whatever is used has an address or a value. -/
theorem Source.ProgramUnit.placed_once {unit : Source.ProgramUnit} {profile : WidthProfile}
    {lowered : Lowered} (hscoped : unit.program.WellScoped) (h : unit.Lowers profile lowered) :
    lowered.module.placements.Nodup ∧
    (∀ f ∈ lowered.module.functions, ∀ stmt ∈ f.body.toList, ∀ v ∈ stmt.action.entities,
      v ∈ lowered.module.addressed ∨ v ∈ f.frameEntities lowered.module.entities) ∧
    ∀ options, FaultsIn (¬ ·.IsPlacement) (lowered.module.assemble lowered.types options) := by
  obtain ⟨types, ds, htypes, hchecked, hlower, hquiet⟩ := h
  obtain ⟨hcomplete, -, -⟩ := checkedTypes_sound htypes hchecked
  obtain ⟨l⟩ := lowering_of_ok hlower
  have hready := l.readied l.carried
  -- no entity is placed twice, so that nothing stands in the way of placing them
  have hnodup := l.placements_nodup hscoped
  have hbody : ∀ f ∈ lowered.module.functions, ∀ stmt ∈ f.body.toList, ∀ v ∈ stmt.action.entities,
      v ∈ lowered.module.addressed ∨ v ∈ f.frameEntities lowered.module.entities :=
    fun f hf stmt hstmt v hv => l.mentioned hscoped hf hstmt hv
  refine ⟨hnodup, hbody, fun options => ?_⟩
  refine (Ir.Module.placed_assemble (hcomplete.of_extends l.types_extends) ?_ ?_
    (fun c hc => l.constant_value hquiet hc) hnodup hbody options).faults
  · intro id e he
    exact hready.typed (l.entities ▸ he)
  · intro id e he
    rw [l.entities] at he
    rcases hready.get_cases he with ⟨e₀, he₀, type, uses, sequence, rfl⟩ | ⟨htemp, -⟩
    · exact hscoped.unplaced id e₀ he₀
    · exact htemp.storage

/-- The unit `const int limit = 3; int next(int step) { static int total = 0; int i = limit;
i += step; return total++ + i; }`. -/
def counter : Source.ProgramUnit where
  program := {
    entities := ⟨[
      { name := "limit", ref := .integer .int true, kind := .constant (.int .int 3) },
      { name := "next", ref := .function (.integer .int true) [.integer .int true] false,
        kind := .definedFunction [⟨2⟩] (.mk [⟨3⟩, ⟨4⟩] [
          .expr none (.opAssign .int .add (.var .int ⟨4⟩) (.var .int ⟨2⟩)),
          .ret none (some (.binary .int .add (.postStep .int .inc (.var .int ⟨3⟩))
            (.var .int ⟨4⟩)))]) },
      { name := "step", ref := .integer .int true, kind := .parameter },
      { name := "total", ref := .integer .int true, isPrivate := true,
        kind := .definedVariable (some (.int .int 0)) },
      { name := "i", ref := .integer .int true,
        kind := .definedVariable (some (.var .int ⟨0⟩)) }]⟩
    declarations := [⟨0⟩, ⟨1⟩] }

/-- The example declares what it uses. -/
theorem counter_wellScoped : counter.program.WellScoped where
  declared := by
    intro id hid
    simp only [counter, List.mem_cons, List.not_mem_nil, or_false] at hid
    rcases hid with rfl | rfl <;> exact ⟨_, rfl, rfl⟩
  locals := by decide
  nodup := by decide
  named := by
    intro id hid f params body hf hkind n v hv
    simp only [counter, List.mem_cons, List.not_mem_nil, or_false] at hid
    rcases hid with rfl | rfl
    · obtain rfl := Except.ok.inj hf
      cases hkind
    · obtain rfl := Except.ok.inj hf
      obtain ⟨rfl, rfl⟩ := EntityKind.definedFunction.inj hkind
      -- the body and the initializers mention the constant and the variables of the function
      suffices hmem : v ∈ [⟨0⟩, ⟨2⟩, ⟨3⟩, ⟨4⟩] by
        simp only [List.mem_cons, List.not_mem_nil, or_false] at hmem
        rcases hmem with rfl | hmem
        · exact .inl (by decide)
        · refine .inr (.inr ?_)
          rcases hmem with rfl | rfl | rfl <;> decide
      refine hv.uses (· ∈ _) ?_ ?_ ?_ v (List.mem_singleton.2 rfl)
      · simp [Source.Block.part, Source.Block.exprs, Source.exprsOfStmts, Source.Stmt.exprs,
          Source.Expr.uses]
      · simp [counter, Entity.constantValue?, Source.Expr.uses]
      · simp [Source.Block.part, Source.Block.scope, Scope.variablesOfTree, Scope.variablesOfTrees,
          Source.scopesOfStmts, Source.Stmt.scopes, counter, EntityTable.get, Entity.initializer?,
          Source.Expr.uses]
  unplaced := by
    intro id e he
    have hmem := EntityTable.mem_of_get he
    simp only [counter, List.mem_cons, List.not_mem_nil, or_false] at hmem
    rcases hmem with rfl | rfl | rfl | rfl | rfl <;> rfl

/-- The static variable, the function, the constant, the parameter, the variable on the stack and a
temporary are placed, and all of them can be used. -/
theorem Source.ProgramUnit.placed_once_counter :
    ∃ lowered, counter.Lowers .ilp32 lowered ∧
      lowered.module.placements = [⟨3⟩, ⟨1⟩, ⟨0⟩, ⟨2⟩, ⟨4⟩, ⟨5⟩] ∧
      lowered.module.placements.Nodup ∧
      ∀ options, FaultsIn (¬ ·.IsPlacement) (lowered.module.assemble lowered.types options) := by
  obtain ⟨lowered, hlowers, hplacements⟩ := exists_lowers counter .ilp32
    (fun lowered => lowered.module.placements) [⟨3⟩, ⟨1⟩, ⟨0⟩, ⟨2⟩, ⟨4⟩, ⟨5⟩] (by decide +kernel)
  obtain ⟨hnodup, -, hfaults⟩ := placed_once counter_wellScoped hlowers
  exact ⟨lowered, hlowers, hplacements, hnodup, hfaults⟩

end Backend386
