import Backend386.Proofs.Places.Lowering

/-!
# Units are lowered alike without places

A unit without its places has the same uses, and its statements and functions are lowered to the
same intermediate code, but for the places.

* `Lower.echo_block`, `Lower.echoVia_function` — statements and functions;
* `Source.Program.lower_bare`, `lowerProgram_bare` — units.
-/

namespace Backend386

/-! ## Parts of blocks -/

namespace Source

@[simp] theorem Expr.bareAll_eq_map (es : List Expr) : Expr.bareAll es = es.map (·.bare) := by
  induction es with
  | nil => rfl
  | cons e es ih => rw [bareAll, ih, List.map_cons]

/-- A case without places. -/
def Case.bare : Case → Case
  | .mk values body => .mk (values.map (·.bare)) body.bare

@[simp] theorem Case.isDefault_bare (c : Case) : c.bare.isDefault = c.isDefault := by
  cases c
  simp [bare, isDefault, values]

mutual

@[simp] theorem Block.scope_bare : (b : Block) → b.bare.scope = b.scope
  | .mk vars stmts => by
    rw [Block.bare, Block.scope, Block.scope, scopesOfStmts_bare stmts]

/-- The scopes of a statement are the same without locations. -/
@[simp] theorem Stmt.scopes_bare : (s : Stmt) → s.bare.scopes = s.scopes
  | .block _ body => by
    rw [Stmt.bare, Stmt.scopes, Stmt.scopes, Block.scope_bare body]
  | .ifThen _ _ yes => by
    rw [Stmt.bare, Stmt.scopes, Stmt.scopes, Stmt.scopes_bare yes]
  | .ifElse _ _ yes no => by
    rw [Stmt.bare, Stmt.scopes, Stmt.scopes, Stmt.scopes_bare yes, Stmt.scopes_bare no]
  | .whileLoop _ _ body | .doLoop _ body _ | .forLoop _ _ _ _ body | .label _ _ body => by
    rw [Stmt.bare, Stmt.scopes, Stmt.scopes, Stmt.scopes_bare body]
  | .switch _ _ cases => by
    rw [Stmt.bare, Stmt.scopes, Stmt.scopes, scopesOfCases_bare cases]
  | .expr .. | .breakOut _ | .continueOn _ | .goto .. | .ret .. => by
    rw [Stmt.bare, Stmt.scopes, Stmt.scopes]

theorem scopesOfStmts_bare : (ss : List Stmt) → scopesOfStmts (bareStmts ss) = scopesOfStmts ss
  | [] => rfl
  | s :: ss => by
    rw [bareStmts, scopesOfStmts, scopesOfStmts, Stmt.scopes_bare s, scopesOfStmts_bare ss]

theorem scopesOfCases_bare : (cs : List Case) → scopesOfCases (bareCases cs) = scopesOfCases cs
  | [] => rfl
  | .mk _ body :: cs => by
    rw [bareCases, scopesOfCases, scopesOfCases, Block.scope_bare body, scopesOfCases_bare cs]

end

/-- Cases lose their locations one by one. -/
theorem bareCases_eq_map (cs : List Case) : bareCases cs = cs.map (·.bare) := by
  induction cs with
  | nil => rfl
  | cons c cs ih =>
    cases c
    rw [bareCases, ih, Expr.bareAll_eq_map, List.map_cons, Case.bare]

end Source

/-- The same variables are private. -/
theorem Scope.selectPrivate_bare (entities : EntityTable) (isPrivate : Bool) (ids : List EntityId) :
    selectPrivate entities.bare isPrivate ids = selectPrivate entities isPrivate ids := by
  induction ids with
  | nil => rfl
  | cons id ids ih =>
    rw [selectPrivate, selectPrivate, EntityTable.get_bare, map_bind, ih]
    rfl

@[simp] theorem Scope.staticVariables_bare (scope : Scope) (entities : EntityTable) :
    scope.staticVariables entities.bare = scope.staticVariables entities :=
  selectPrivate_bare ..

namespace Lower

variable {α β γ : Type}

theorem Echo.forM_map {l : List α} {φ : α → β} {f : α → Lower Unit} {f' : β → Lower Unit}
    (hf : ∀ x, Echo (f x) (f' (φ x))) : Echo (l.forM f) ((l.map φ).forM f') := by
  induction l with
  | nil => exact .pure ()
  | cons x l ih => exact .bind

theorem Echo.forM_option {o : Option α} {φ : α → β} {f : α → Lower Unit} {f' : β → Lower Unit}
    (hf : ∀ x, Echo (f x) (f' (φ x))) : Echo (o.forM f) ((o.map φ).forM f') := by
  cases o with
  | none => exact .pure ()
  | some x => exact hf x

/-! ## Labels of the program -/

section

variable {name : String} {location : Option Location} {type : TypeId} {address value : Ir.Expr}
  {init e : Source.Expr}

/-- A name has the same label, noted somewhere else. -/
theorem echoVia_labelNamed :
    EchoVia NamedLabel.bare (labelNamed name location) (labelNamed name none) := by
  refine echoVia_get.bind fun s => ?_
  have hfind : s.bare.named.find? (·.name = name) =
      (s.named.find? (·.name = name)).map (·.bare) := by
    rw [LowerState.bare, List.find?_map]
    rfl
  rw [hfind]
  cases s.named.find? (·.name = name) with
  | some entry => exact .pure entry
  | none =>
    refine echo_newLabel.via.bind fun label => ?_
    let entry : NamedLabel := { name, label, location }
    have hadd : Echo (modify fun s => { s with named := s.named ++ [entry] } : Lower Unit)
        (modify fun s => { s with named := s.named ++ [entry.bare] }) :=
      .modify fun s => by simp [LowerState.bare]
    exact hadd.via.bind fun _ => .pure entry

instance echo_markPlaced : Echo (markPlaced name location) (markPlaced name none) :=
  .modify fun s => by
    simp only [LowerState.bare, List.map_map]
    congr 1
    refine List.map_congr_left fun e _ => ?_
    by_cases hname : e.name = name <;> simp [NamedLabel.bare, hname]

instance echo_placeNamed : Echo (placeNamed name location) (placeNamed name none) :=
  echoVia_labelNamed.echo fun entry => by
    rw [show entry.bare.isPlaced = entry.isPlaced from rfl,
      show entry.bare.label = entry.label from rfl]
    infer_instance

instance echo_reportUnplaced : Echo reportUnplaced reportUnplaced :=
  echoVia_get.echo fun s => by
    have hunplaced : s.bare.named.filter (!·.isPlaced) =
        (s.named.filter (!·.isPlaced)).map (·.bare) := by
      rw [LowerState.bare, List.filter_map]
      rfl
    rw [hunplaced]
    exact .forM_map fun e => echo_report

/-! ## Initializers of variables -/

instance {length : Nat} : Echo (storeInitialChars location type address init length)
    (storeInitialChars none type address init.bare length) := by
  unfold storeInitialChars
  infer_instance

instance echo_storeInitial :
    Echo (storeInitial location type address init) (storeInitial none type address init.bare) := by
  have hvalue : Echo init.lowerValue init.bare.lowerValue := inferInstance
  have hchars : ∀ length, Echo (storeInitialChars location type address init length)
    (storeInitialChars none type address init.bare length) := inferInstance
  unfold storeInitial
  cases init <;> rw [Source.Expr.bare] at hvalue hchars ⊢ <;> infer_instance

instance echo_enterVariable {id : EntityId} : Echo (enterVariable id) (enterVariable id) :=
  (echoVia_entity id).echo fun e => by
    rw [Entity.isPrivate_bare, Entity.initializer?_bare, Entity.typeId_bare]
    cases e.initializer? with
    | none => dsimp only [Option.map]; infer_instance
    | some init =>
      simp only [Option.map, Source.Expr.location_bare, Entity.location_bare, Option.or_none]
      infer_instance

/-! ## Switches -/

instance echo_switchValue : Echo (switchValue location e) (switchValue none e.bare) := by
  unfold switchValue
  rw [Source.Expr.type_bare]
  refine .bind_of inferInstance fun type => .bind_of inferInstance fun v => ?_
  split <;> infer_instance

instance echo_testCase {target : Ir.Label} :
    Echo (testCase location value target e) (testCase none value target e.bare) := by
  unfold testCase
  rw [Source.Expr.location_bare, Option.or_none]
  infer_instance

instance echo_testCases {cases : List Source.Case} :
    Echo (testCases location value cases) (testCases none value (Source.bareCases cases)) := by
  rw [Source.bareCases_eq_map]
  induction cases with
  | nil => exact .pure []
  | cons c cs ih =>
    obtain ⟨values, body⟩ := c
    change Echo _ (testCases none value (.mk (values.map (·.bare)) body.bare :: cs.map (·.bare)))
    simp only [testCases, Source.Case.values]
    have (l : Ir.Label) : Echo (values.forM (testCase location value l))
        ((values.map (·.bare)).forM (testCase none value l)) := .forM_map fun _ => echo_testCase
    infer_instance

/-- The default case has the same label. -/
@[simp] theorem defaultTarget_bare (cases : List Source.Case) (labels : List Ir.Label)
    (fallback : Ir.Label) :
    defaultTarget (Source.bareCases cases) labels fallback =
      defaultTarget cases labels fallback := by
  have hzip : (cases.map (·.bare)).zip labels = (cases.zip labels).map (Prod.map (·.bare) id) := by
    rw [← List.zip_map, List.map_id]
  rw [Source.bareCases_eq_map, defaultTarget, defaultTarget, hzip, ← List.map_reverse,
    List.find?_map, Option.elim_map]
  simp only [Function.comp_def, Prod.map_fst, Prod.map_snd, Source.Case.isDefault_bare, id]

instance echo_jumpOut {target : Option Ir.Label} {problem : LoweringProblem} :
    Echo (jumpOut location target problem) (jumpOut none target problem) := by
  cases target with
  | none => exact echo_report
  | some l => exact echo_emit

end

/-! ## Statements -/

section

open Source (lowerStmts lowerCases bareStmts bareCases)

mutual

/-- A block is lowered as it is without its places. -/
theorem echo_block (exits : Exits) :
    (b : Source.Block) → Echo (b.lower exits) (b.bare.lower exits)
  | .mk vars stmts => by
    have := echo_lowerStmts exits stmts
    simp only [Source.Block.bare, Source.Block.lower]
    infer_instance

/-- A statement is echoed by the one without locations. -/
theorem echo_stmt (exits : Exits) : (s : Source.Stmt) → Echo (s.lower exits) (s.bare.lower exits)
  -- statements inside are echoed by induction; what is emitted around them differs in its location
  -- only
  | .expr _ e => by
    simp only [Source.Stmt.bare, Source.Stmt.lower]
    infer_instance
  | .block _ body => by
    simp only [Source.Stmt.bare, Source.Stmt.lower]
    exact echo_block exits body
  | .ifThen _ test yes => by
    have := echo_stmt exits yes
    simp only [Source.Stmt.bare, Source.Stmt.lower]
    infer_instance
  | .ifElse _ test yes no => by
    have := echo_stmt exits yes
    have := echo_stmt exits no
    simp only [Source.Stmt.bare, Source.Stmt.lower]
    infer_instance
  | .whileLoop _ test body => by
    have := fun exits => echo_stmt exits body
    simp only [Source.Stmt.bare, Source.Stmt.lower]
    infer_instance
  | .doLoop _ body test => by
    have := fun exits => echo_stmt exits body
    simp only [Source.Stmt.bare, Source.Stmt.lower]
    infer_instance
  | .forLoop here init test step body => by
    have := fun exits => echo_stmt exits body
    have heffects (o : Option Source.Expr) : Echo (o.forM Source.Expr.lowerEffects)
        ((o.map (·.bare)).forM Source.Expr.lowerEffects) := .forM_option fun _ => inferInstance
    have (yes no : Ir.Label) :
        Echo (test.forM fun test => do branch here (← test.lowerValue) yes no)
          ((test.map (·.bare)).forM fun test => do branch none (← test.lowerValue) yes no) :=
      .forM_option fun _ => inferInstance
    have := heffects init
    have := heffects step
    simp only [Source.Stmt.bare, Source.Stmt.lower]
    infer_instance
  | .switch _ value cases => by
    have := fun exits labels => echo_lowerCases exits cases labels
    simp only [Source.Stmt.bare, Source.Stmt.lower, defaultTarget_bare]
    infer_instance
  | .breakOut _ => by
    simp only [Source.Stmt.bare, Source.Stmt.lower]
    infer_instance
  | .continueOn _ => by
    simp only [Source.Stmt.bare, Source.Stmt.lower]
    infer_instance
  | .goto _ target => by
    simp only [Source.Stmt.bare, Source.Stmt.lower]
    exact echoVia_labelNamed.echo fun entry => echo_emit
  | .label _ name body => by
    have := echo_stmt exits body
    simp only [Source.Stmt.bare, Source.Stmt.lower]
    infer_instance
  | .ret _ none => by
    simp only [Source.Stmt.bare, Source.Stmt.lower, Option.map]
    infer_instance
  | .ret _ (some e) => by
    simp only [Source.Stmt.bare, Source.Stmt.lower, Option.map, Source.Expr.type_bare]
    infer_instance

/-- So is a list of statements. -/
theorem echo_lowerStmts (exits : Exits) :
    (ss : List Source.Stmt) → Echo (lowerStmts exits ss) (lowerStmts exits (bareStmts ss))
  | [] => by
    simp only [bareStmts, lowerStmts]
    infer_instance
  | s :: ss => by
    have := echo_stmt exits s
    have := echo_lowerStmts exits ss
    simp only [bareStmts, lowerStmts]
    infer_instance

/-- So are the cases of a switch. -/
theorem echo_lowerCases (exits : Exits) :
    (cs : List Source.Case) → (ls : List Ir.Label) →
      Echo (lowerCases exits cs ls) (lowerCases exits (bareCases cs) ls)
  | .mk _ body :: cs, l :: ls => by
    have := echo_block exits body
    have := echo_lowerCases exits cs ls
    simp only [bareCases, lowerCases]
    infer_instance
  | [], _ => by
    simp only [bareCases, lowerCases]
    infer_instance
  | .mk _ _ :: _, [] => by
    simp only [bareCases, lowerCases]
    infer_instance

end

end

/-! ## Declarations -/

section

variable {id : EntityId} {e : Source.Expr}

theorem echo_start {f : Ir.Function} (h : f.body = #[]) : Echo (start f) (start f) := by
  obtain ⟨entity, params, scope, body⟩ := f
  subst h
  exact .modify fun s => by simp [LowerState.bare, Ir.Function.bare]

instance echo_constant? : Echo (constant? id e) (constant? id e.bare) := by
  unfold constant?
  refine .bind_of (echo_start rfl) fun _ => .bind_of inferInstance fun value => ?_
  cases value with
  | none => exact .pure none
  | some v =>
    refine echoVia_get.echo fun s => ?_
    have hempty : s.bare.function.body.isEmpty = s.function.body.isEmpty := by
      rw [Bool.eq_iff_iff, Array.isEmpty_iff, Array.isEmpty_iff]
      exact Array.map_eq_empty_iff
    rw [hempty]
    infer_instance

instance echo_reportNonConstant : Echo (reportNonConstant id e) (reportNonConstant id e.bare) :=
  (echoVia_entity id).echo fun x => by
    rw [Source.Expr.location_bare, Entity.location_bare, Option.or_none, Entity.name_bare]
    exact echo_report

instance echo_staticValue : Echo (staticValue id e) (staticValue id e.bare) := by
  unfold staticValue
  infer_instance

instance echo_staticVariable : Echo (staticVariable id) (staticVariable id) := by
  have : Echo (staticInitializer id) (staticInitializer id) :=
    (echoVia_entity id).echo fun x => by
      rw [Entity.initializer?_bare, Entity.typeId_bare]
      cases x.initializer? with
      | none => exact .pure none
      | some init => dsimp only [Option.map]; infer_instance
  unfold staticVariable
  infer_instance

/-! ## Functions -/

/-- A function is lowered as it is without its places. -/
theorem echoVia_function : EchoVia Ir.Function.bare (function id) (function id) := by
  refine (echoVia_entity id).bind fun x => ?_
  rw [show x.bare.kind = x.kind.bare from rfl, Entity.name_bare]
  cases x.kind with
  | definedFunction params body =>
    dsimp only [EntityKind.bare]
    rw [Source.Block.scope_bare]
    refine (echo_start rfl).via.bind fun _ => (echo_block {} body).via.bind fun _ =>
      echo_reportUnplaced.via.bind fun _ => ?_
    exact echoVia_get.bind fun s => .pure s.function
  | _ => exact ⟨fun _ => .error rfl⟩

instance echo_numberStatic {before : List String} :
    Echo (numberStatic before id) (numberStatic before id) := by
  refine echoVia_get.echo fun s => ?_
  refine (echoVia_lift (Echoes.of_eq EntityTable.get_bare)).echo fun x => ?_
  let numbered : Entity := { x with sequence := some (before.count x.name) }
  have hset : Echo (set { s with entities := s.entities.set id numbered } : Lower Unit)
      (set { s.bare with entities := s.bare.entities.set id numbered.bare }) := by
    rw [show s.bare.entities = s.entities.bare from rfl, EntityTable.set_bare]
    exact echo_set { s with entities := s.entities.set id numbered }
  exact .bind_of hset fun _ => .pure (before ++ [x.name])

instance echo_staticLocals {ids : List EntityId} {before : List String} :
    Echo (staticLocals before ids) (staticLocals before ids) := by
  induction ids generalizing before with
  | nil => exact .pure (before, [])
  | cons id ids ih =>
    unfold staticLocals
    infer_instance

/-- So are the functions of a unit. -/
theorem echoVia_functions {ids : List EntityId} {before : List String} :
    EchoVia (fun r => (r.1.map (·.bare), r.2)) (functions before ids) (functions before ids) := by
  induction ids generalizing before with
  | nil => exact .pure ([], [])
  | cons id ids ih =>
    refine echoVia_function.bind fun f => echoVia_get.bind fun s => ?_
    rw [show f.bare.scope = f.scope from rfl, show s.bare.entities = s.entities.bare from rfl,
      Scope.staticVariables_bare]
    refine (Echo.lift _).via.bind fun statics => echo_staticLocals.via.bind fun (before, vs) => ?_
    exact ih.bind fun (fs, more) => .pure (f :: fs, vs ++ more)

instance echo_declare {ids : List EntityId} {d : Declared} :
    Echo (declare d ids) (declare d ids) := by
  induction ids generalizing d with
  | nil => exact .pure d
  | cons id ids ih =>
    refine (echoVia_entity id).echo fun x => ?_
    rw [show x.bare.kind = x.kind.bare from rfl, Entity.name_bare]
    cases x.kind <;> dsimp only [EntityKind.bare] <;> infer_instance

end

end Lower

/-! ## Uses -/

namespace Source

mutual

/-- The same entities are used by an expression. -/
@[simp] theorem Expr.uses_bare : (e : Expr) → e.bare.uses = e.uses
  | .int .. | .str .. | .sizeofType .. | .var .. => by
    rw [bare, uses, uses]
  | .sizeofExpr _ e | .unary _ _ e | .preStep _ _ e | .postStep _ _ e | .cast _ e | .addr _ e
  | .deref _ e | .member _ e _ | .ptrMember _ e _ => by
    rw [bare, uses, uses, uses_bare e]
  | .binary _ _ l r | .logical _ _ l r | .assign _ l r | .opAssign _ _ l r | .index _ l r => by
    rw [bare, uses, uses, uses_bare l, uses_bare r]
  | .cond _ test yes no => by
    rw [bare, uses, uses, uses_bare test, uses_bare yes, uses_bare no]
  | .call _ callee args => by
    rw [bare, uses, uses, uses_bare callee, usesAll_bare args]

theorem Expr.usesAll_bare : (es : List Expr) → usesAll (bareAll es) = usesAll es
  | [] => rfl
  | e :: es => by
    rw [bareAll, usesAll, usesAll, uses_bare e, usesAll_bare es]

end

@[simp] theorem usesOption_bare (o : Option Expr) :
    usesOption (o.map (·.bare)) = usesOption o := by
  cases o with
  | none => rfl
  | some e => exact e.uses_bare

variable (entities : EntityTable)

/-- The same by the initializers of variables. -/
theorem usesOfVariables_bare (ids : List EntityId) :
    usesOfVariables entities.bare ids = usesOfVariables entities ids := by
  induction ids with
  | nil => rfl
  | cons id ids ih =>
    rw [usesOfVariables, usesOfVariables, EntityTable.get_bare, map_bind]
    simp only [Entity.initializer?_bare, usesOption_bare, ih]

mutual

theorem Block.uses_bare : (b : Block) → b.bare.uses entities.bare = b.uses entities
  | .mk vars stmts => by
    rw [Block.bare, Block.uses, Block.uses, usesOfVariables_bare, usesOfStmts_bare stmts]

/-- The same by a statement. -/
theorem Stmt.uses_bare : (s : Stmt) → s.bare.uses entities.bare = s.uses entities
  | .expr _ e => by
    rw [Stmt.bare, Stmt.uses, Stmt.uses, Expr.uses_bare]
  | .block _ body => by
    rw [Stmt.bare, Stmt.uses, Stmt.uses, Block.uses_bare body]
  | .ifThen _ test yes => by
    rw [Stmt.bare, Stmt.uses, Stmt.uses, Expr.uses_bare, Stmt.uses_bare yes]
  | .ifElse _ test yes no => by
    rw [Stmt.bare, Stmt.uses, Stmt.uses, Expr.uses_bare, Stmt.uses_bare yes, Stmt.uses_bare no]
  | .whileLoop _ test body | .doLoop _ body test => by
    rw [Stmt.bare, Stmt.uses, Stmt.uses, Expr.uses_bare, Stmt.uses_bare body]
  | .forLoop _ init test step body => by
    rw [Stmt.bare, Stmt.uses, Stmt.uses, usesOption_bare, usesOption_bare, usesOption_bare,
      Stmt.uses_bare body]
  | .switch _ value cases => by
    rw [Stmt.bare, Stmt.uses, Stmt.uses, Expr.uses_bare, usesOfCases_bare cases]
  | .label _ _ body => by
    rw [Stmt.bare, Stmt.uses, Stmt.uses, Stmt.uses_bare body]
  | .ret _ value => by
    rw [Stmt.bare, Stmt.uses, Stmt.uses, usesOption_bare]
  | .breakOut _ | .continueOn _ | .goto .. => by
    rw [Stmt.bare, Stmt.uses, Stmt.uses]

theorem usesOfStmts_bare :
    (ss : List Stmt) → usesOfStmts entities.bare (bareStmts ss) = usesOfStmts entities ss
  | [] => rfl
  | s :: ss => by
    rw [bareStmts, usesOfStmts, usesOfStmts, Stmt.uses_bare s, usesOfStmts_bare ss]

/-- The same by the cases of a switch. -/
theorem usesOfCases_bare :
    (cs : List Case) → usesOfCases entities.bare (bareCases cs) = usesOfCases entities cs
  | [] => rfl
  | .mk values body :: cs => by
    rw [bareCases, usesOfCases, usesOfCases, Expr.usesAll_bare, Block.uses_bare body,
      usesOfCases_bare cs]

end

/-- The same by an entity. -/
theorem usesOfEntity_bare (id : EntityId) :
    usesOfEntity entities.bare id = usesOfEntity entities id := by
  rw [usesOfEntity, usesOfEntity, EntityTable.get_bare, map_bind]
  refine bind_congr fun e => ?_
  rw [show e.bare.kind = e.kind.bare from rfl]
  cases e.kind with
  | definedFunction _ body => exact Block.uses_bare entities body
  | definedVariable init => exact congrArg Except.ok (usesOption_bare init)
  | constant value => exact congrArg Except.ok value.uses_bare
  | _ => rfl

theorem Program.usedEntities_bare (p : Program) : p.bare.usedEntities = p.usedEntities := by
  rw [usedEntities, usedEntities, bare, funext (usesOfEntity_bare p.entities)]

end Source

theorem EntityTable.markUsed_bare (t : EntityTable) (id : EntityId) :
    t.bare.markUsed id = (t.markUsed id).map (·.bare) := by
  rw [markUsed, markUsed, update, update]
  exact bind_bare get_bare fun e => congrArg Except.ok (set_bare { e with uses := e.uses + 1 })

theorem Source.Program.markUses_bare (p : Program) : p.bare.markUses = p.markUses.map (·.bare) := by
  rw [markUses, markUses, usedEntities_bare, bind_map]
  refine bind_congr fun ids => ?_
  exact bind_bare (foldlM_bare EntityTable.markUsed_bare ids p.entities) fun _ => rfl

/-! ## Types of entities -/

namespace EntityTable

/-- The type of an entity is settled the same. -/
theorem settleType_bare (types : TypeTable) (e : Entity) :
    settleType types.bare e.bare = (settleType types e).map fun r => (r.1.bare, r.2.bare) := by
  have hparameter : e.bare.isParameter = e.isParameter := by
    unfold Entity.isParameter Entity.bare
    cases e.kind <;> rfl
  have hset (id : TypeId) : e.bare.setType id = (e.setType id).map (·.bare) := by
    rw [Entity.setType, Entity.setType, bind_map]
    rfl
  -- both ways of looking a type up go on alike
  have hgoOn (x : Except Fault (TypeTable × TypeId)) :
      (x.map TypeTable.bareFirst >>= fun r => do return (r.1, ← e.bare.setType r.2)) =
        (x >>= fun r => do return (r.1, ← e.setType r.2)).map fun r => (r.1.bare, r.2.bare) := by
    exact bind_bare rfl fun r => bind_bare (hset r.2) fun _ => rfl
  rw [settleType, settleType, hparameter, show e.bare.ref = e.ref from rfl,
    show e.bare.type.isSettled = e.type.isSettled from rfl]
  split_ifs
  · rfl
  · rw [TypeTable.internParam_bare]
    exact hgoOn _
  · rw [TypeTable.intern_bare]
    exact hgoOn _

/-- So are those of all entities. -/
theorem settleTypesOf_bare (types : TypeTable) (es : List Entity) :
    settleTypesOf types.bare (es.map (·.bare)) =
      (settleTypesOf types es).map fun r => (r.1.bare, r.2.map (·.bare)) := by
  induction es generalizing types with
  | nil => rfl
  | cons e es ih =>
    rw [List.map_cons, settleTypesOf, settleTypesOf]
    exact bind_bare (settleType_bare types e) fun r => bind_bare (ih r.1) fun _ => rfl

theorem settleTypes_bare (t : EntityTable) (types : TypeTable) :
    t.bare.settleTypes types.bare =
      (t.settleTypes types).map fun r => (r.1.bare, r.2.bare) := by
  rw [settleTypes, settleTypes]
  exact bind_bare (settleTypesOf_bare types t.entries) fun _ => rfl

end EntityTable

/-! ## Units -/

/-- A unit is lowered as it is without its places. -/
theorem Source.Program.lower_bare (p : Program) (types : TypeTable) (diagnostics : Diagnostics) :
    Echoes Lowered.bare (p.lower types diagnostics)
      (p.bare.lower types.bare diagnostics.bare) := by
  have hwork : Lower.EchoVia (fun r => (r.1, r.2.1.map (·.bare), r.2.2))
      (do let declared ← Lower.declare {} p.declarations
          return (declared, ← Lower.functions [] declared.functions))
      (do let declared ← Lower.declare {} p.bare.declarations
          return (declared, ← Lower.functions [] declared.functions)) :=
    Lower.echo_declare.via.bind fun declared =>
      Lower.echoVia_functions.bind fun r => .pure (declared, r)
  have hrun := hwork.echoes { types, entities := p.entities, diagnostics }
  rw [show LowerState.bare { types, entities := p.entities, diagnostics } =
      { types := types.bare, entities := p.bare.entities, diagnostics := diagnostics.bare } by
    simp [LowerState.bare, Ir.Function.bare, bare]] at hrun
  refine hrun.bind fun r => ?_
  exact .ok (Lowered.mk _ r.2.types r.2.diagnostics)

/-- The same variables are reported as unused. -/
theorem Scope.reportUnused_bare (scope : Scope) (entities : EntityTable) (ds : Diagnostics) :
    scope.reportUnused entities.bare ds.bare = (scope.reportUnused entities ds).map (·.bare) := by
  refine foldlM_bare (b := (·.bare)) (fun ds id => ?_) scope.variablesOfTree ds
  refine bind_bare EntityTable.get_bare fun e => ?_
  have hused : (e.bare.isUsed || e.bare.isTemporary) = (e.isUsed || e.isTemporary) := rfl
  rw [hused]
  split
  · rfl
  · exact congrArg Except.ok (Diagnostics.bare_warn e.location _).symm

/-- A whole unit is echoed by the one without locations. -/
theorem lowerProgram_bare (p : Source.Program) (types : TypeTable) (diagnostics : Diagnostics) :
    Echoes Lowered.bare (lowerProgram p types diagnostics)
      (lowerProgram p.bare types.bare diagnostics.bare) := by
  refine (Echoes.of_eq (EntityTable.settleTypes_bare p.entities types)).bind
    fun (types, entities) => ?_
  refine (Echoes.of_eq (Source.Program.markUses_bare { p with entities })).bind fun p => ?_
  refine (p.lower_bare types diagnostics).bind fun lowered => Echoes.of_eq ?_
  have hunused : lowered.bare.module.functions.foldlM
      (fun ds (f : Ir.Function) => f.scope.reportUnused lowered.bare.module.entities ds)
        lowered.bare.diagnostics =
      (lowered.module.functions.foldlM
        (fun ds (f : Ir.Function) => f.scope.reportUnused lowered.module.entities ds)
        lowered.diagnostics).map (·.bare) :=
    foldlM_map (fun ds f => f.scope.reportUnused_bare lowered.module.entities ds) _ _
  exact bind_bare hunused fun _ => rfl

end Backend386
