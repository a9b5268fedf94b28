import Backend386.Proofs.I386.Jumps
import Backend386.Proofs.Places.Comments
import Backend386.Proofs.Places.Units

/-!
# Code does not depend on places

What is placed where, the frames and the code of expressions do not depend on places. A listing that
is made without comments is the listing made with them, less the comments.

* `Ir.Module.place_bare`, `Frame.compute_bare` — where things live;
* `Placement.exprCode_bare` — the code of expressions;
* `Placement.bodyCode_bare`, `Placement.functionCode_bare` — the code of functions;
* `Ir.Module.assemble_bare` — the listing of a module.
-/

namespace Backend386

/-! ## Placement -/

namespace Entity

variable {e : Entity}

@[simp] theorem symbol_bare : e.bare.symbol = e.symbol := rfl

@[simp] theorem getStorage_bare : e.bare.getStorage = e.getStorage := rfl

@[simp] theorem isFunction_bare : e.bare.isFunction = e.isFunction := by
  unfold isFunction bare
  cases e.kind <;> rfl

@[simp] theorem address?_bare : e.bare.address? = e.address? := by
  simp only [address?, getStorage_bare, isFunction_bare]

theorem setStorage_bare (storage : Storage) :
    e.bare.setStorage storage = (e.setStorage storage).map (·.bare) := by
  rw [setStorage, setStorage, bind_map]
  rfl

end Entity

namespace EntityTable

variable {t : EntityTable} {id : EntityId}

/-- What is read of an entity is read of it without its places. -/
theorem get_bind_bare {α : Type} {f g : Entity → Except Fault α} (h : ∀ e, f e.bare = g e) :
    (t.bare.get id >>= f) = t.get id >>= g := by
  rw [get_bare, map_bind]
  exact bind_congr h

theorem place_bare (storage : Storage) :
    t.bare.place id storage = (t.place id storage).map (·.bare) := by
  rw [place, place, update, update, bind_map]
  refine get_bind_bare fun e => ?_
  exact bind_bare (Entity.setStorage_bare storage) fun e => congrArg Except.ok (set_bare e)

end EntityTable

namespace Placement

variable {p : Placement}

@[simp] theorem stringSymbol_bare (id : StringId) :
    p.bare.stringSymbol id = p.stringSymbol id := rfl

@[simp] theorem entitySymbol_bare (id : EntityId) : p.bare.entitySymbol id = p.entitySymbol id :=
  EntityTable.get_bind_bare fun _ => rfl

theorem place_bare (id : EntityId) (storage : Storage) :
    p.bare.place id storage = (p.place id storage).map (·.bare) := by
  rw [place, place]
  exact bind_bare (EntityTable.place_bare storage) fun _ => rfl

theorem placeVariable_bare (v : Ir.StaticVariable) :
    p.bare.placeVariable v = (p.placeVariable v).map (·.bare) := by
  rw [placeVariable, placeVariable, entitySymbol_bare, bind_map]
  exact bind_congr fun _ => place_bare ..

/-- A symbol is placed the same without locations. -/
theorem placeSymbol_bare (id : EntityId) :
    p.bare.placeSymbol id = (p.placeSymbol id).map (·.bare) := by
  rw [placeSymbol, placeSymbol, bind_map]
  refine EntityTable.get_bind_bare fun e => ?_
  rw [Entity.isFunction_bare, Entity.symbol_bare]
  exact place_bare ..

@[simp] theorem immediate?_bare (e : Ir.Expr) : p.bare.immediate? e = p.immediate? e := by
  cases e <;> simp only [immediate?, stringSymbol_bare, entitySymbol_bare]

/-- So is a named constant. -/
theorem placeConstant_bare (c : Ir.NamedConstant) :
    p.bare.placeConstant c = (p.placeConstant c).map (·.bare) := by
  have hmissing : (p.bare.entities.get c.entity >>= fun e =>
      (throw (.valuelessConstant e.name) : Except Fault Placement)) =
      (p.entities.get c.entity >>= fun e => throw (.valuelessConstant e.name)).map bare := by
    rw [bind_map]
    exact EntityTable.get_bind_bare fun _ => rfl
  unfold placeConstant
  cases c.value with
  | none => exact hmissing
  | some e =>
    dsimp only
    rw [immediate?_bare, bind_map]
    refine bind_congr fun value => ?_
    cases value with
    | none => exact hmissing
    | some i => exact place_bare ..

end Placement

/-- So are all entities of a unit. -/
theorem Ir.Module.place_bare (m : Ir.Module) : m.bare.place = m.place.map (·.bare) := by
  have hfunctions : m.bare.functions.map (·.entity) = m.functions.map (·.entity) := by
    simp [bare, Function.bare]
  have hstart : ({ entities := m.bare.entities, strings := m.bare.strings.labelAll } : Placement) =
      Placement.bare { entities := m.entities, strings := m.strings.labelAll } := rfl
  rw [place, place, hfunctions, hstart]
  refine bind_bare (foldlM_bare (fun _ => Placement.placeVariable_bare) m.vars _) fun p => ?_
  refine bind_bare (foldlM_bare (fun _ => Placement.placeSymbol_bare) _ p) fun p => ?_
  exact foldlM_bare (fun _ => Placement.placeConstant_bare) m.namedConstants p

/-- The labels of a function do not depend on locations. -/
@[simp] theorem Ir.Function.labelProblem?_bare (f : Ir.Function) :
    f.bare.labelProblem? = f.labelProblem? := by
  have hplaced : f.bare.placedLabels = f.placedLabels := by
    rw [placedLabels, placedLabels, bare, Array.toList_map, List.filterMap_map]
    rfl
  have htargets : f.bare.jumpTargets = f.jumpTargets := by
    rw [jumpTargets, jumpTargets, bare, Array.toList_map, List.flatMap_map]
    rfl
  rw [labelProblem?, labelProblem?, hplaced, htargets]
  rfl

/-! ## Frames -/

namespace Frame

/-- Slots are the same where the entities and the types are. -/
theorem placeLocals_bare (entities : EntityTable) (types : TypeTable) (a : Allocator)
    (ids : List EntityId) :
    placeLocals entities.bare types.bare a ids = placeLocals entities types a ids := by
  induction ids generalizing a with
  | nil => rfl
  | cons id ids ih =>
    rw [placeLocals, placeLocals]
    simp only [TypeTable.sizeOf_bare, TypeTable.alignmentOf_bare, ih]
    exact EntityTable.get_bind_bare fun _ => rfl

theorem compute_bare (f : Ir.Function) (entities : EntityTable) (types : TypeTable) :
    compute f.bare entities.bare types.bare = compute f entities types := by
  simp only [compute, Scope.stackVariables, Scope.selectPrivate_bare, placeLocals_bare]
  rfl

theorem assign_bare (frame : Frame) (entities : EntityTable) :
    frame.assign entities.bare = (frame.assign entities).map (·.bare) :=
  foldlM_bare (fun _ _ => EntityTable.place_bare _) frame.slots entities

end Frame

/-! ## Expressions -/

namespace Placement

variable {p : Placement}

/-- Addresses that the assembler knows do not depend on locations. -/
@[simp] theorem direct?_bare (e : Ir.Expr) : p.bare.direct? e = p.direct? e := by
  fun_induction direct? p e with
  | case1 w v =>
    rw [direct?]
    exact EntityTable.get_bind_bare fun _ => rfl
  | case2 w s => rfl
  | case3 w base w' k ih => rw [direct?, ih]
  | case4 w base w' k ih => rw [direct?, ih]
  | case5 => rw [direct?] <;> assumption

@[simp] theorem withAddress_bare (e : Ir.Expr) (value : Except Fault Listing)
    (shifted : Option (Except Fault (Listing × MemRef) × Int64)) :
    p.bare.withAddress e value shifted = p.withAddress e value shifted := by
  simp only [withAddress, direct?_bare]

theorem entityAddressCode_bare (v : EntityId) :
    p.bare.entityAddressCode v = p.entityAddressCode v :=
  EntityTable.get_bind_bare fun e => by rw [Entity.address?_bare]; rfl

/-- Calls do not depend on locations. -/
theorem transferCode_bare (callee : Ir.Expr) (target : Except Fault Listing) :
    p.bare.transferCode callee target = p.transferCode callee target := by
  have htarget : Ir.Expr.staticTarget? p.bare.entities callee =
      Ir.Expr.staticTarget? p.entities callee := by
    unfold Ir.Expr.staticTarget?
    split
    · rfl
    · exact EntityTable.get_bind_bare fun e => by rw [Entity.isFunction_bare]
  simp only [transferCode, htarget, entitySymbol_bare]

mutual

/-- The code of an expression does not depend on places. -/
@[simp] theorem exprCode_bare : (e : Ir.Expr) → p.bare.exprCode e = p.exprCode e
  -- a location is read by nothing in here, so each rule produces what it has produced
  | .int w v => by
    rw [exprCode, exprCode, withAddress_bare]
  | .str w s => by
    rw [exprCode, exprCode, withAddress_bare, stringSymbol_bare]
  | .var w v => by
    have hget {α : Type} (k : Storage → Except Fault α) :
        (p.bare.entities.get v >>= fun e => e.getStorage >>= k) =
          p.entities.get v >>= fun e => e.getStorage >>= k :=
      EntityTable.get_bind_bare fun _ => rfl
    rw [exprCode, exprCode, withAddress_bare]
    simp only [hget]
  | .addr w v => by
    rw [exprCode, exprCode, withAddress_bare, entityAddressCode_bare]
  | .mem w a => by
    rw [exprCode, exprCode, withAddress_bare, exprCode_bare a]
  | .uni w op e => by
    rw [exprCode, exprCode, withAddress_bare, exprCode_bare e]
  | .bin w op l r => by
    unfold exprCode
    rw [withAddress_bare, exprCode_bare l, exprCode_bare r]
  | .call w callee args => by
    rw [exprCode, exprCode, withAddress_bare, exprCode_bare callee, argumentCode_bare args]
    simp only [transferCode_bare]

theorem argumentCode_bare : (es : List Ir.Expr) → p.bare.argumentCode es = p.argumentCode es
  | [] => rfl
  | e :: es => by
    rw [argumentCode, argumentCode, exprCode_bare e, argumentCode_bare es]

end

@[simp] theorem valueCode_bare (e : Ir.Expr) : p.bare.valueCode e = p.valueCode e := by
  rw [valueCode, exprCode_bare, valueCode]

@[simp] theorem addressCode_bare (e : Ir.Expr) : p.bare.addressCode e = p.addressCode e := by
  rw [addressCode, exprCode_bare, addressCode]

/-! ## Statements -/

/-- Neither does the code of a statement. -/
theorem actionCode_bare (epilogue : Ir.Label) (action : Ir.Action) :
    p.bare.actionCode epilogue action = p.actionCode epilogue action := by
  cases action with
  | branch test yes no => simp only [actionCode, branchCode, testCode, valueCode_bare]
  | ret value => cases value <;> simp only [actionCode, valueCode_bare]
  | _ => simp only [actionCode, storeCode, direct?_bare, valueCode_bare, addressCode_bare]

/-- The code of a body without comments is its code, less the comments. -/
theorem bodyCode_bare (options : AssemblyOptions) (epilogue : Ir.Label) (body : List Ir.Stmt) :
    p.bare.bodyCode options.quiet epilogue (body.map (·.bare)) =
      (p.bodyCode options epilogue body).map (·.withoutComments) := by
  have hstmt (s : Ir.Stmt) : p.bare.stmtCode options.quiet epilogue s.bare =
      (p.stmtCode options epilogue s).map (·.withoutComments) := by
    rw [stmtCode, stmtCode, bind_map, show s.bare.action = s.action from rfl, actionCode_bare]
    cases h : p.actionCode epilogue s.action with
    | error fault => rfl
    | ok code =>
      have hcode : Listing.withoutComments (s.comment options ++ code) = code := by
        rw [Listing.withoutComments_append, withoutComments_comment, List.nil_append,
          Listing.withoutComments_eq_self (actionCode_not_isComment h)]
      exact congrArg Except.ok hcode.symm
  induction body with
  | nil => rfl
  | cons s body ih =>
    rw [List.map_cons, bodyCode, bodyCode]
    refine bind_bare (hstmt s) fun first => bind_bare ih fun rest => ?_
    exact congrArg Except.ok Listing.withoutComments_append.symm

/-! ## Functions -/

/-- The code of a function differs in its comments only. -/
theorem functionCode_bare (types : TypeTable) (options : AssemblyOptions) (epilogue : Ir.Label)
    (f : Ir.Function) :
    p.bare.functionCode types.bare options.quiet epilogue f.bare =
      (p.functionCode types options epilogue f).map fun r => (r.1.bare, r.2.withoutComments) := by
  rw [functionCode, functionCode, bind_map]
  refine EntityTable.get_bind_bare fun e => ?_
  rw [Ir.Function.labelProblem?_bare]
  cases f.labelProblem? with
  | some problem => rfl
  | none =>
    dsimp only
    rw [show p.bare.entities = p.entities.bare from rfl, Frame.compute_bare, bind_map]
    refine bind_congr fun frame => ?_
    -- the entities are assigned to the same places, so the rest is looked at with the new ones
    refine bind_bare (frame.assign_bare p.entities) fun entities => ?_
    let p' : Placement := { p with entities }
    have hbody : p'.bare.bodyCode options.quiet epilogue f.bare.body.toList =
        (p'.bodyCode options epilogue f.body.toList).map (·.withoutComments) := by
      rw [Ir.Function.bare, Array.toList_map]
      exact bodyCode_bare ..
    change (p'.bare.bodyCode options.quiet epilogue f.bare.body.toList >>= _) =
      (p'.bodyCode options epilogue f.body.toList >>= _).map _
    rw [hbody, map_bind, bind_map]
    cases hcode : p'.bodyCode options epilogue f.body.toList with
    | error fault => rfl
    | ok body =>
      -- comments never stand between a jump and its label, so that the same jumps are dropped
      have hjumps := dropJumps_withoutComments (commentsLead_bodyCode hcode) epilogue.render
      have hglobal : (if e.isPrivate then [] else [.directive (.globalSymbol e.symbol)] :
          Listing).withoutComments =
          if e.isPrivate then [] else [.directive (.globalSymbol e.symbol)] := by
        split <;> rfl
      have hprologue : (prologue frame.size).withoutComments = prologue frame.size := by
        unfold prologue
        split <;> rfl
      refine congrArg Except.ok (Prod.ext rfl ?_)
      simp only [Listing.withoutComments_append, hjumps, hglobal, hprologue]
      rfl

/-- So does that of all functions. -/
theorem functionsCode_bare (p : Placement) (types : TypeTable) (options : AssemblyOptions)
    (labels : Ir.LabelSupply) (fs : List Ir.Function) :
    p.bare.functionsCode types.bare options.quiet labels (fs.map (·.bare)) =
      (p.functionsCode types options labels fs).map (·.withoutComments) := by
  induction fs generalizing p labels with
  | nil => rfl
  | cons f fs ih =>
    rw [List.map_cons, functionsCode, functionsCode]
    dsimp only [Ir.LabelSupply.take]
    refine bind_bare (functionCode_bare types options _ f) fun r => ?_
    refine bind_bare (ih r.1 _) fun rest => ?_
    exact congrArg Except.ok Listing.withoutComments_append.symm

/-! ## Data -/

/-- The data are the same. -/
theorem variableData_bare (types : TypeTable) (vars : List Ir.StaticVariable) :
    p.bare.variableData types.bare vars = p.variableData types vars := by
  have hinitialized (id : EntityId) (init : Ir.Expr) :
      p.bare.initializedVariable types.bare id init = p.initializedVariable types id init := by
    have hvalue (size : Nat) : p.bare.dataDirective init size = p.dataDirective init size := by
      simp only [dataDirective, stringSymbol_bare, entitySymbol_bare]
    simp only [initializedVariable, TypeTable.sizeOf_bare, TypeTable.alignmentOf_bare, hvalue]
    exact EntityTable.get_bind_bare fun _ => rfl
  have hzeroed (id : EntityId) :
      p.bare.zeroedVariable types.bare id = p.zeroedVariable types id := by
    simp only [zeroedVariable, TypeTable.sizeOf_bare, TypeTable.alignmentOf_bare]
    exact EntityTable.get_bind_bare fun _ => rfl
  simp only [variableData, hinitialized, funext hzeroed]

end Placement

/-! ## Modules -/

/-- Data have no comments. -/
theorem withoutComments_of_isData {code : Listing} (h : ∀ i ∈ code, i.isData = true) :
    code.withoutComments = code :=
  Listing.withoutComments_eq_self fun i hi => by
    have hdata := h i hi
    cases i with
    | comment t => cases hdata
    | _ => rfl

/-- The listing of a module without comments is its listing, less the comments. -/
theorem Ir.Module.assemble_bare (m : Ir.Module) (types : TypeTable) (options : AssemblyOptions) :
    m.bare.assemble types.bare options.quiet =
      (m.assemble types options).map (·.withoutComments) := by
  rw [assemble, assemble, TypeTable.profile_bare]
  split
  · rfl
  -- the parts of the listing one after the other: only the functions have comments
  · refine bind_bare m.place_bare fun p => ?_
    rw [show m.bare.vars = m.vars from rfl, Placement.variableData_bare, bind_map]
    cases hvars : p.variableData types m.vars with
    | error fault => rfl
    | ok vars =>
      change (p.stringData >>= _) = (p.stringData >>= _).map _
      rw [bind_map]
      cases hstrings : p.stringData with
      | error fault => rfl
      | ok strings =>
        have hfunctions := p.functionsCode_bare types options m.labels m.functions
        change (p.bare.functionsCode types.bare options.quiet m.labels _ >>= _) =
          (p.functionsCode types options m.labels m.functions >>= _).map _
        refine bind_bare hfunctions fun functions => congrArg Except.ok ?_
        have hfile := withoutComments_of_isData (isData_fileCode options)
        have hvars := withoutComments_of_isData (Placement.isData_variableData hvars)
        have hstrings := withoutComments_of_isData (Placement.isData_stringData hstrings)
        simp only [Listing.withoutComments_append, hfile, hvars, hstrings]
        rfl

end Backend386
