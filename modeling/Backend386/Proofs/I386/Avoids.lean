import Backend386.I386.Generate
import Backend386.Proofs.Faults
import Backend386.Proofs.Ir.Step

/-!
# Faults that the code generator avoids

The code generator relies on what earlier passes promise: that the labels of a function are paired,
that every entity is placed once before it is used. Apart from the few places that rely on such a
promise, no part of it stops with the fault that tells of a broken one.

* `Avoids` — computations that do not stop with certain faults; instances of this class follow the
  structure of a computation;
* `Placement.Readable` — what the code of an expression relies on;
* `Avoids.exprCode`, `Avoids.bodyCode` — expressions and statements.
-/

namespace Backend386

/-- A broken promise between two passes. -/
def Fault.IsPromise : Fault → Prop
  | brokenLabels .. | readEarly _ | settledTwice _ | unaddressable .. | valuelessConstant _ => True
  | _ => False

/-- Some of the faults that tell of broken promises. -/
class Promises (bad : Fault → Prop) : Prop where
  isPromise : ∀ {fault}, bad fault → fault.IsPromise

/-- A computation that does not stop with certain faults. -/
class Avoids (bad : Fault → Prop) {α : Type} (x : Except Fault α) : Prop where
  faults : FaultsIn (¬ bad ·) x

namespace Avoids

variable {bad : Fault → Prop} {α β σ : Type} {x y : Except Fault α}

theorem error {fault : Fault} (h : ¬ bad fault) : Avoids bad (.error fault : Except Fault α) :=
  ⟨.error h⟩

/-- A fault that tells of no broken promise. -/
theorem other [Promises bad] {fault : Fault} (h : ¬ fault.IsPromise) :
    Avoids bad (.error fault : Except Fault α) :=
  error fun hbad => h (Promises.isPromise hbad)

instance ok (a : α) : Avoids bad (.ok a : Except Fault α) :=
  ⟨.ok a⟩

instance pure (a : α) : Avoids bad (Pure.pure a : Except Fault α) :=
  ok a

/-- The second step runs only on what the first one gives. -/
theorem bind_of {f : α → Except Fault β} [hx : Avoids bad x]
    (hf : ∀ a, x = .ok a → Avoids bad (f a)) : Avoids bad (x >>= f) :=
  ⟨hx.faults.bind fun a ha => (hf a ha).faults⟩

instance bind {f : α → Except Fault β} [Avoids bad x] [hf : ∀ a, Avoids bad (f a)] :
    Avoids bad (x >>= f) :=
  bind_of fun a _ => hf a

instance ite {c : Prop} [Decidable c] [Avoids bad x] [Avoids bad y] :
    Avoids bad (if c then x else y) := by
  split <;> infer_instance

instance foldlM {f : σ → α → Except Fault σ} [hf : ∀ s a, Avoids bad (f s a)] {l : List α}
    {s : σ} : Avoids bad (l.foldlM f s) :=
  ⟨.foldlM (fun s a _ => (hf s a).faults) s⟩

theorem mapM_of {f : α → Except Fault β} {l : List α} (hf : ∀ a ∈ l, Avoids bad (f a)) :
    Avoids bad (l.mapM f) :=
  ⟨.mapM fun a ha => (hf a ha).faults⟩

instance mapM {f : α → Except Fault β} [hf : ∀ a, Avoids bad (f a)] {l : List α} :
    Avoids bad (l.mapM f) :=
  mapM_of fun a _ => hf a

variable [Promises bad]

/-! ## Arithmetic and tables -/

instance {a b : Nat} : Avoids bad (Checked.add a b) := by
  unfold Checked.add
  split
  · infer_instance
  · exact other not_false

instance {a b : Nat} : Avoids bad (Checked.mul a b) := by
  unfold Checked.mul
  split
  · infer_instance
  · exact other not_false

instance {n : Nat} : Avoids bad (Checked.signed n) := by
  unfold Checked.signed
  split
  · infer_instance
  · exact other not_false

instance {a b : Int64} : Avoids bad (Checked.addInt a b) := by
  unfold Checked.addInt
  dsimp only
  split
  · infer_instance
  · exact other not_false

instance {a : Int64} : Avoids bad (Checked.negInt a) := by
  unfold Checked.negInt
  split
  · exact other not_false
  · infer_instance

instance {t : EntityTable} {id : EntityId} : Avoids bad (t.get id) := by
  unfold EntityTable.get
  split
  · infer_instance
  · exact other not_false

instance {e : StringEntry} : Avoids bad e.memory := by
  unfold StringEntry.memory
  split
  · infer_instance
  · exact other not_false

instance {t : StringTable} {id : StringId} : Avoids bad (t.get id) := by
  unfold StringTable.get
  split
  · infer_instance
  · exact other not_false

instance {t : StringTable} {id : StringId} : Avoids bad (t.memory id) := by
  unfold StringTable.memory
  infer_instance

/-! ## Layout -/

instance {n a : Nat} : Avoids bad (align n a) := by
  unfold align
  split
  · exact other not_false
  · infer_instance

instance {a : Allocator} {size alignment : Nat} : Avoids bad (a.placeUp size alignment) := by
  unfold Allocator.placeUp
  infer_instance

instance {a : Allocator} {size alignment : Nat} : Avoids bad (a.placeDown size alignment) := by
  unfold Allocator.placeDown
  infer_instance

section

variable {measure : α → Except Fault (Nat × Nat)} {members : List α}

/-- Members are placed without a fault if each of them is measured without it. -/
theorem placeMembers (h : ∀ m ∈ members, Avoids bad (measure m)) {a : Allocator} :
    Avoids bad (Layout.placeMembers measure a members) := by
  induction members generalizing a with
  | nil => exact ok _
  | cons m ms ih =>
    have := h m List.mem_cons_self
    have := fun a => ih (fun m hm => h m (List.mem_cons_of_mem _ hm)) (a := a)
    rw [Layout.placeMembers]
    infer_instance

theorem ofStruct (h : ∀ m ∈ members, Avoids bad (measure m)) :
    Avoids bad (Layout.ofStruct measure members) := by
  have := placeMembers h (a := {})
  unfold Layout.ofStruct Allocator.size
  infer_instance

/-- The same for a union. -/
theorem ofUnion (h : ∀ m ∈ members, Avoids bad (measure m)) :
    Avoids bad (Layout.ofUnion measure members) := by
  have := mapM_of h
  unfold Layout.ofUnion
  dsimp only
  infer_instance

end

instance {t : TypeTable} {id : TypeId} : Avoids bad (t.info id) := by
  unfold TypeTable.info TypeTable.entry
  split
  · infer_instance
  · exact other not_false

/-- The layout of a type relies on the types of members and typedefs. -/
theorem layoutWithin {t : TypeTable} (steps : Nat) (id : TypeId)
    (hmember : ∀ id c, t.info id = .ok (.composite c) → ∀ m ∈ c.members, Avoids bad m.typeId)
    (htypedef : ∀ id d, t.info id = .ok (.typedef d) → Avoids bad d.realId) :
    Avoids bad (t.layoutWithin steps id) := by
  -- the depth of the layout is the fuel of the recursion
  induction steps generalizing id with
  | zero => exact other not_false
  | succ steps ih =>
    rw [TypeTable.layoutWithin]
    refine bind_of fun info hinfo => ?_
    cases info with
    | void | integer | pointer | array => infer_instance
    | composite c =>
      have hextent : ∀ m ∈ c.members, Avoids bad (do
          let l ← t.layoutWithin steps (← m.typeId)
          return (l.size, l.alignment)) := by
        intro m hm
        have := hmember id c hinfo m hm
        infer_instance
      dsimp only
      split
      · exact ofStruct hextent
      · exact ofUnion hextent
    | function => exact other not_false
    | typedef d =>
      have := htypedef id d hinfo
      infer_instance

/-! ## Static data -/

section

variable {p : Placement} {id : EntityId}

instance {s : StringId} : Avoids bad (p.stringSymbol s) := by
  unfold Placement.stringSymbol
  infer_instance

instance : Avoids bad (p.entitySymbol id) := by
  unfold Placement.entitySymbol
  infer_instance

instance {e : Ir.Expr} : Avoids bad (p.immediate? e) := by
  unfold Placement.immediate?
  split <;> infer_instance

instance {init : Ir.Expr} {size : Nat} : Avoids bad (p.dataDirective init size) := by
  unfold Placement.dataDirective
  split <;> first | infer_instance | exact other not_false

instance : Avoids bad p.stringData := by
  unfold Placement.stringData Placement.literalData
  infer_instance

end

/-- The types of entities and their layouts can be read. -/
structure Measurable (bad : Fault → Prop) (entities : EntityTable) (types : TypeTable) : Prop where
  typeId : ∀ {id e}, entities.get id = .ok e → Avoids bad e.typeId
  layout : ∀ id, Avoids bad (types.layout id)

section

variable {p : Placement} {entities : EntityTable} {types : TypeTable} {id : EntityId}

/-- What depends on the type of an entity and on its layout. -/
theorem Measurable.measure (h : Measurable bad entities types) {f : Entity → TypeId → Nat → Nat →
      Except Fault α} [∀ e type size alignment, Avoids bad (f e type size alignment)] :
    Avoids bad (do
      let e ← entities.get id
      let type ← e.typeId
      let size ← types.sizeOf type
      let alignment ← types.alignmentOf type
      f e type size alignment) := by
  refine bind_of fun e he => ?_
  have := h.typeId he
  have := h.layout
  unfold TypeTable.sizeOf TypeTable.alignmentOf
  infer_instance

/-- The data of variables need nothing but their sizes and alignments. -/
theorem variableData (h : Measurable bad p.entities types) (vars : List Ir.StaticVariable) :
    Avoids bad (p.variableData types vars) := by
  have (init : Ir.Expr) (id : EntityId) : Avoids bad (p.initializedVariable types id init) := by
    unfold Placement.initializedVariable
    exact h.measure
  have (id : EntityId) : Avoids bad (p.zeroedVariable types id) := by
    unfold Placement.zeroedVariable
    exact h.measure
  unfold Placement.variableData
  infer_instance

/-! ## Frames -/

instance {words : Nat} {ids : List EntityId} : Avoids bad (Frame.placeParams words ids) := by
  induction ids generalizing words with
  | nil => exact ok _
  | cons id ids ih =>
    rw [Frame.placeParams]
    infer_instance

instance {isPrivate : Bool} {ids : List EntityId} :
    Avoids bad (Scope.selectPrivate entities isPrivate ids) := by
  induction ids with
  | nil => exact ok _
  | cons id ids ih =>
    rw [Scope.selectPrivate]
    infer_instance

/-- So do the slots of local variables. -/
theorem placeLocals (h : Measurable bad entities types) (a : Allocator) (ids : List EntityId) :
    Avoids bad (Frame.placeLocals entities types a ids) := by
  induction ids generalizing a with
  | nil => exact ok _
  | cons id ids ih =>
    rw [Frame.placeLocals]
    exact h.measure

theorem compute (h : Measurable bad entities types) {f : Ir.Function} :
    Avoids bad (Frame.compute f entities types) := by
  have := placeLocals h
  unfold Frame.compute Allocator.size Scope.stackVariables
  infer_instance

end

end Avoids

/-! ## Expressions -/

/-- The storage of an entity can be read, and its address taken. -/
structure Placement.Readable (bad : Fault → Prop) (p : Placement) (id : EntityId) : Prop where
  storage : ∀ {e}, p.entities.get id = .ok e → Avoids bad e.getStorage
  address : Avoids bad (p.entityAddressCode id)

namespace Avoids

variable {bad : Fault → Prop} [Promises bad] {p : Placement} {w : Width} {op : Ir.Op}
  {l r e : Ir.Expr} {left right : Except Fault Listing} [Avoids bad left] [Avoids bad right]

instance {c : RegisterClass} : Avoids bad (c.view w) := by
  unfold RegisterClass.view
  split
  · infer_instance
  · exact other not_false

instance {m : MemRef} {k : Int64} : Avoids bad (m.moveBy k) := by
  unfold MemRef.moveBy
  infer_instance

instance {c : RegisterClass} {narrow wide : Width} {signed : Bool} :
    Avoids bad (extendCode c narrow wide signed) := by
  unfold extendCode
  infer_instance

instance {c : Condition} : Avoids bad (setCode c w) := by
  unfold setCode
  infer_instance

instance {signed : Bool} : Avoids bad (operandsCode l r left right w signed) := by
  unfold operandsCode
  split <;> infer_instance

instance {signed remainder : Bool} {rhs : Operand} :
    Avoids bad (divideCode w signed remainder rhs) := by
  unfold divideCode
  infer_instance

instance {rhs : Operand} : Avoids bad (applyCode w op rhs) := by
  unfold applyCode
  refine @bind _ _ _ _ _ _ fun ax => ?_
  split
  case h_6 => split <;> first | infer_instance | exact other not_false
  all_goals infer_instance

instance : Avoids bad (compareCode op l r left right) := by
  unfold compareCode
  infer_instance

instance : Avoids bad (binaryCode w op l r left right) := by
  unfold binaryCode
  split <;> infer_instance

instance : Avoids bad (unaryCode w op l left) := by
  unfold unaryCode
  refine @bind _ _ _ _ _ _ fun code => @bind _ _ _ _ _ _ fun ax => ?_
  split <;> first | infer_instance | exact other not_false

instance {callee : Ir.Expr} : Avoids bad (p.transferCode callee left) := by
  have htarget : Avoids bad (Ir.Expr.staticTarget? p.entities callee) := by
    unfold Ir.Expr.staticTarget?
    split <;> infer_instance
  unfold Placement.transferCode
  refine @bind _ _ _ _ _ _ fun target => ?_
  cases target <;> infer_instance

/-- Addresses that are known to the assembler need nothing but storage. -/
theorem direct? (h : ∀ v ∈ e.entities, p.Readable bad v) : Avoids bad (p.direct? e) := by
  fun_induction Placement.direct? p e with
  | case1 w v =>
    refine bind_of fun entity hentity => ?_
    have := (h v (List.mem_singleton.2 rfl)).storage hentity
    refine @bind _ _ _ _ _ _ fun storage => ?_
    split <;> infer_instance
  | case2 w s => infer_instance
  | case3 w base w' k ih | case4 w base w' k ih =>
    have := ih fun v hv => h v (List.mem_append_left _ hv)
    refine @bind _ _ _ _ _ _ fun found => ?_
    cases found <;> infer_instance
  | case5 => infer_instance

/-- The code of an access is made of the code of its address, or of that of the shifted base. -/
theorem withAddress {shifted : Option (Except Fault (Listing × MemRef) × Int64)}
    (he : ∀ v ∈ e.entities, p.Readable bad v) (h : ∀ s ∈ shifted, Avoids bad s.1) :
    Avoids bad (p.withAddress e left shifted).value ∧
      Avoids bad (p.withAddress e left shifted).address := by
  have := direct? he
  refine ⟨‹Avoids bad left›, @bind _ _ _ _ _ _ fun found => ?_⟩
  cases found with
  | some m => infer_instance
  | none =>
    cases shifted with
    | none => infer_instance
    | some s =>
      have := h s rfl
      infer_instance

-- each of the two names the instance, as it is used by both
omit [Promises bad]

mutual

/-- The code of an expression needs nothing but the storage of the entities that it reads. -/
theorem exprCode [Promises bad] (e : Ir.Expr) (h : ∀ v ∈ e.entities, p.Readable bad v) :
    Avoids bad (p.exprCode e).value ∧ Avoids bad (p.exprCode e).address := by
  cases e with
  | int w v | str w s =>
    rw [Placement.exprCode]
    exact withAddress h (by simp)
  | var w v =>
    have : Avoids bad (do
        let ax ← RegisterClass.ax.view w
        let storage ← (← p.entities.get v).getStorage
        return [Item.mov storage.operand (.reg ax)]) := by
      refine @bind _ _ _ _ _ _ fun ax => bind_of fun entity hentity => ?_
      have := (h v (List.mem_singleton.2 rfl)).storage hentity
      infer_instance
    rw [Placement.exprCode]
    exact withAddress h (by simp)
  | addr w v =>
    have := (h v (List.mem_singleton.2 rfl)).address
    rw [Placement.exprCode]
    exact withAddress h (by simp)
  | mem w a =>
    obtain ⟨-, _⟩ := exprCode a h
    rw [Placement.exprCode]
    exact withAddress h (by simp)
  | uni w op e =>
    obtain ⟨_, -⟩ := exprCode e h
    rw [Placement.exprCode]
    exact withAddress h (by simp)
  | bin w op l r =>
    obtain ⟨_, hleft⟩ := exprCode l fun v hv => h v (List.mem_append_left _ hv)
    obtain ⟨_, -⟩ := exprCode r fun v hv => h v (List.mem_append_right _ hv)
    unfold Placement.exprCode
    -- the address of a sum with a constant is that of its left side, moved
    refine withAddress h fun s hs => ?_
    split at hs
    · obtain rfl := Option.some.inj hs
      exact hleft
    · cases hs
  | call w callee args =>
    obtain ⟨_, -⟩ := exprCode callee fun v hv => h v (List.mem_append_left _ hv)
    have : Avoids bad (p.argumentCode args) :=
      argumentCode args fun v hv => h v (List.mem_append_right _ hv)
    rw [Placement.exprCode]
    exact withAddress h (by simp)

/-- The arguments are code of expressions. -/
theorem argumentCode [Promises bad] (es : List Ir.Expr)
    (h : ∀ v ∈ Ir.Expr.entitiesOfAll es, p.Readable bad v) : Avoids bad (p.argumentCode es) := by
  cases es with
  | nil => exact ok _
  | cons e es =>
    obtain ⟨_, -⟩ := exprCode e fun v hv => h v (List.mem_append_left _ hv)
    have := argumentCode es fun v hv => h v (List.mem_append_right _ hv)
    rw [Placement.argumentCode]
    infer_instance

end

variable [Promises bad]

theorem valueCode (h : ∀ v ∈ e.entities, p.Readable bad v) : Avoids bad (p.valueCode e) :=
  (exprCode e h).1

/-! ## Statements -/

/-- A store reads its target and its value. -/
theorem storeCode {target value : Ir.Expr}
    (h : ∀ v ∈ target.entities ++ value.entities, p.Readable bad v) :
    Avoids bad (p.storeCode target value) := by
  have htarget := fun v hv => h v (List.mem_append_left _ hv)
  have := direct? htarget
  have : Avoids bad (p.addressCode target) := (exprCode target htarget).2
  have := valueCode fun v hv => h v (List.mem_append_right _ hv)
  unfold Placement.storeCode
  refine @bind _ _ _ _ _ _ fun found => ?_
  cases found <;> infer_instance

/-- A branch reads its test. -/
theorem branchCode {test : Ir.Expr} {yes no : Ir.Label}
    (h : ∀ v ∈ test.entities, p.Readable bad v) : Avoids bad (p.branchCode test yes no) := by
  have hvalue := valueCode h
  have : Avoids bad (p.testCode test) := by
    unfold Placement.testCode
    dsimp only
    split
    · have := valueCode fun v hv => h v (List.mem_append_left _ hv)
      have := valueCode fun v hv => h v (List.mem_append_right _ hv)
      split <;> infer_instance
    · infer_instance
  unfold Placement.branchCode
  infer_instance

variable {options : AssemblyOptions} {epilogue : Ir.Label}

/-- A statement reads the entities that it mentions. -/
theorem actionCode {a : Ir.Action} (h : ∀ v ∈ a.entities, p.Readable bad v) :
    Avoids bad (p.actionCode epilogue a) := by
  cases a with
  | eval e => exact valueCode h
  | assign target value => exact storeCode h
  | branch test yes no => exact branchCode h
  | jump l | label l => exact ok _
  | ret value =>
    cases value with
    | none => exact ok _
    | some e =>
      have := valueCode h
      unfold Placement.actionCode
      infer_instance

/-- So do the statements of a body, one after another. -/
theorem bodyCode {ss : List Ir.Stmt}
    (h : ∀ s ∈ ss, ∀ v ∈ s.action.entities, p.Readable bad v) :
    Avoids bad (p.bodyCode options epilogue ss) := by
  induction ss with
  | nil => exact ok _
  | cons s ss ih =>
    have : Avoids bad (p.actionCode epilogue s.action) := actionCode (h s List.mem_cons_self)
    have := ih fun s hs => h s (List.mem_cons_of_mem _ hs)
    rw [Placement.bodyCode, Placement.stmtCode]
    infer_instance

end Avoids

end Backend386
