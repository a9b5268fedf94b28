import Mathlib.Data.List.Basic
import Backend386.Proofs.Places.Types

/-!
# Expressions are lowered alike without places

An expression without its places is lowered step by step as the expression is, to the same
intermediate code without places: the same types, entities, labels and literals, the same problems
and the same faults.

* `Echoes`, `Lower.Echo` — a computation that does on the bare state what another one does;
* `Lower.echo_lower` — the lowering of expressions.
-/

namespace Backend386

/-! ## Results without places -/

/-- The second computation gives the image of what the first gives, or both have the same fault but
for its place. -/
inductive Echoes {α β : Type} (φ : α → β) : Except Fault α → Except Fault β → Prop where
  | ok (a : α) : Echoes φ (.ok a) (.ok (φ a))
  | error {f g : Fault} (h : f.bare = g.bare) : Echoes φ (.error f) (.error g)

namespace Echoes

variable {α β γ δ : Type} {φ : α → β} {ψ : γ → δ} {x : Except Fault α} {y : Except Fault β}

theorem of_eq (h : y = x.map φ) : Echoes φ x y := by
  subst h
  cases x with
  | error f => exact .error rfl
  | ok a => exact .ok a

theorem bind {g : α → Except Fault γ} {k : β → Except Fault δ} (h : Echoes φ x y)
    (hg : ∀ a, Echoes ψ (g a) (k (φ a))) : Echoes ψ (x >>= g) (y >>= k) := by
  cases h with
  | ok a => exact hg a
  | error h => exact .error h

theorem ite {c : Prop} [Decidable c] {x' : Except Fault α} {y' : Except Fault β}
    (h : Echoes φ x y) (h' : Echoes φ x' y') :
    Echoes φ (if c then x else x') (if c then y else y') := by
  split <;> assumption

/-- Two computations with the same image fail together, or their results have the same image. -/
theorem cases_of_same {x' : Except Fault α} (h : Echoes φ x y) (h' : Echoes φ x' y) :
    (∃ fault fault', x = .error fault ∧ x' = .error fault') ∨
      ∃ a a', x = .ok a ∧ x' = .ok a' ∧ φ a = φ a' := by
  cases h with
  | error hf =>
    cases h'
    exact .inl ⟨_, _, rfl, rfl⟩
  | ok a =>
    generalize himage : φ a = b at h'
    cases h' with
    | ok a' => exact .inr ⟨a, a', rfl, rfl, himage⟩

end Echoes

/-! ## Expressions and entities -/

namespace Source

@[simp] theorem Note.type_bare (n : Note) : n.bare.type = n.type := rfl

@[simp] theorem Note.location_bare (n : Note) : n.bare.location = none := rfl

@[simp] theorem Expr.type_bare (e : Expr) : e.bare.type = e.type := by
  cases e <;> rw [bare] <;> rfl

@[simp] theorem Expr.location_bare (e : Expr) : e.bare.location = none := by
  cases e <;> rw [bare] <;> rfl

end Source

namespace Entity

variable {e : Entity}

@[simp] theorem name_bare : e.bare.name = e.name := rfl

@[simp] theorem typeId_bare : e.bare.typeId = e.typeId := rfl

@[simp] theorem isPrivate_bare : e.bare.isPrivate = e.isPrivate := rfl

@[simp] theorem location_bare : e.bare.location = none := rfl

@[simp] theorem constantValue?_bare : e.bare.constantValue? = e.constantValue?.map (·.bare) := by
  unfold constantValue? bare
  cases e.kind <;> rfl

@[simp] theorem initializer?_bare : e.bare.initializer? = e.initializer?.map (·.bare) := by
  unfold initializer? bare
  cases e.kind <;> rfl

end Entity

namespace EntityTable

variable {t : EntityTable} {id : EntityId}

@[simp] theorem size_bare : t.bare.size = t.size :=
  List.length_map ..

theorem get_bare : t.bare.get id = (t.get id).map (·.bare) := by
  rw [get, get, bare, List.getElem?_map]
  cases t.entries[id.index]? <;> rfl

theorem set_bare (e : Entity) : t.bare.set id e.bare = (t.set id e).bare := by
  simp [set, bare, List.map_set]

/-- A temporary is the same without locations. -/
theorem addTemporary_bare {types : TypeTable} {type : TypeId} :
    t.bare.addTemporary types.bare type =
      (t.addTemporary types type).map fun r => (r.1.bare, r.2) := by
  have hadd (e : Entity) (he : e.bare = e) : t.bare.add e = ((t.add e).1.bare, (t.add e).2) := by
    simp [add, bare, size, he]
  rw [addTemporary, addTemporary, TypeTable.refOf_bare, size_bare, bind_map]
  exact bind_congr fun ref => congrArg Except.ok (hadd _ rfl)

end EntityTable

namespace Lower

variable {α β γ : Type}

/-! ## Computations -/

/-- A computation that does on the bare state what another one does, where the result carries no
places. What was computed before is written down so that instance search keeps it in mind: it starts
over behind each result that it forgets. -/
class EchoAfter {ι : Type} (before : ι) (m m' : Lower α) : Prop where
  echoes : ∀ s : LowerState, Echoes (fun r => (r.1, r.2.bare)) (m s) (m' s.bare)

/-- The same whatever was computed before. -/
abbrev Echo (m m' : Lower α) : Prop :=
  EchoAfter () m m'

instance (priority := low) {ι : Type} {before : ι} {m m' : Lower α} [h : Echo m m'] :
    EchoAfter before m m' :=
  ⟨h.echoes⟩

/-- The same where the result has an image without places. -/
structure EchoVia (φ : α → β) (m : Lower α) (m' : Lower β) : Prop where
  echoes : ∀ s : LowerState, Echoes (fun r => (φ r.1, r.2.bare)) (m s) (m' s.bare)

theorem EchoVia.bind {δ : Type} {φ : α → β} {ψ : γ → δ} {m : Lower α} {m' : Lower β}
    {f : α → Lower γ} {f' : β → Lower δ} (h : EchoVia φ m m')
    (hf : ∀ x, EchoVia ψ (f x) (f' (φ x))) : EchoVia ψ (m >>= f) (m' >>= f') where
  echoes := fun s => (h.echoes s).bind fun r => (hf r.1).echoes r.2

theorem EchoVia.pure {φ : α → β} (x : α) :
    EchoVia φ (Pure.pure x : Lower α) (Pure.pure (φ x)) where
  echoes := fun s => .ok (x, s)

theorem Echo.via {m m' : Lower α} (h : Echo m m') : EchoVia id m m' :=
  ⟨h.echoes⟩

theorem EchoVia.echo {φ : α → β} {m : Lower α} {m' : Lower β} {f : α → Lower γ} {f' : β → Lower γ}
    (h : EchoVia φ m m') (hf : ∀ x, Echo (f x) (f' (φ x))) : Echo (m >>= f) (m' >>= f') :=
  ⟨(h.bind fun x => (hf x).via).echoes⟩

theorem echoVia_get : EchoVia LowerState.bare (get : Lower LowerState) get where
  echoes := fun s => .ok (s, s)

theorem echoVia_lift {φ : α → β} {x : Except Fault α} {y : Except Fault β} (h : Echoes φ x y) :
    EchoVia φ (liftM x) (liftM y) where
  echoes := fun s => h.bind fun a => .ok (a, s)

theorem echoVia_entity (id : EntityId) : EchoVia Entity.bare (entity id) (entity id) where
  echoes := fun s => (Echoes.of_eq EntityTable.get_bare).bind fun e => .ok (e, s)

namespace Echo

variable {m m' : Lower α} {f f' : α → Lower β}

instance pure (x : α) : Echo (Pure.pure x : Lower α) (Pure.pure x) where
  echoes := fun s => .ok (x, s)

instance bind {ι : Type} {before : ι} [hm : EchoAfter before m m']
    [hf : ∀ x, EchoAfter (before, x) (f x) (f' x)] : EchoAfter before (m >>= f) (m' >>= f') where
  echoes := fun s => (hm.echoes s).bind fun r => (hf r.1).echoes r.2

theorem bind_of (hm : Echo m m') (hf : ∀ x, Echo (f x) (f' x)) : Echo (m >>= f) (m' >>= f') :=
  bind

instance ite {ι : Type} {before : ι} {c : Prop} [Decidable c] {k k' : Lower α}
    [EchoAfter before m m'] [EchoAfter before k k'] :
    EchoAfter before (if c then m else k) (if c then m' else k') := by
  split <;> infer_instance

instance fail (fault : Fault) : Echo (throw fault : Lower α) (throw fault) where
  echoes := fun _ => .error rfl

theorem fail_of {fault fault' : Fault} (h : fault.bare = fault'.bare) :
    Echo (throw fault : Lower α) (throw fault') where
  echoes := fun _ => .error h

instance lift (x : Except Fault α) : Echo (liftM x : Lower α) (liftM x) where
  echoes := fun s => by
    have hsame : x = x.map id := by cases x <;> rfl
    exact (Echoes.of_eq hsame).bind fun a => .ok (a, s)

/-- A change of the state is echoed by the same change of a bare one. -/
theorem modify {f g : LowerState → LowerState} (h : ∀ s, g s.bare = (f s).bare) :
    Echo (MonadState.modifyGet fun s => ((), f s) : Lower Unit)
      (MonadState.modifyGet fun s => ((), g s)) where
  echoes := fun s => by
    have heq : (MonadState.modifyGet fun s => ((), g s) : Lower Unit) s.bare =
        .ok ((), (f s).bare) := by rw [← h]; rfl
    rw [heq]
    exact .ok ((), f s)

instance forM {l : List β} {f f' : β → Lower Unit} [hf : ∀ x, Echo (f x) (f' x)] :
    Echo (l.forM f) (l.forM f') := by
  induction l with
  | nil => exact pure ()
  | cons x l ih => exact bind

end Echo

/-! ## Steps -/

/-- A question whose answer does not depend on the places of definitions. -/
class Placeless (question : TypeTable → Except Fault α) : Prop where
  bare : ∀ t : TypeTable, question t.bare = question t

section

variable {id : TypeId}

instance : Placeless (fun t => t.isVoid id) := ⟨fun _ => TypeTable.isVoid_bare⟩

instance : Placeless (fun t => t.isSigned id) := ⟨fun _ => TypeTable.isSigned_bare⟩

instance : Placeless (fun t => t.isArray id) := ⟨fun _ => TypeTable.isArray_bare⟩

instance : Placeless (fun t => t.isComposite id) := ⟨fun _ => TypeTable.isComposite_bare⟩

instance : Placeless (fun t => t.isFunction id) := ⟨fun _ => TypeTable.isFunction_bare⟩

instance : Placeless (fun t => t.isScalar id) := ⟨fun _ => TypeTable.isScalar_bare⟩

instance : Placeless (fun t => t.isAggregate id) := ⟨fun _ => TypeTable.isAggregate_bare⟩

instance : Placeless (fun t => t.isPointerLike id) := ⟨fun _ => TypeTable.isPointerLike_bare⟩

instance : Placeless (fun t => t.baseType id) := ⟨fun _ => TypeTable.baseType_bare⟩

instance : Placeless (fun t => t.sizeOf id) := ⟨fun _ => TypeTable.sizeOf_bare⟩

instance : Placeless (fun t => t.alignmentOf id) := ⟨fun _ => TypeTable.alignmentOf_bare⟩

instance : Placeless (fun t => t.elementSize id) := ⟨fun _ => TypeTable.elementSize_bare⟩

instance {name : String} : Placeless (fun t => t.member? id name) :=
  ⟨fun _ => TypeTable.member?_bare name⟩

instance : Placeless (fun t => t.void) := ⟨fun _ => TypeTable.void_bare⟩

instance : Placeless (fun t => t.int) := ⟨fun _ => TypeTable.int_bare⟩

end

instance echo_ask {question : TypeTable → Except Fault α} [h : Placeless question] :
    Echo (ask question) (ask question) where
  echoes := fun s => by
    have hsame : question s.bare.types = (question s.types).map id := by
      rw [show s.bare.types = s.types.bare from rfl, h.bare]
      cases question s.types <;> rfl
    exact (Echoes.of_eq hsame).bind fun a => .ok (a, s)

/-- A step that goes on with another table. -/
theorem echo_types {step : TypeTable → Except Fault (TypeTable × α)}
    (h : ∀ t, step t.bare = (step t).map TypeTable.bareFirst) :
    let m : Lower α := do
      let (types, x) ← ask step
      modify ({ · with types })
      return x
    Echo m m := by
  have hask : EchoVia TypeTable.bareFirst (ask step) (ask step) :=
    ⟨fun s => (Echoes.of_eq (h s.types)).bind fun r => .ok (r, s)⟩
  refine hask.echo fun ⟨types, x⟩ => ?_
  have : Echo (modify ({ · with types }) : Lower Unit) (modify ({ · with types := types.bare })) :=
    .modify fun _ => rfl
  exact Echo.bind

instance echo_typeId {ref : TypeRef} : Echo (typeId ref) (typeId ref) :=
  echo_types fun t => t.intern_bare ref

instance echo_pointerTo {id : TypeId} : Echo (pointerTo id) (pointerTo id) :=
  echo_types fun _ => TypeTable.pointerTo_bare

instance echo_stringId {value : String} : Echo (stringId value) (stringId value) where
  echoes := fun s =>
    .ok ((s.strings.intern value).2, { s with strings := (s.strings.intern value).1 })

instance echo_newLabel : Echo newLabel newLabel where
  echoes := fun s => .ok (s.labels.take.2, { s with labels := s.labels.take.1 })

instance echo_set (s : LowerState) : Echo (set s : Lower Unit) (set s.bare) where
  echoes := fun _ => .ok ((), s)

instance echo_temporary {type : TypeId} : Echo (temporary type) (temporary type) := by
  have hadd (f : Ir.Function) (entities : EntityTable) (types : TypeTable) :
      f.bare.addTemporary entities.bare types.bare type = (f.addTemporary entities types type).map
        fun r => (r.1.bare, r.2.1.bare, r.2.2) := by
    rw [Ir.Function.addTemporary, Ir.Function.addTemporary, Scope.addTemporary, Scope.addTemporary,
      EntityTable.addTemporary_bare, map_bind, bind_assoc, bind_assoc, bind_map]
    rfl
  refine echoVia_get.echo fun s => ?_
  refine (echoVia_lift (Echoes.of_eq (hadd s.function s.entities s.types))).echo fun r => ?_
  have hset := echo_set { s with function := r.1, entities := r.2.1 }
  exact .bind_of hset fun _ => .pure r.2.2

instance echo_emit {location : Option Location} {action : Ir.Action} :
    Echo (emit location action) (emit none action) :=
  .modify fun s => by
    simp [LowerState.bare, Ir.Function.emit, Ir.Function.bare, Ir.Stmt.bare]

instance echo_report {location : Option Location} {problem : LoweringProblem} :
    Echo (report location problem) (report none problem) :=
  .modify fun s => by
    simp [LowerState.bare]

instance echo_functionName : Echo functionName functionName := by
  refine echoVia_get.echo fun s => ?_
  exact (echoVia_entity _).echo fun e => .pure e.name

section

variable {location : Option Location} {target value : Ir.Expr} {type composite : TypeId}

instance : Echo (store location target value) (store none target value) := by
  unfold store
  infer_instance

instance {l : Ir.Label} : Echo (jump location l) (jump none l) := by
  unfold jump
  infer_instance

instance {yes no : Ir.Label} : Echo (branch location value yes no) (branch none value yes no) := by
  unfold branch
  infer_instance

instance {l : Ir.Label} : Echo (place l) (place l) := by
  unfold place
  infer_instance

instance echo_pointerWidth : Echo pointerWidth pointerWidth := by
  unfold pointerWidth
  exact echoVia_get.echo fun s => by
    rw [show s.bare.types.profile = s.types.profile from rfl]
    infer_instance

instance : Echo (isByAddress type) (isByAddress type) := by
  unfold isByAddress
  infer_instance

instance : Echo (width type) (width type) := by
  unfold width
  infer_instance

instance : Echo (load type value) (load type value) := by
  unfold load
  infer_instance

instance {offset : Nat} : Echo (offsetAddress value offset) (offsetAddress value offset) := by
  unfold offsetAddress
  infer_instance

instance {size : Nat} : Echo (scale value size) (scale value size) := by
  unfold scale
  infer_instance

instance {name : String} : Echo (member type composite value name)
    (member type composite value name) := by
  unfold member
  refine .bind_of inferInstance fun found => ?_
  split
  · infer_instance
  · refine echoVia_get.echo fun s => ?_
    rw [show s.bare.types = s.types.bare from rfl, TypeTable.nameOf_bare]
    infer_instance

instance {id : EntityId} : Echo (designated type id) (designated type id) := by
  unfold designated
  infer_instance

instance : Echo (storeTemporary location type value) (storeTemporary none type value) := by
  unfold storeTemporary
  infer_instance

instance : Echo (stable location value) (stable none value) := by
  unfold stable
  split <;> infer_instance

instance : Echo (copyAggregate location type target value)
    (copyAggregate none type target value) := by
  unfold copyAggregate
  infer_instance

end

/-! ## Expressions -/

section

variable {place : Option Location} {result : Option Ir.Expr} {type : TypeId} {value : Ir.Expr}
  {d : Demand}

instance : Echo (needed place result) (needed none result) := by
  cases result with
  | none => exact .fail_of rfl
  | some v => exact .pure v

instance : Echo (discard place result) (discard none result) := by
  unfold discard
  cases result <;> infer_instance

instance : Echo (objectAddress place type value) (objectAddress none type value) := by
  unfold objectAddress
  have (w : Width) : Echo (match value.addressOf? w with
      | some address => pure address
      | none => throw (.noAddress place) : Lower Ir.Expr) (match value.addressOf? w with
      | some address => pure address
      | none => throw (.noAddress none)) := by
    cases value.addressOf? w with
    | none => exact .fail_of rfl
    | some address => exact .pure address
  infer_instance

instance {op : Source.BinaryOp} {leftType rightType : TypeId} {left right : Ir.Expr} :
    Echo (Lower.binary type op leftType rightType left right)
      (Lower.binary type op leftType rightType left right) := by
  unfold Lower.binary
  dsimp only
  refine .bind_of inferInstance fun signed => .bind_of inferInstance fun w => ?_
  cases op <;> simp only [reduceCtorEq, reduceIte, or_true, true_or, or_self] <;> infer_instance

instance {op : Ir.Op} {left right : Ir.Expr} :
    Echo (arithmetic op type left right) (arithmetic op type left right) := by
  unfold arithmetic
  infer_instance

instance {op : Ir.Op} {target right : Ir.Expr} :
    Echo (Lower.opAssign d place op type target right)
      (Lower.opAssign d none op type target right) := by
  unfold Lower.opAssign
  refine .bind_of inferInstance fun ptr => ?_
  split
  · infer_instance
  · cases target.addressOf? ptr with
    | none => exact .fail_of rfl
    | some address => infer_instance

instance {op : Ir.Op} {w : Width} {target : Ir.Expr} :
    Echo (Lower.postStep d place op type w target) (Lower.postStep d none op type w target) := by
  unfold Lower.postStep
  refine .bind_of inferInstance fun ptr => ?_
  split
  · infer_instance
  · infer_instance
  · cases target.addressOf? ptr with
    | none => exact .fail_of rfl
    | some address => infer_instance

instance {fault : String → Fault} :
    Echo (refuseComposite type fault) (refuseComposite type fault) := by
  unfold refuseComposite
  infer_instance

instance {callee : Ir.Expr} {args : List Ir.Expr} :
    Echo (Lower.call d place type callee args) (Lower.call d none type callee args) := by
  unfold Lower.call
  infer_instance

instance {source target : TypeId} :
    Echo (castChanges source target) (castChanges source target) := by
  unfold castChanges
  infer_instance

open Source.Expr (lowerUsing lowerArgs lowerWithin)

section

variable {inline inline' : Entity → Source.Expr → Lower Ir.Expr} {n : Source.Note}

/-- A constant stands for its value, which is lowered as it is without its places. -/
theorem echo_var {id : EntityId}
    (h : ∀ c value, Echo (inline c value) (inline' c.bare value.bare)) :
    Echo (lowerUsing inline d (.var n id)) (lowerUsing inline' d (Source.Expr.var n id).bare) := by
  simp only [Source.Expr.bare, lowerUsing, Source.Note.type_bare]
  refine .bind_of inferInstance fun _ => (echoVia_entity id).echo fun e => ?_
  rw [Entity.constantValue?_bare]
  cases e.constantValue? with
  | none =>
    dsimp only [Option.map]
    rw [Entity.typeId_bare]
    infer_instance
  | some value =>
    dsimp only [Option.map]
    have := h e value
    infer_instance

/-- A condition is echoed if its test and its arms are. -/
theorem echo_cond {test yes no : Source.Expr}
    [∀ d, Echo (lowerUsing inline d test) (lowerUsing inline' d test.bare)]
    [∀ d, Echo (lowerUsing inline d yes) (lowerUsing inline' d yes.bare)]
    [∀ d, Echo (lowerUsing inline d no) (lowerUsing inline' d no.bare)] :
    Echo (lowerUsing inline d (.cond n test yes no))
      (lowerUsing inline' d (Source.Expr.cond n test yes no).bare) := by
  simp only [Source.Expr.bare, lowerUsing, Source.Note.type_bare, Source.Note.location_bare,
    Source.Expr.location_bare]
  refine .bind_of inferInstance fun type => .bind_of inferInstance fun yesLabel =>
    .bind_of inferInstance fun noLabel => .bind_of inferInstance fun endLabel =>
    .bind_of inferInstance fun _ => .bind_of inferInstance fun _ =>
    .bind_of inferInstance fun _ => .bind_of inferInstance fun isVoid => ?_
  -- the arms of a void expression leave nothing
  split <;> infer_instance

mutual

/-- An expression is lowered as it is without its places, if the constants in it are. -/
theorem echo_lowerUsing (h : ∀ c value, Echo (inline c value) (inline' c.bare value.bare))
    (d : Demand) (e : Source.Expr) :
    Echo (lowerUsing inline d e) (lowerUsing inline' d e.bare) := by
  -- the operands are lowered in the same way, and what a node adds does not look at locations
  cases e with
  | int n v | str n v | sizeofType n t | sizeofExpr n e =>
    simp only [Source.Expr.bare, lowerUsing, Source.Note.type_bare, Source.Expr.type_bare]
    infer_instance
  | var n id => exact echo_var h
  | unary n op e =>
    have := fun d => echo_lowerUsing h d e
    simp only [Source.Expr.bare, lowerUsing, Source.Note.type_bare, Source.Expr.location_bare]
    refine .bind_of inferInstance fun _ => ?_
    cases op <;> infer_instance
  | preStep n _ e | postStep n _ e | cast n e | addr n e | deref n e | member n e _
  | ptrMember n e _ =>
    have := fun d => echo_lowerUsing h d e
    simp only [Source.Expr.bare, lowerUsing, Source.Note.type_bare, Source.Note.location_bare,
      Source.Expr.type_bare, Source.Expr.location_bare]
    infer_instance
  | binary n _ l r | opAssign n _ l r | index n l r =>
    have := fun d => echo_lowerUsing h d l
    have := fun d => echo_lowerUsing h d r
    simp only [Source.Expr.bare, lowerUsing, Source.Note.type_bare, Source.Note.location_bare,
      Source.Expr.type_bare, Source.Expr.location_bare]
    infer_instance
  | logical n op l r =>
    have := fun d => echo_lowerUsing h d l
    have := fun d => echo_lowerUsing h d r
    simp only [Source.Expr.bare, lowerUsing, Source.Note.type_bare, Source.Note.location_bare,
      Source.Expr.location_bare]
    cases op <;> infer_instance
  | assign n l r =>
    have := fun d => echo_lowerUsing h d l
    have := fun d => echo_lowerUsing h d r
    simp only [Source.Expr.bare, lowerUsing, Source.Note.type_bare, Source.Note.location_bare,
      Source.Expr.type_bare, Source.Expr.location_bare]
    cases d <;> infer_instance
  | cond n test yes no =>
    have := fun d => echo_lowerUsing h d test
    have := fun d => echo_lowerUsing h d yes
    have := fun d => echo_lowerUsing h d no
    exact echo_cond
  | call n callee args =>
    have := fun d => echo_lowerUsing h d callee
    have := echo_lowerArgs h args
    simp only [Source.Expr.bare, lowerUsing, Source.Note.type_bare, Source.Note.location_bare,
      Source.Expr.location_bare]
    infer_instance

/-- Arguments are echoed one after another. -/
theorem echo_lowerArgs (h : ∀ c value, Echo (inline c value) (inline' c.bare value.bare))
    (es : List Source.Expr) :
    Echo (lowerArgs inline es) (lowerArgs inline' (Source.Expr.bareAll es)) := by
  cases es with
  | nil =>
    simp only [Source.Expr.bareAll, lowerArgs]
    infer_instance
  | cons e es =>
    have := fun d => echo_lowerUsing h d e
    have := echo_lowerArgs h es
    simp only [Source.Expr.bareAll, lowerArgs, Source.Expr.type_bare, Source.Expr.location_bare]
    infer_instance

end

end

variable {e : Source.Expr}

/-- Expressions are echoed, however deep their constants go. -/
theorem echo_lowerWithin (depth : Nat) (d : Demand) (e : Source.Expr) :
    Echo (lowerWithin depth d e) (lowerWithin depth d e.bare) := by
  induction depth generalizing d e with
  | zero => exact echo_lowerUsing (fun c _ => .fail (.endlessConstant c.name)) d e
  | succ depth ih =>
    refine echo_lowerUsing (fun _ value => ?_) d e
    have := ih .value value
    rw [Source.Expr.location_bare]
    infer_instance

instance echo_lower : Echo (e.lower d) (e.bare.lower d) :=
  echoVia_get.echo fun s => by
    rw [show s.bare.entities.size = s.entities.size from EntityTable.size_bare]
    exact echo_lowerWithin ..

instance : Echo e.lowerValue e.bare.lowerValue := by
  unfold Source.Expr.lowerValue
  rw [Source.Expr.location_bare]
  infer_instance

instance : Echo e.lowerEffects e.bare.lowerEffects := by
  unfold Source.Expr.lowerEffects
  rw [Source.Expr.location_bare]
  infer_instance

end

end Lower

end Backend386
