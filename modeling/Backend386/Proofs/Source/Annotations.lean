import Backend386.Proofs.Source.Occurs
import Backend386.Proofs.Types.Widths

/-!
# Type annotations

Every expression carries a type, which nothing checks. When the types that expressions carry fit
each other is judged in the tables that are there when a unit is lowered; what is said of a type
holds for nothing if the type was never looked up.

* `TypeTable.Known` — what is said of the type that is registered for a reference;
* `Source.Expr.Annotated`, `Source.Part.Annotated` — the types fit each other;
* `Source.Expr.Proper`, `Source.Part.Proper` — addresses have types of their width, and what is
  stored into is an object;
* `Source.Expr.assigned?`, `Source.MemberOf` — what is assigned to, and members of variables.
-/

namespace Backend386

namespace TypeTable

variable {t : TypeTable}

/-- The type that is registered for a reference, if any, is of a certain kind. -/
def Known (t : TypeTable) (ref : TypeRef) (P : TypeId → Prop) : Prop :=
  ∀ id, t.lookup? ref = some id → P id

/-- The types that are registered for two references differ in typedefs only. -/
def SameTypes (t : TypeTable) (a b : TypeRef) : Prop :=
  t.Known a fun σ => t.Known b fun τ => t.SameType σ τ

/-- Values of the types that are registered for two references are equally wide. -/
def SameWidths (t : TypeTable) (a b : TypeRef) : Prop :=
  t.Known a fun σ => t.Known b fun τ => t.registerWidth σ = t.registerWidth τ

/-- Whether a cast changes the representation. -/
def castChanges (t : TypeTable) (source target : TypeId) : Except Fault Bool := do
  if ← t.isScalar source then
    if ← t.isScalar target then
      return (← t.sizeOf source) ≠ (← t.sizeOf target)
    else
      return false
  else
    return false

instance {source target : TypeId} : Lasting (·.castChanges source target) :=
  inferInstanceAs (Lasting fun t => t.isScalar source >>= fun a => if a then
    t.isScalar target >>= fun b => if b then
      t.sizeOf source >>= fun m => t.sizeOf target >>= fun n => Pure.pure (decide (m ≠ n))
    else Pure.pure false
  else Pure.pure false)

end TypeTable

namespace Source

/-- The type that a node carries fits those of its operands and of the entity that it names. -/
def Expr.Annotated (t : TypeTable) (entities : EntityTable) : Expr → Prop
  | .var n id => ∀ v τ, entities.get id = .ok v → v.type = .settled τ →
    t.Known n.type (t.SameType · τ) ∧ ∀ value, v.constantValue? = some value →
      t.Known value.type fun σ => t.registerWidth σ = t.registerWidth τ
  | .unary n .plus e | .preStep n _ e | .postStep n _ e | .opAssign n _ e _ =>
    t.SameTypes n.type e.type
  | .assign n l r => t.SameTypes n.type l.type ∧ t.SameWidths l.type r.type
  | .cond n _ yes no => t.SameWidths n.type yes.type ∧ t.SameWidths n.type no.type
  | .cast n e => t.Known n.type fun σ => t.Known e.type fun τ =>
    t.castChanges τ σ = .ok false → t.isVoid σ = .ok false → t.registerWidth σ = t.registerWidth τ
  -- a pointer or an array, or a function that stands for its address
  | .deref n e => t.Known n.type fun σ => t.Known e.type fun τ =>
    (∃ base, t.baseType τ = .ok base ∧ t.SameType σ base) ∨
      t.isFunction τ = .ok true ∧ t.SameType σ τ
  | .member n e name => t.Known n.type fun σ => t.Known e.type fun τ =>
    ∀ part offset, t.member? τ name = .ok (some (part, offset)) → t.SameType σ part
  | .ptrMember n e name => t.Known n.type fun σ => t.Known e.type fun τ =>
    ∀ base part offset, t.baseType τ = .ok base → t.member? base name = .ok (some (part, offset)) →
      t.SameType σ part
  | .index n e _ => t.Known n.type fun σ => t.Known e.type fun τ =>
    ∀ base, t.baseType τ = .ok base → t.SameType σ base
  | .logical n .. => t.Known n.type (t.isInteger · = .ok true)
  | .call n .. => t.Known n.type fun σ => t.isScalar σ = .ok true ∨ t.isVoid σ = .ok true
  | .int .. | .str .. | .sizeofType .. | .sizeofExpr .. | .unary .. | .binary .. | .addr .. => True

/-- An address has a type of its width, and an object is assigned to: no function, nothing void, and
a scalar where the new value is computed from the old one. -/
def Expr.Proper (t : TypeTable) : Expr → Prop
  | .str n _ | .addr n _ => t.Known n.type fun σ => t.registerWidth σ = t.pointerWidth
  | .assign _ l _ => t.Known l.type fun σ => t.isVoid σ = .ok false ∧ t.isFunction σ = .ok false
  | .opAssign _ _ l _ | .preStep _ _ l | .postStep _ _ l => t.Known l.type (t.isScalar · = .ok true)
  | _ => True

/-- The types that a part of a program carries fit each other. -/
structure Part.Annotated (t : TypeTable) (entities : EntityTable) (p : Part) : Prop where
  expr : ∀ e, p.exprs e → e.Annotated t entities
  switch : ∀ e, p.switches e → t.Known e.type (t.isInteger · = .ok true)
  initial : ∀ id v τ init, p.vars id → entities.get id = .ok v → v.type = .settled τ →
    v.initializer? = some init → t.Known init.type fun σ => t.registerWidth σ = t.registerWidth τ

/-- What a part of a program assigns or initializes is an object. -/
structure Part.Proper (t : TypeTable) (entities : EntityTable) (p : Part) : Prop where
  expr : ∀ e, p.exprs e → e.Proper t
  initial : ∀ id v τ init, p.vars id → entities.get id = .ok v → v.type = .settled τ →
    v.initializer? = some init → t.isVoid τ = .ok false ∧ t.isFunction τ = .ok false

/-! ## Annotations can be checked -/

section

variable {α ε : Type} {t : TypeTable} {entities : EntityTable}

instance decidableForallOk {r : Except ε α} {P : α → Prop} [DecidablePred P] :
    Decidable (∀ a, r = .ok a → P a) :=
  match r with
  | .error _ => .isTrue nofun
  | .ok a => decidable_of_iff (P a) ⟨fun h _ heq => Except.ok.inj heq ▸ h, fun h => h a rfl⟩

instance decidableExistsOk {r : Except ε α} {P : α → Prop} [DecidablePred P] :
    Decidable (∃ a, r = .ok a ∧ P a) :=
  match r with
  | .error _ => .isFalse nofun
  | .ok a => decidable_of_iff (P a)
    ⟨fun h => ⟨a, rfl, h⟩, fun ⟨_, heq, h⟩ => Except.ok.inj heq ▸ h⟩

instance {ref : TypeRef} {P : TypeId → Prop} [DecidablePred P] : Decidable (t.Known ref P) :=
  decidable_of_iff (∀ id ∈ t.lookup? ref, P id) Iff.rfl

instance {a b : TypeId} : Decidable (t.SameType a b) :=
  inferInstanceAs (Decidable (∃ real, t.realType a = .ok real ∧ t.realType b = .ok real))

instance {a b : TypeRef} : Decidable (t.SameTypes a b) :=
  inferInstanceAs (Decidable (t.Known a fun _ => t.Known b fun _ => _))

instance {a b : TypeRef} : Decidable (t.SameWidths a b) :=
  inferInstanceAs (Decidable (t.Known a fun _ => t.Known b fun _ => _))

/-- A member that may be missing. -/
instance {r : Except ε (Option (TypeId × Nat))} {P : TypeId → Prop} [DecidablePred P] :
    Decidable (∀ part offset, r = .ok (some (part, offset)) → P part) :=
  decidable_of_iff (∀ found, r = .ok found → ∀ m ∈ found, P m.1)
    ⟨fun h part offset heq => h _ heq (part, offset) rfl,
      fun h _ hr m hm => h m.1 m.2 (hm ▸ hr)⟩

/-- The type of an entity. -/
instance {r : Except ε Entity} {P : Entity → TypeId → Prop} [∀ v τ, Decidable (P v τ)] :
    Decidable (∀ v τ, r = .ok v → v.type = .settled τ → P v τ) :=
  decidable_of_iff (∀ v, r = .ok v → ∀ τ ∈ v.type.toOption, P v τ) <| by
    refine forall_congr' fun v => ⟨fun h τ hv hτ => h hv τ (by rw [hτ]; rfl), fun h hv τ hτ => ?_⟩
    cases htype : v.type with
    | pending =>
      rw [htype] at hτ
      cases hτ
    | settled σ =>
      rw [htype] at hτ
      obtain rfl := Option.some.inj hτ
      exact h _ hv htype

instance : (e : Expr) → Decidable (e.Annotated t entities)
  | .var _ id => inferInstanceAs (Decidable (∀ v τ, entities.get id = .ok v → v.type = .settled τ →
      _ ∧ ∀ value ∈ v.constantValue?, _))
  | .unary _ .plus _ | .preStep .. | .postStep .. | .opAssign .. =>
    inferInstanceAs (Decidable (t.SameTypes ..))
  | .assign .. => inferInstanceAs (Decidable (t.SameTypes .. ∧ t.SameWidths ..))
  | .cond .. => inferInstanceAs (Decidable (t.SameWidths .. ∧ t.SameWidths ..))
  | .cast .. | .deref .. | .member .. | .index .. =>
    inferInstanceAs (Decidable (t.Known _ fun _ => t.Known _ fun _ => _))
  | .ptrMember n e name =>
    decidable_of_iff (t.Known n.type fun σ => t.Known e.type fun τ =>
      ∀ base, t.baseType τ = .ok base →
      ∀ part offset, t.member? base name = .ok (some (part, offset)) → t.SameType σ part) <| by
      simp only [Expr.Annotated, TypeTable.Known]
      grind
  | .logical .. | .call .. => inferInstanceAs (Decidable (t.Known _ _))
  | .int .. | .str .. | .sizeofType .. | .sizeofExpr .. | .binary .. | .addr ..
  | .unary _ .minus _ | .unary _ .bitNot _ | .unary _ .not _ => .isTrue trivial

instance : (e : Expr) → Decidable (e.Proper t)
  | .str .. | .addr .. | .assign .. | .opAssign .. | .preStep .. | .postStep .. =>
    inferInstanceAs (Decidable (t.Known _ _))
  | .int .. | .var .. | .sizeofType .. | .sizeofExpr .. | .unary .. | .binary .. | .logical ..
  | .cond .. | .cast .. | .deref .. | .member .. | .ptrMember .. | .index .. | .call .. =>
    .isTrue trivial

end

/-- The object that an expression assigns to. -/
def Expr.assigned? : Expr → Option Expr
  | .assign _ l _ | .opAssign _ _ l _ | .preStep _ _ l | .postStep _ _ l => some l
  | _ => none

/-- A variable, or a member of one, of a member of one and so on. -/
inductive MemberOf (entities : EntityTable) (v : EntityId) : Expr → Prop where
  | var {n : Note} {e : Entity} (hv : entities.get v = .ok e) (hn : e.constantValue? = none) :
    MemberOf entities v (.var n v)
  | member {n : Note} {e : Expr} {name : String} (h : MemberOf entities v e) :
    MemberOf entities v (.member n e name)

end Source

end Backend386
