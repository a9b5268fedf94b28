import Backend386.Proofs.Lowering.Pointers
import Backend386.Proofs.Types.Lookups

/-!
# What expressions are lowered to

A node is lowered in three steps: the types that it mentions are looked up, then its operands are
lowered, and then the node is put together.

* `Lower.LooksUp` — types are looked up, one after another;
* `Lower.LooksUp.one`, `Lower.LooksUp.two`, … — they are, if their references resolve;
* `Source.Expr.LowersTo` — what an expression is lowered to for its value;
* `Source.Expr.LowersTo.binary`, `Source.Expr.LowersTo.index`, … — what an expression is lowered to,
  given what its operands are lowered to.
-/

namespace Backend386

open Relation (ReflTransGen)

/-! ## Types that are looked up -/

namespace Lower

variable {s s' s₁ s₂ : LowerState} {ref ref₁ ref₂ ref₃ : TypeRef} {refs refs' : List TypeRef}
  {type : TypeId} {P P₁ P₂ P₃ : TypeTable → Prop}

/-- A run of the lowering only looks types up. -/
theorem Steps.interns {p : Source.Part} (h : Steps p s s') :
    ReflTransGen TypeTable.Interns s.types s'.types := by
  induction h with
  | refl => exact .refl
  | tail _ hstep ih =>
    cases hstep with
    | typeId _ h => exact ih.tail ⟨_, _, h⟩
    | pointerTo h =>
      obtain ⟨ref, -, hintern⟩ := Backend386.bind_eq_ok_iff.1 h
      exact ih.tail ⟨_, _, hintern⟩
    | _ => exact ih

/-- The types of a list of references are looked up, first to last. -/
def LooksUp : List TypeRef → LowerState → LowerState → Prop
  | [], s, s' => s' = s
  | ref :: refs, s, s' => ∃ type s₁, typeId ref s = .ok (type, s₁) ∧ LooksUp refs s₁ s'

namespace LooksUp

/-- Looking up types takes steps of the widest walk. -/
theorem steps (h : LooksUp refs s s') : Steps .all s s' := by
  induction refs generalizing s with
  | nil =>
    obtain rfl : s' = s := h
    exact .refl
  | cons ref refs ih =>
    obtain ⟨type, s₁, hid, hrest⟩ := h
    obtain ⟨types, hintern, rfl⟩ := typeId_eq_ok hid
    exact .head (.typeId ⟨.sizeofType ⟨ref, none⟩ ref, trivial, List.mem_cons_self⟩ hintern)
      (ih hrest)

theorem grown (h : LooksUp refs s s') : Grown s s' :=
  h.steps.grown

/-- The first type, of which it is known what it is in the end. -/
theorem head (h : LooksUp (ref :: refs) s s') (hl : s'.types.lookup? ref = some type) :
    ∃ s₁, typeId ref s = .ok (type, s₁) ∧ LooksUp refs s₁ s' := by
  obtain ⟨type', s₁, hid, hrest⟩ := h
  obtain ⟨types, hintern, rfl⟩ := typeId_eq_ok hid
  -- the later lookups leave the reference under the number that was found first
  have hl' := hrest.grown.types.lookup? (TypeTable.intern_lookup? hintern)
  obtain rfl := Option.some.inj (hl'.symm.trans hl)
  exact ⟨_, hid, hrest⟩

theorem last (h : LooksUp [ref] s s') (hl : s'.types.lookup? ref = some type) :
    typeId ref s = .ok (type, s') := by
  obtain ⟨s₁, hid, rfl⟩ := h.head hl
  exact hid

/-- References are looked up one after another. -/
theorem append (h : LooksUp refs s s₁) (h' : LooksUp refs' s₁ s') :
    LooksUp (refs ++ refs') s s' := by
  induction refs generalizing s with
  | nil =>
    obtain rfl : s₁ = s := h
    exact h'
  | cons ref refs ih =>
    obtain ⟨type, s₂, hid, hrest⟩ := h
    exact ⟨type, s₂, hid, ih hrest⟩

/-- Looking a type up again changes nothing. -/
theorem again (hl : s.types.lookup? ref = some type) (h : LooksUp refs s s') :
    LooksUp (ref :: refs) s s' :=
  ⟨type, s, typeId_ok hl, h⟩

/-- Each of them is registered afterwards. -/
theorem registered (h : LooksUp refs s s') (hr : ref ∈ refs) :
    ∃ id, s'.types.lookup? ref = some id := by
  induction refs generalizing s with
  | nil => cases hr
  | cons first refs ih =>
    obtain ⟨type, s₁, hid, hrest⟩ := h
    rcases List.mem_cons.1 hr with rfl | hr
    · obtain ⟨types, hintern, rfl⟩ := typeId_eq_ok hid
      exact ⟨type, hrest.grown.types.lookup? (TypeTable.intern_lookup? hintern)⟩
    · exact ih hrest hr

/-- What is registered later for a reference that was looked up was registered then. -/
theorem lookup?_of_extends {t : TypeTable} (h : LooksUp refs s s') (hr : ref ∈ refs)
    (hext : s'.types.Extends t) (hl : t.lookup? ref = some type) :
    s'.types.lookup? ref = some type := by
  obtain ⟨id, hid⟩ := h.registered hr
  rw [hid, ← hl, hext.lookup? hid]

/-- Nothing but the types changes. -/
theorem exists_types (h : LooksUp refs s s') : ∃ types, s' = { s with types } := by
  induction refs generalizing s with
  | nil =>
    obtain rfl : s' = s := h
    exact ⟨s'.types, rfl⟩
  | cons ref refs ih =>
    obtain ⟨type, s₁, hid, hrest⟩ := h
    obtain ⟨types, -, rfl⟩ := typeId_eq_ok hid
    obtain ⟨types', rfl⟩ := ih hrest
    exact ⟨types', rfl⟩

theorem function_eq (h : LooksUp refs s s') : s'.function = s.function := by
  obtain ⟨types, rfl⟩ := h.exists_types
  rfl

/-! ### References that resolve -/

/-- A reference that resolves can be looked up. -/
theorem exists_of_resolves (h : s.types.Resolves ref P) :
    ∃ s', LooksUp [ref] s s' ∧ ∀ t, s'.types.Extends t → P t := by
  obtain ⟨types, id, hintern, hp⟩ := h s.types .refl
  refine ⟨{ s with types }, ⟨id, _, ?_, rfl⟩, hp⟩
  rw [typeId, bind_ok (ask_ok hintern)]
  rfl

theorem one (h : s.types.Resolves ref P) : ∃ s', LooksUp [ref] s s' ∧ P s'.types := by
  obtain ⟨s', hs', hp⟩ := exists_of_resolves h
  exact ⟨s', hs', hp _ .refl⟩

theorem two (h₁ : s.types.Resolves ref₁ P₁) (h₂ : s.types.Resolves ref₂ P₂) :
    ∃ s', LooksUp [ref₁, ref₂] s s' ∧ P₁ s'.types ∧ P₂ s'.types := by
  obtain ⟨s₁, hs₁, hp₁⟩ := exists_of_resolves h₁
  obtain ⟨s', hs', hp₂⟩ := one (h₂.later hs₁.steps.interns)
  exact ⟨s', hs₁.append hs', hp₁ _ hs'.grown.types, hp₂⟩

/-- The same for three of them. -/
theorem three (h₁ : s.types.Resolves ref₁ P₁) (h₂ : s.types.Resolves ref₂ P₂)
    (h₃ : s.types.Resolves ref₃ P₃) :
    ∃ s', LooksUp [ref₁, ref₂, ref₃] s s' ∧ P₁ s'.types ∧ P₂ s'.types ∧ P₃ s'.types := by
  obtain ⟨s₁, hs₁, hp₁⟩ := exists_of_resolves h₁
  obtain ⟨s', hs', hp₂, hp₃⟩ := two (h₂.later hs₁.steps.interns) (h₃.later hs₁.steps.interns)
  exact ⟨s', hs₁.append hs', hp₁ _ hs'.grown.types, hp₂, hp₃⟩

end LooksUp

end Lower

/-! ## What expressions are lowered to -/

namespace Source.Expr

open Lower (Grown Steps LooksUp typeId_ok bind_ok needed_some ask_ok pointerWidth_of lowerWithin_eq
  inliner)

/-- An expression is lowered for its value to another one, from one state to the next. -/
def LowersTo (depth : Nat) (e : Expr) (s : LowerState) (x : Ir.Expr) (s' : LowerState) : Prop :=
  e.lowerWithin depth .value s = .ok (some x, s')

namespace LowersTo

variable {depth : Nat} {s s₀ s' s₁ s₂ : LowerState} {n : Note} {e l r i : Expr} {x y z : Ir.Expr}
  {type left right : TypeId} {ptr w : Width} {size : Nat}

theorem steps (h : e.LowersTo depth s x s') : Steps .all s s' := by
  have hstepwise : Lower.Stepwise .any .always (e.lowerWithin depth .value) [e] := inferInstance
  exact (hstepwise.walked (Source.Part.closed_all _) trivial h).moves.steps

/-- The lowering of an expression only adds to the state. -/
theorem grown (h : e.LowersTo depth s x s') : Grown s s' :=
  h.steps.grown

theorem run (h : e.LowersTo depth s x s') :
    e.lowerUsing (inliner depth) .value s = .ok (some x, s') := by
  rw [← lowerWithin_eq]
  exact h

theorem of_run (h : e.lowerUsing (inliner depth) .value s = .ok (some x, s')) :
    e.LowersTo depth s x s' := by
  rw [LowersTo, lowerWithin_eq]
  exact h

/-- A literal. -/
theorem int {k : Int64} (h : LooksUp [n.type] s s') (hn : s'.types.HasWidth n.type w) :
    LowersTo depth (.int n k) s (.int w k) s' := by
  obtain ⟨type, hn, hw⟩ := hn
  refine of_run ?_
  rw [lowerUsing, bind_ok (h.last hn), bind_ok (Lower.width_of hw)]
  rfl

/-- A variable or a function. -/
theorem var {v : EntityId} {entity : Entity} (h : LooksUp [n.type] s s')
    (he : s'.entities.get v = .ok entity) (hc : entity.constantValue? = none)
    (ht : entity.type = .settled left) (hx : Lower.designated left v s' = .ok (x, s')) :
    LowersTo depth (.var n v) s x s' := by
  obtain ⟨type, s₁, hid, rfl⟩ := h
  have hentity : Lower.entity v s' = .ok (entity, s') := by
    rw [Lower.entity, bind_ok (x := s') rfl]
    exact Lower.lift_ok he
  have htype : entity.typeId = .ok left := by
    rw [Entity.typeId, ht]
    rfl
  refine of_run ?_
  rw [lowerUsing, bind_ok hid, bind_ok hentity, hc]
  dsimp only
  rw [bind_ok (Lower.lift_ok htype), bind_ok hx]
  rfl

/-- The right operand is lowered before the left one. -/
theorem binary {op : BinaryOp} (h : LooksUp [n.type, l.type, r.type] s s₀)
    (hn : s₀.types.lookup? n.type = some type) (hl : s₀.types.lookup? l.type = some left)
    (hr : s₀.types.lookup? r.type = some right) (hy : r.LowersTo depth s₀ y s₁)
    (hx : l.LowersTo depth s₁ x s₂)
    (hz : Lower.binary type op left right x y s₂ = .ok (z, s₂)) :
    LowersTo depth (.binary n op l r) s z s₂ := by
  obtain ⟨sn, hn, h⟩ := h.head hn
  obtain ⟨sl, hl, h⟩ := h.head hl
  refine of_run ?_
  rw [lowerUsing, bind_ok hn, bind_ok hl, bind_ok (h.last hr), bind_ok hy.run, bind_ok needed_some,
    bind_ok hx.run, bind_ok needed_some, bind_ok hz]
  rfl

/-- The index is lowered before what it is an index of. -/
theorem index (h : LooksUp [n.type, e.type] s s₀) (hn : s₀.types.lookup? n.type = some type)
    (hl : s₀.types.lookup? e.type = some left) (hsize : s₀.types.elementSize left = .ok size)
    (hptr : s₀.types.pointerWidth = .ok ptr) (hy : i.LowersTo depth s₀ y s₁)
    (hx : e.LowersTo depth s₁ x s₂)
    (hz : Lower.load type (.displaced .inc ptr x y size) s₂ = .ok (z, s₂)) :
    LowersTo depth (.index n e i) s z s₂ := by
  have helement : Lower.ask (·.elementSize left) s₀ = .ok (size, s₀) := ask_ok hsize
  have hptr₂ : s₂.types.pointerWidth = .ok ptr :=
    (hy.grown.trans hx.grown).types.lasts TypeTable.pointerWidth hptr
  obtain ⟨sn, hn, h⟩ := h.head hn
  refine of_run ?_
  rw [lowerUsing, bind_ok hn, bind_ok (h.last hl), bind_ok helement, bind_ok hy.run,
    bind_ok needed_some, bind_ok hx.run, bind_ok needed_some, bind_ok (Lower.scale_ok hptr₂),
    bind_ok (pointerWidth_of hptr₂)]
  exact bind_ok hz

/-- The address of an expression is lowered along with it. -/
theorem addr (h : LooksUp [n.type, e.type] s s₀) (hl : s₀.types.lookup? e.type = some left)
    (hx : e.LowersTo depth s₀ x s') (hy : s'.types.AddressOf left x y) :
    LowersTo depth (.addr n e) s y s' := by
  obtain ⟨type, sn, hn, h⟩ := h
  refine of_run ?_
  rw [lowerUsing, bind_ok hn, bind_ok (h.last hl), bind_ok hx.run, bind_ok needed_some,
    bind_ok (Lower.objectAddress_of hy)]
  rfl

/-- A dereference loads from the address that it is given. -/
theorem deref (h : LooksUp [n.type] s s₀) (hn : s₀.types.lookup? n.type = some type)
    (hx : e.LowersTo depth s₀ x s') (hy : Lower.load type x s' = .ok (y, s')) :
    LowersTo depth (.deref n e) s y s' := by
  refine of_run ?_
  rw [lowerUsing, bind_ok (h.last hn), bind_ok hx.run, bind_ok needed_some, bind_ok hy]
  rfl

/-- A member is found in the struct that is lowered. -/
theorem member {name : String} (h : LooksUp [n.type, e.type] s s₀)
    (hn : s₀.types.lookup? n.type = some type) (hl : s₀.types.lookup? e.type = some left)
    (hx : e.LowersTo depth s₀ x s') (hy : Lower.member type left x name s' = .ok (y, s')) :
    LowersTo depth (.member n e name) s y s' := by
  obtain ⟨sn, hn, h⟩ := h.head hn
  refine of_run ?_
  rw [lowerUsing, bind_ok hn, bind_ok (h.last hl), bind_ok hx.run, bind_ok needed_some, bind_ok hy]
  rfl

/-- So is a member behind a pointer, in the struct that is pointed to. -/
theorem ptrMember {name : String} {composite : TypeId} (h : LooksUp [n.type, e.type] s s₀)
    (hn : s₀.types.lookup? n.type = some type) (hl : s₀.types.lookup? e.type = some left)
    (hb : s₀.types.baseType left = .ok composite) (hx : e.LowersTo depth s₀ x s')
    (hy : Lower.member type composite x name s' = .ok (y, s')) :
    LowersTo depth (.ptrMember n e name) s y s' := by
  have hbase : Lower.ask (·.baseType left) s₀ = .ok (composite, s₀) := ask_ok hb
  obtain ⟨sn, hn, h⟩ := h.head hn
  refine of_run ?_
  rw [lowerUsing, bind_ok hn, bind_ok (h.last hl), bind_ok hbase, bind_ok hx.run,
    bind_ok needed_some, bind_ok hy]
  rfl

/-- The right operand is lowered before the target. -/
theorem opAssign {op : BinaryOp} {signed : Bool} (h : LooksUp [n.type, l.type] s s₀)
    (hl : s₀.types.lookup? l.type = some left) (hsigned : s₀.types.isSigned left = .ok signed)
    (hy : r.LowersTo depth s₀ y s₁) (hx : l.LowersTo depth s₁ x s₂)
    (hz : Lower.opAssign .value n.location (.ofBinary op signed) left x y s₂ = .ok (some z, s')) :
    LowersTo depth (.opAssign n op l r) s z s' := by
  have hask : Lower.ask (·.isSigned left) s₂ = .ok (signed, s₂) :=
    (hy.grown.trans hx.grown).ask_ok (·.isSigned left) hsigned
  obtain ⟨type, sn, hn, h⟩ := h
  refine of_run ?_
  rw [lowerUsing, bind_ok hn, bind_ok (h.last hl), bind_ok hy.run, bind_ok needed_some,
    bind_ok hx.run, bind_ok needed_some, bind_ok hask]
  exact hz

/-- A step in front is an assignment that adds the literal one. -/
theorem preStep {step : StepOp} (h : LooksUp [n.type, e.type] s s₀)
    (hl : s₀.types.lookup? e.type = some left) (hw : s₀.types.registerWidth left = .ok w)
    (hx : e.LowersTo depth s₀ x s₁)
    (hz : Lower.opAssign .value n.location (.ofStep step) left x (.int w 1) s₁ =
      .ok (some z, s')) :
    LowersTo depth (.preStep n step e) s z s' := by
  obtain ⟨type, sn, hn, h⟩ := h
  refine of_run ?_
  rw [lowerUsing, bind_ok hn, bind_ok (h.last hl), bind_ok (Lower.width_of hw), bind_ok hx.run,
    bind_ok needed_some]
  exact hz

/-- A step behind keeps the old value. -/
theorem postStep {step : StepOp} (h : LooksUp [n.type, e.type] s s₀)
    (hl : s₀.types.lookup? e.type = some left) (hw : s₀.types.registerWidth left = .ok w)
    (hx : e.LowersTo depth s₀ x s₁)
    (hz : Lower.postStep .value n.location (.ofStep step) left w x s₁ = .ok (some z, s')) :
    LowersTo depth (.postStep n step e) s z s' := by
  obtain ⟨type, sn, hn, h⟩ := h
  refine of_run ?_
  rw [lowerUsing, bind_ok hn, bind_ok (h.last hl), bind_ok (Lower.width_of hw), bind_ok hx.run,
    bind_ok needed_some]
  exact hz

end LowersTo

end Source.Expr

/-! ## A table with pointers -/

namespace Source

/-- A table with a type for pointers to `int`. -/
def pointerTypes : TypeTable where
  profile := .ilp32
  entries := TypeTable.basicEntries .ilp32 ++ [⟨.pointer (.integer .int true), .pointer ⟨5⟩⟩]

theorem pointerTypes_pointer : pointerTypes.lookup? (.pointer (.integer .int true)) = some ⟨9⟩ := by
  decide

theorem pointerTypes_char : pointerTypes.lookup? (.integer .char true) = some ⟨1⟩ := by
  decide

theorem pointerTypes_int : pointerTypes.lookup? (.integer .int true) = some ⟨5⟩ := by
  decide

/-- A pointer `int *p` and the indices `char i` and `int k`, on the stack. -/
def pointerEntities : EntityTable where
  entries := [
    { name := "p", ref := .pointer (.integer .int true), kind := .definedVariable none,
      type := .settled ⟨9⟩, storage := .settled (.memory (.based .ebp (-4))) },
    { name := "i", ref := .integer .char true, kind := .definedVariable none,
      type := .settled ⟨1⟩, storage := .settled (.memory (.based .ebp (-8))) },
    { name := "k", ref := .integer .int true, kind := .definedVariable none,
      type := .settled ⟨5⟩, storage := .settled (.memory (.based .ebp (-12))) }]

/-- Expressions over these variables are lowered from here. -/
def pointerState : LowerState := { types := pointerTypes, entities := pointerEntities }

/-- An annotation with the type of pointers to `int`. -/
def Note.pointer : Note where
  type := .pointer (.integer .int true)

/-- The expression `p`. -/
def pointerVar : Expr := .var .pointer ⟨0⟩

/-- The expression `i`. -/
def charVar : Expr := .var { type := .integer .char true } ⟨1⟩

/-- The expression `k`. -/
def countVar : Expr := .var .int ⟨2⟩

end Source

end Backend386
