import Backend386.Lowering.Stmt
import Backend386.Proofs.Ir.Store

/-!
# What the steps of the lowering do

A computation of the lowering appends statements to the function that is being made, and hands out
labels and temporaries on the way; nothing that is there already changes.

* `Ir.PlacedWithin` — the labels that statements place come from a range of the supply;
* `Lower.Makes` — a computation succeeds, and appends some statements;
* `Lower.Ready` — the state of the lowering extends a context;
* `Lower.typeId_ok`, `Lower.width_ok`, … — what is asked of integer types;
* `Lower.lowerUsing_int` — what an integer literal is lowered to.
-/

namespace Backend386

/-- The labels that statements place have numbers in a range. -/
def Ir.PlacedWithin (lo hi : Nat) (code : List Ir.Stmt) : Prop :=
  ∀ s ∈ code, ∀ l, s.placed? = some l → lo ≤ l.index ∧ l.index < hi

namespace Ir.PlacedWithin

variable {lo lo' hi hi' : Nat} {a b : List Ir.Stmt}

theorem nil : PlacedWithin lo hi [] := by
  intro s hs
  simp at hs

/-- Labels that are placed by one of two pieces of code are placed by both together. -/
theorem append (ha : PlacedWithin lo hi a) (hb : PlacedWithin lo hi b) :
    PlacedWithin lo hi (a ++ b) := by
  intro s hs
  rcases List.mem_append.1 hs with hs | hs
  · exact ha s hs
  · exact hb s hs

theorem mono (h : PlacedWithin lo hi a) (hlo : lo' ≤ lo) (hhi : hi ≤ hi') :
    PlacedWithin lo' hi' a := by
  intro s hs l hl
  obtain ⟨h₁, h₂⟩ := h s hs l hl
  exact ⟨hlo.trans h₁, h₂.trans_le hhi⟩

/-- A label out of the range is not placed. -/
theorem lacks (h : PlacedWithin lo hi a) {l : Label} (hl : l.index < lo ∨ hi ≤ l.index) :
    Lacks l a := by
  intro s hs hp
  obtain ⟨h₁, h₂⟩ := h s hs l hp
  omega

end Ir.PlacedWithin

namespace Lower

variable {α β : Type} {s s' s₁ s₂ : LowerState} {lo lo' : Nat} {a b code : List Ir.Stmt}

/-! ## Appending statements -/

/-- The state `s'` extends `s` by some statements, which place labels from `lo` on. -/
structure Emits (lo : Nat) (s s' : LowerState) (code : List Ir.Stmt) : Prop where
  types : s'.types = s.types
  entities : s.entities.entries <+: s'.entities.entries
  labels : s.labels.next ≤ s'.labels.next
  diagnostics : s.diagnostics <+: s'.diagnostics
  named : s'.named = s.named
  body : s'.function.body.toList = s.function.body.toList ++ code
  placed : Ir.PlacedWithin lo s'.labels.next code

namespace Emits

/-- No statement is written where nothing happens. -/
theorem refl (lo : Nat) (s : LowerState) : Emits lo s s [] where
  types := rfl
  entities := List.prefix_rfl
  labels := le_rfl
  diagnostics := List.prefix_rfl
  named := rfl
  body := (List.append_nil _).symm
  placed := .nil

/-- Code that is written later stands behind the other. -/
theorem trans (h₁ : Emits lo s s₁ a) (h₂ : Emits lo s₁ s₂ b) : Emits lo s s₂ (a ++ b) where
  types := h₂.types.trans h₁.types
  entities := h₁.entities.trans h₂.entities
  labels := h₁.labels.trans h₂.labels
  diagnostics := h₁.diagnostics.trans h₂.diagnostics
  named := h₂.named.trans h₁.named
  body := by rw [h₂.body, h₁.body, List.append_assoc]
  placed := (h₁.placed.mono le_rfl h₂.labels).append h₂.placed

theorem mono (h : Emits lo s s' a) (hlo : lo' ≤ lo) : Emits lo' s s' a :=
  { h with placed := h.placed.mono hlo le_rfl }

/-- New code places no label that was handed out before. -/
theorem lacks (h : Emits lo s s' a) {l : Ir.Label} (hl : Ir.Lacks l s.function.body.toList)
    (hlt : l.index < lo) : Ir.Lacks l s'.function.body.toList := by
  rw [h.body, Ir.lacks_append]
  exact ⟨hl, h.placed.lacks (.inl hlt)⟩

/-- The table of entities only grows. -/
theorem size_le (h : Emits lo s s' a) : s.entities.size ≤ s'.entities.size :=
  h.entities.length_le

end Emits

/-- A computation succeeds with a result, and appends some statements. -/
structure Makes (lo : Nat) (m : Lower α) (s : LowerState) (x : α) (s' : LowerState)
    (code : List Ir.Stmt) : Prop extends Emits lo s s' code where
  run : m s = .ok (x, s')

theorem bind_ok {m : Lower α} {f : α → Lower β} {x : α} (h : m s = .ok (x, s₁)) :
    (m >>= f) s = f x s₁ := by
  change (m s >>= fun p => f p.1 p.2) = _
  rw [h]
  rfl

theorem lift_ok {m : Except Fault α} {x : α} (h : m = .ok x) :
    (liftM m : Lower α) s = .ok (x, s) := by
  rw [h]
  rfl

/-- A computation of two steps succeeds iff both steps do. -/
theorem bind_eq_ok_iff {m : Lower α} {f : α → Lower β} {y : β} :
    (m >>= f) s = .ok (y, s₂) ↔ ∃ x s₁, m s = .ok (x, s₁) ∧ f x s₁ = .ok (y, s₂) := by
  constructor
  · intro h
    obtain ⟨⟨x, s₁⟩, hx, hy⟩ := Backend386.bind_eq_ok_iff.1 h
    exact ⟨x, s₁, hx, hy⟩
  · rintro ⟨x, s₁, hx, hy⟩
    rw [bind_ok hx, hy]

/-- What is lifted changes nothing. -/
theorem lift_eq_ok {x : Except Fault α} {a : α} (h : (liftM x : Lower α) s = .ok (a, s')) :
    x = .ok a ∧ s' = s := by
  cases x with
  | error => cases h
  | ok b =>
    obtain ⟨rfl, rfl⟩ := Prod.mk.inj (Except.ok.inj h)
    exact ⟨rfl, rfl⟩

theorem lift_bind_eq_ok {x : Except Fault α} {f : α → Lower β} {y : β}
    (h : (liftM x >>= f : Lower β) s = .ok (y, s')) : ∃ a, x = .ok a ∧ f a s = .ok (y, s') := by
  obtain ⟨a, s₁, ha, hf⟩ := bind_eq_ok_iff.1 h
  obtain ⟨hx, rfl⟩ := lift_eq_ok ha
  exact ⟨a, hx, hf⟩

theorem get_bind_eq_ok {f : LowerState → Lower β} {y : β}
    (h : (MonadState.get >>= f : Lower β) s = .ok (y, s')) : f s s = .ok (y, s') :=
  h

namespace Makes

theorem pure (lo : Nat) (s : LowerState) (x : α) : Makes lo (Pure.pure x) s x s [] where
  toEmits := .refl lo s
  run := rfl

/-- A step that changes nothing. -/
theorem ask {m : Lower α} {f : α → Lower β} {x : α} {y : β} (h : m s = .ok (x, s))
    (hf : Makes lo (f x) s y s' code) : Makes lo (m >>= f) s y s' code where
  toEmits := hf.toEmits
  run := by rw [bind_ok h, hf.run]

theorem bind {m : Lower α} {f : α → Lower β} {x : α} {y : β} (h : Makes lo m s x s₁ a)
    (hf : Makes lo (f x) s₁ y s₂ b) : Makes lo (m >>= f) s y s₂ (a ++ b) where
  toEmits := h.toEmits.trans hf.toEmits
  run := by rw [bind_ok h.run, hf.run]

/-- A first step that takes something from the supplies and appends nothing. -/
theorem take {m : Lower α} {f : α → Lower β} {x : α} {y : β} (h : Makes lo m s x s₁ [])
    (hf : Makes lo (f x) s₁ y s' code) : Makes lo (m >>= f) s y s' code :=
  h.bind hf

/-- A last step that appends nothing. -/
theorem followed {m : Lower α} {f : α → Lower β} {x : α} {y : β} (h : Makes lo m s x s' code)
    (hf : Makes lo (f x) s' y s' []) : Makes lo (m >>= f) s y s' code := by
  simpa using h.bind hf

theorem mono {m : Lower α} {x : α} (h : Makes lo m s x s' code) (hlo : lo' ≤ lo) :
    Makes lo' m s x s' code where
  toEmits := h.toEmits.mono hlo
  run := h.run

end Makes

/-! ## The steps -/

end Lower

namespace LowerState

/-- The state with one more statement. -/
def push (s : LowerState) (stmt : Ir.Stmt) : LowerState :=
  { s with function := s.function.emit stmt.action stmt.location }

/-- The state after a label was handed out. -/
def takeLabel (s : LowerState) : LowerState :=
  { s with labels := ⟨s.labels.next + 1⟩ }

/-- The state with one more temporary of a type. -/
def takeTemporary (s : LowerState) (type : TypeId) (ref : TypeRef) : LowerState :=
  let id : EntityId := ⟨s.entities.size⟩
  { s with
    function := { s.function with scope := { s.function.scope with
      vars := s.function.scope.vars ++ [id] } }
    entities := (s.entities.add {
      name := "@tmp" ++ s.entities.size.repr
      ref
      kind := .definedVariable none
      type := .settled type }).1 }

variable {s : LowerState} {stmt : Ir.Stmt} {type : TypeId} {ref : TypeRef}

@[simp] theorem push_types : (s.push stmt).types = s.types := rfl

@[simp] theorem push_entities : (s.push stmt).entities = s.entities := rfl

@[simp] theorem push_labels : (s.push stmt).labels = s.labels := rfl

@[simp] theorem push_body :
    (s.push stmt).function.body.toList = s.function.body.toList ++ [stmt] :=
  Ir.Function.body_emit ..

@[simp] theorem push_diagnostics : (s.push stmt).diagnostics = s.diagnostics := rfl

@[simp] theorem takeLabel_types : s.takeLabel.types = s.types := rfl

@[simp] theorem takeLabel_entities : s.takeLabel.entities = s.entities := rfl

@[simp] theorem takeLabel_labels : s.takeLabel.labels = ⟨s.labels.next + 1⟩ := rfl

@[simp] theorem takeLabel_function : s.takeLabel.function = s.function := rfl

@[simp] theorem takeTemporary_types : (s.takeTemporary type ref).types = s.types := rfl

@[simp] theorem takeTemporary_labels : (s.takeTemporary type ref).labels = s.labels := rfl

@[simp] theorem takeTemporary_body :
    (s.takeTemporary type ref).function.body = s.function.body := rfl

@[simp] theorem size_takeTemporary :
    (s.takeTemporary type ref).entities.size = s.entities.size + 1 := by
  simp [takeTemporary, EntityTable.size, EntityTable.add]

end LowerState

namespace Lower

variable {s : LowerState} {lo : Nat}

/-- A statement is appended to the code. -/
theorem makes_emit {loc : Option Location} {action : Ir.Action}
    (h : ∀ l, action = .label l → lo ≤ l.index ∧ l.index < s.labels.next) :
    Makes lo (emit loc action) s () (s.push ⟨action, loc⟩) [⟨action, loc⟩] where
  types := rfl
  entities := List.prefix_rfl
  labels := le_rfl
  diagnostics := List.prefix_rfl
  named := rfl
  body := Ir.Function.body_emit ..
  placed := by
    intro stmt hs l hl
    obtain rfl := List.mem_singleton.1 hs
    cases action with
    | label l' =>
      obtain rfl := Option.some.inj hl
      exact h l' rfl
    | _ => simp [Ir.Stmt.placed?] at hl
  run := rfl

theorem makes_store {loc : Option Location} {target value : Ir.Expr} :
    Makes lo (store loc target value) s () (s.push ⟨.assign target value, loc⟩)
      [⟨.assign target value, loc⟩] :=
  makes_emit fun l h => by simp at h

theorem makes_jump {loc : Option Location} {l : Ir.Label} :
    Makes lo (jump loc l) s () (s.push ⟨.jump l, loc⟩) [⟨.jump l, loc⟩] :=
  makes_emit fun l h => by simp at h

theorem makes_branch {loc : Option Location} {test : Ir.Expr} {yes no : Ir.Label} :
    Makes lo (branch loc test yes no) s () (s.push ⟨.branch test yes no, loc⟩)
      [⟨.branch test yes no, loc⟩] :=
  makes_emit fun l h => by simp at h

theorem makes_place {l : Ir.Label} (h : lo ≤ l.index ∧ l.index < s.labels.next) :
    Makes lo (place l) s () (s.push ⟨.label l, none⟩) [⟨.label l, none⟩] :=
  makes_emit fun l' hl => by
    obtain rfl := Ir.Action.label.inj hl
    exact h

/-- A label is taken without writing code. -/
theorem makes_newLabel : Makes lo newLabel s ⟨s.labels.next⟩ s.takeLabel [] where
  types := rfl
  entities := List.prefix_rfl
  labels := Nat.le_succ _
  diagnostics := List.prefix_rfl
  named := rfl
  body := (List.append_nil _).symm
  placed := .nil
  run := rfl

/-- So is a temporary. -/
theorem makes_temporary {type : TypeId} {ref : TypeRef} (h : s.types.refOf type = .ok ref) :
    Makes lo (temporary type) s ⟨s.entities.size⟩ (s.takeTemporary type ref) [] where
  types := rfl
  entities := List.prefix_append ..
  labels := le_rfl
  diagnostics := List.prefix_rfl
  named := rfl
  body := (List.append_nil _).symm
  placed := .nil
  -- the temporary is the next entity, and belongs to the outermost scope
  run := by
    have hadd : s.entities.addTemporary s.types type = .ok
        (s.entities.add {
          name := "@tmp" ++ s.entities.size.repr
          ref
          kind := .definedVariable none
          type := .settled type }) := by
      rw [EntityTable.addTemporary, h]
      rfl
    have hfun : s.function.addTemporary s.entities s.types type =
        .ok ((s.takeTemporary type ref).function, (s.takeTemporary type ref).entities,
          ⟨s.entities.size⟩) := by
      rw [Ir.Function.addTemporary, Scope.addTemporary, hadd]
      rfl
    rw [temporary, bind_ok (x := s) rfl, bind_ok (lift_ok hfun)]
    rfl

theorem needed_some {place : Option Location} {e : Ir.Expr} :
    needed place (some e) s = .ok (e, s) := rfl

end Lower

/-! ## Integer types -/

namespace TypeTable

variable {t : TypeTable} {id : TypeId} {type : IntType}

/-- What the table knows of an integer type. -/
theorem intType?_eq_some_iff :
    t.intType? id = some type ↔
      (∃ size name, t.realInfo id = .ok (.integer size type.signed name)) ∧
        t.sizeOf id = .ok type.width.bytes := by
  constructor
  · intro h
    rw [intType?] at h
    split at h
    · next size signed name size' hinfo hsize =>
      obtain ⟨w, hw, rfl⟩ := Option.map_eq_some_iff.1 h
      rw [Width.ofBytes?_eq_some_iff] at hw
      exact ⟨⟨size, name, hinfo⟩, hw ▸ hsize⟩
    · simp at h
  · rintro ⟨⟨size, name, hinfo⟩, hsize⟩
    rw [intType?, hinfo, hsize]
    simp

section

variable (h : t.intType? id = some type)

include h

theorem isSigned_of_int : t.isSigned id = .ok type.signed := by
  obtain ⟨⟨_, _, hinfo⟩, -⟩ := intType?_eq_some_iff.1 h
  rw [isSigned, hinfo]
  rfl

theorem isVoid_of_int : t.isVoid id = .ok false := by
  obtain ⟨⟨_, _, hinfo⟩, -⟩ := intType?_eq_some_iff.1 h
  rw [isVoid, hinfo]
  rfl

theorem isComposite_of_int : t.isComposite id = .ok false := by
  obtain ⟨⟨_, _, hinfo⟩, -⟩ := intType?_eq_some_iff.1 h
  rw [isComposite, hinfo]
  rfl

theorem isFunction_of_int : t.isFunction id = .ok false := by
  obtain ⟨⟨_, _, hinfo⟩, -⟩ := intType?_eq_some_iff.1 h
  rw [isFunction, hinfo]
  rfl

theorem isScalar_of_int : t.isScalar id = .ok true := by
  obtain ⟨⟨_, _, hinfo⟩, -⟩ := intType?_eq_some_iff.1 h
  rw [isScalar, isInteger, isPointer, hinfo]
  rfl

theorem isAggregate_of_int : t.isAggregate id = .ok false := by
  obtain ⟨⟨_, _, hinfo⟩, -⟩ := intType?_eq_some_iff.1 h
  rw [isAggregate, isComposite, isArray, hinfo]
  rfl

theorem isPointerLike_of_int : t.isPointerLike id = .ok false := by
  obtain ⟨⟨_, _, hinfo⟩, -⟩ := intType?_eq_some_iff.1 h
  rw [isPointerLike, isPointer, isArray, hinfo]
  rfl

theorem sizeOf_of_int : t.sizeOf id = .ok type.width.bytes :=
  (intType?_eq_some_iff.1 h).2

/-- An integer type is registered, so it has a reference. -/
theorem refOf_of_int : ∃ ref, t.refOf id = .ok ref := by
  obtain ⟨⟨_, _, hinfo⟩, -⟩ := intType?_eq_some_iff.1 h
  obtain ⟨real, hreal, -⟩ := bind_eq_ok_iff.1 hinfo
  obtain ⟨found, hfound, -⟩ := bind_eq_ok_iff.1 hreal
  rw [realType?, followTypedefs] at hfound
  obtain ⟨info, hid, -⟩ := bind_eq_ok_iff.1 hfound
  obtain ⟨e, he, -⟩ := bind_eq_ok_iff.1 hid
  exact ⟨e.ref, by rw [refOf, he]; rfl⟩

end

end TypeTable

namespace Lower

open TypeTable

variable {α : Type} {s : LowerState} {id : TypeId} {type : IntType}

theorem ask_ok {question : TypeTable → Except Fault α} {x : α} (h : question s.types = .ok x) :
    ask question s = .ok (x, s) := by
  rw [ask, bind_ok (x := s) rfl]
  exact lift_ok h

/-- A reference that is registered already changes nothing. -/
theorem typeId_ok {ref : TypeRef} (h : s.types.lookup? ref = some id) :
    typeId ref s = .ok (id, s) := by
  have hintern : s.types.intern ref = .ok (s.types, id) := by
    rw [intern.eq_def]
    simp [h]
  rw [typeId, bind_ok (ask_ok hintern)]
  rfl

/-- Pointers have a width in every profile. -/
theorem pointerWidth_ok (h : s.types.profile ∈ WidthProfile.all) :
    ∃ w, pointerWidth s = .ok (w, s) := by
  have hw : ∃ w, Width.ofBytes s.types.profile.pointerSize = .ok w := by
    simp only [WidthProfile.all, List.mem_cons, List.not_mem_nil, or_false] at h
    rcases h with h | h | h | h <;> rw [h]
    · exact ⟨.w32, rfl⟩
    · exact ⟨.w64, rfl⟩
    · exact ⟨.w64, rfl⟩
    · exact ⟨.w64, rfl⟩
  obtain ⟨w, hw⟩ := hw
  refine ⟨w, ?_⟩
  rw [pointerWidth, bind_ok (x := s) rfl]
  exact lift_ok hw

theorem isByAddress_ok (h : s.types.intType? id = some type) :
    isByAddress id s = .ok (false, s) := by
  rw [isByAddress, bind_ok (ask_ok (isAggregate_of_int h)), bind_ok (ask_ok (isFunction_of_int h))]
  rfl

theorem width_ok (h : s.types.intType? id = some type) : width id s = .ok (type.width, s) := by
  have hw : Width.ofBytes type.width.bytes = .ok type.width := Width.ofBytes_eq_ok_iff.2 rfl
  rw [width, bind_ok (isByAddress_ok h), bind_ok (ask_ok (isVoid_of_int h))]
  rw [if_neg (by simp), bind_ok (ask_ok (sizeOf_of_int h))]
  exact lift_ok hw

/-- What an integer literal is lowered to. -/
theorem lowerUsing_int {inline : Entity → Source.Expr → Lower Ir.Expr} {d : Demand}
    {n : Source.Note} {v : Int64} (hid : s.types.lookup? n.type = some id)
    (h : s.types.intType? id = some type) :
    Source.Expr.lowerUsing inline d (.int n v) s = .ok (some (.int type.width v), s) := by
  rw [Source.Expr.lowerUsing, bind_ok (typeId_ok hid), bind_ok (width_ok h)]
  rfl

end Lower

end Backend386
