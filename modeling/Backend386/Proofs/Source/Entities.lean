import Mathlib.Data.List.Forall2
import Backend386.Source.Unit

/-!
# Entity tables that are passed on

The passes of the back end hand an entity table on from one to the next. Each changes certain fields
of its entities, and may append temporaries.

* `EntityTable.get_eq_ok_iff`, `EntityTable.get_set_self` — reading a table;
* `EntityTable.withPrivacy` — static variables and others;
* `EntityTable.Passes` — the entities of a table are found again in another one, changed in a
  certain way;
* `EntityTable.settleTypes_eq_ok`, `Source.Program.markUses_eq_ok` — two of the passes.
-/

namespace Backend386

namespace EntityTable

variable {t t' t₁ t₂ : EntityTable} {id id' : EntityId} {e e' : Entity}

/-! ## Reading -/

theorem get_eq_ok_iff : t.get id = .ok e ↔ t.entries[id.index]? = some e := by
  rw [get]
  cases t.entries[id.index]? <;> simp

theorem lt_of_get (h : t.get id = .ok e) : id.index < t.size :=
  (List.getElem?_eq_some_iff.1 (get_eq_ok_iff.1 h)).1

theorem exists_get (h : id.index < t.size) : ∃ e, t.get id = .ok e :=
  ⟨_, get_eq_ok_iff.2 (List.getElem?_eq_getElem h)⟩

theorem mem_of_get (h : t.get id = .ok e) : e ∈ t.entries :=
  List.mem_of_getElem? (get_eq_ok_iff.1 h)

@[simp] theorem size_set : (t.set id e).size = t.size := by
  simp [set, size]

theorem get_set_self (h : id.index < t.size) : (t.set id e).get id = .ok e :=
  get_eq_ok_iff.2 (by rw [set, List.getElem?_set_self h])

/-- Other entities stay when one is replaced. -/
theorem get_set_of_ne (h : id' ≠ id) : (t.set id e).get id' = t.get id' := by
  have hindex : id.index ≠ id'.index := by
    intro heq
    cases id
    cases id'
    exact h (congrArg _ heq.symm)
  rw [get, get, set, List.getElem?_set_ne hindex]

/-! ## Privacy -/

/-- The entities of a list that have a given privacy. -/
def withPrivacy (t : EntityTable) (isPrivate : Bool) (ids : List EntityId) : List EntityId :=
  ids.filter fun id => (t.get id).toOption.any (·.isPrivate == isPrivate)

theorem mem_withPrivacy {isPrivate : Bool} {ids : List EntityId} :
    id ∈ t.withPrivacy isPrivate ids ↔
      id ∈ ids ∧ ∃ e, t.get id = .ok e ∧ e.isPrivate = isPrivate := by
  rw [withPrivacy, List.mem_filter]
  cases t.get id <;> simp [Except.toOption]

/-- What is private depends on the entities that are listed. -/
theorem withPrivacy_congr {isPrivate : Bool} {ids : List EntityId}
    (h : ∀ id ∈ ids, ∃ e e', t.get id = .ok e ∧ t'.get id = .ok e' ∧ e'.isPrivate = e.isPrivate) :
    t'.withPrivacy isPrivate ids = t.withPrivacy isPrivate ids := by
  refine List.filter_congr fun id hid => ?_
  obtain ⟨e, e', he, he', hsame⟩ := h id hid
  rw [he, he']
  simp [Except.toOption, hsame]

/-- The variables of a list are those with static storage and the others. -/
theorem withPrivacy_perm {ids : List EntityId} (h : ∀ id ∈ ids, id.index < t.size) :
    (t.withPrivacy true ids ++ t.withPrivacy false ids).Perm ids := by
  have hfalse : t.withPrivacy false ids =
      ids.filter fun id => !(t.get id).toOption.any (·.isPrivate == true) := by
    refine List.filter_congr fun id hid => ?_
    obtain ⟨e, he⟩ := exists_get (h id hid)
    simp [he, Except.toOption]
  rw [hfalse]
  exact List.filter_append_perm _ ids

/-- The private variables are selected from a list of known ones. -/
theorem selectPrivate_eq_ok {isPrivate : Bool} {ids found : List EntityId}
    (h : Scope.selectPrivate t isPrivate ids = .ok found) :
    found = t.withPrivacy isPrivate ids ∧ ∀ id ∈ ids, id.index < t.size := by
  induction ids generalizing found with
  | nil => exact ⟨(Except.ok.inj h).symm, by simp⟩
  | cons id ids ih =>
    obtain ⟨e, he, h⟩ := bind_eq_ok_iff.1 h
    obtain ⟨rest, hrest, h⟩ := bind_eq_ok_iff.1 h
    obtain rfl := Except.ok.inj h
    obtain ⟨rfl, hrange⟩ := ih hrest
    refine ⟨?_, List.forall_mem_cons.2 ⟨lt_of_get he, hrange⟩⟩
    rw [withPrivacy, withPrivacy, List.filter_cons, he]
    simp [Except.toOption]

/-! ## Passing on -/

/-- Every entity of a table is found again in another one, changed in a certain way. -/
def Passes (change : Entity → Entity → Prop) (t t' : EntityTable) : Prop :=
  ∀ ⦃id e⦄, t.get id = .ok e → ∃ e', t'.get id = .ok e' ∧ change e e'

namespace Passes

variable {change : Entity → Entity → Prop}

theorem refl (hr : ∀ e, change e e) (t : EntityTable) : Passes change t t :=
  fun _ e he => ⟨e, he, hr e⟩

/-- Changes may follow one another. -/
theorem trans (ht : ∀ a b c, change a b → change b c → change a c) (h : Passes change t t₁)
    (h' : Passes change t₁ t₂) : Passes change t t₂ := by
  intro id e he
  obtain ⟨e₁, he₁, hc₁⟩ := h he
  obtain ⟨e₂, he₂, hc₂⟩ := h' he₁
  exact ⟨e₂, he₂, ht _ _ _ hc₁ hc₂⟩

/-- One entity is changed. -/
theorem set (hr : ∀ e, change e e) (he : t.get id = .ok e) (hc : change e e') :
    Passes change t (t.set id e') := by
  intro x found hfound
  by_cases hx : x = id
  · subst hx
    obtain rfl := Except.ok.inj (he.symm.trans hfound)
    exact ⟨e', get_set_self (lt_of_get he), hc⟩
  · exact ⟨found, by rwa [get_set_of_ne hx], hr found⟩

theorem size_le (h : Passes change t t') : t.size ≤ t'.size := by
  by_contra hlt
  obtain ⟨e, he⟩ : ∃ e, t.get ⟨t'.size⟩ = .ok e := exists_get (Nat.lt_of_not_le hlt)
  obtain ⟨e', he', -⟩ := h he
  exact absurd (lt_of_get he') (Nat.lt_irrefl _)

theorem of_forall₂ (h : List.Forall₂ change t.entries t'.entries) : Passes change t t' := by
  intro id e he
  obtain ⟨hlt, rfl⟩ := List.getElem?_eq_some_iff.1 (get_eq_ok_iff.1 he)
  have hlt' : id.index < t'.entries.length := h.length_eq ▸ hlt
  exact ⟨_, get_eq_ok_iff.2 (List.getElem?_eq_getElem hlt'), h.get hlt hlt'⟩

/-- What is seen of the entities is the same in both tables, if the change does not affect it. -/
theorem bind_toOption (h : Passes change t t') (hsize : t'.size = t.size) {α : Type}
    {view : Entity → Option α} (hview : ∀ e e', change e e' → view e' = view e) (id : EntityId) :
    (t'.get id).toOption.bind view = (t.get id).toOption.bind view := by
  cases he : t.get id with
  | ok e =>
    obtain ⟨e', he', hchange⟩ := h he
    rw [he']
    exact hview e e' hchange
  | error fault =>
    cases he' : t'.get id with
    | ok e' =>
      obtain ⟨e, hget⟩ := exists_get (hsize ▸ lt_of_get he')
      rw [he] at hget
      cases hget
    | error fault' => rfl

end Passes

end EntityTable

/-! ## Changes -/

/-- The type of an entity was settled, and nothing else. -/
def Entity.Typed (e e' : Entity) : Prop :=
  ∃ type, e' = { e with type := .settled type }

/-- The uses of an entity were counted, and nothing else. -/
def Entity.Counted (e e' : Entity) : Prop :=
  ∃ uses, e' = { e with uses }

/-- An entity was numbered, and nothing else. -/
def Entity.Numbered (e e' : Entity) : Prop :=
  ∃ sequence, e' = { e with sequence }

namespace Entity

variable {a b c : Entity}

theorem Counted.refl (e : Entity) : Counted e e := ⟨_, rfl⟩

theorem Counted.trans (h : Counted a b) (h' : Counted b c) : Counted a c := by
  obtain ⟨_, rfl⟩ := h
  obtain ⟨_, rfl⟩ := h'
  exact ⟨_, rfl⟩

theorem Numbered.refl (e : Entity) : Numbered e e := ⟨_, rfl⟩

theorem Numbered.trans (h : Numbered a b) (h' : Numbered b c) : Numbered a c := by
  obtain ⟨_, rfl⟩ := h
  obtain ⟨_, rfl⟩ := h'
  exact ⟨_, rfl⟩

end Entity

/-! ## The passes before the lowering -/

namespace EntityTable

variable {types types' : TypeTable} {t t' : EntityTable} {e e' : Entity} {id : EntityId}

/-- The reference under which the type of an entity is looked up: a parameter that is declared as an
array is a pointer. -/
inductive LooksUp (e : Entity) : TypeRef → Prop where
  | ref : LooksUp e e.ref
  | pointer {base : TypeRef} {length : Option UInt64} (h : e.ref = .array base length) :
    LooksUp e (.pointer base)

/-- Either the type was settled before, or it is looked up. -/
theorem settleType_eq_ok (h : settleType types e = .ok (types', e')) :
    (types' = types ∧ e' = e ∧ ∃ type, e.type = .settled type) ∨
      ∃ ref type, LooksUp e ref ∧ types.intern ref = .ok (types', type) ∧
        e' = { e with type := .settled type } := by
  -- both ways of registering end in the same two steps
  have hrest {types₁ type} (hset : (do return (types₁, ← e.setType type)) = .ok (types', e')) :
      types' = types₁ ∧ e' = { e with type := .settled type } := by
    obtain ⟨e₁, he, hset⟩ := bind_eq_ok_iff.1 hset
    obtain ⟨rfl, rfl⟩ := Prod.mk.inj (Except.ok.inj hset)
    obtain ⟨d, hd, he⟩ := bind_eq_ok_iff.1 he
    obtain ⟨-, rfl⟩ := Deferred.settle_eq_ok_iff.1 hd
    exact ⟨rfl, (Except.ok.inj he).symm⟩
  unfold settleType at h
  split at h
  -- a type that is settled already is left alone
  · next hset =>
    obtain ⟨rfl, rfl⟩ := Prod.mk.inj (Except.ok.inj h)
    cases htype : e.type with
    | pending => simp [htype, Deferred.isSettled] at hset
    | settled type => exact .inl ⟨rfl, rfl, type, rfl⟩
  · refine .inr ?_
    dsimp only at h
    split at h
    -- parameters are adjusted before they are registered
    · obtain ⟨⟨types₁, type⟩, hintern, h⟩ := bind_eq_ok_iff.1 h
      obtain ⟨rfl, rfl⟩ := hrest h
      unfold TypeTable.internParam at hintern
      split at hintern
      · next hr => exact ⟨_, type, .pointer hr, hintern, rfl⟩
      · exact ⟨_, type, .ref, hintern, rfl⟩
    · obtain ⟨⟨types₁, type⟩, hintern, h⟩ := bind_eq_ok_iff.1 h
      obtain ⟨rfl, rfl⟩ := hrest h
      exact ⟨_, type, .ref, hintern, rfl⟩

theorem settleType_typed (h : settleType types e = .ok (types', e')) : Entity.Typed e e' := by
  rcases settleType_eq_ok h with ⟨-, rfl, type, htype⟩ | ⟨_, type, -, -, rfl⟩
  · exact ⟨type, by rw [← htype]⟩
  · exact ⟨type, rfl⟩

/-- Every type of an entity is settled. -/
theorem settleTypesOf_typed {es es' : List Entity}
    (h : settleTypesOf types es = .ok (types', es')) :
    List.Forall₂ Entity.Typed es es' := by
  induction es generalizing types es' with
  | nil =>
    obtain ⟨-, rfl⟩ := Prod.mk.inj (Except.ok.inj h)
    exact .nil
  | cons e es ih =>
    obtain ⟨⟨types₁, e₁⟩, he, h⟩ := bind_eq_ok_iff.1 h
    obtain ⟨⟨types₂, es₁⟩, hes, h⟩ := bind_eq_ok_iff.1 h
    obtain ⟨rfl, rfl⟩ := Prod.mk.inj (Except.ok.inj h)
    exact .cons (settleType_typed he) (ih hes)

/-- Every entity gets a type. -/
theorem settleTypes_eq_ok (h : t.settleTypes types = .ok (types', t')) :
    Passes Entity.Typed t t' ∧ t'.size = t.size := by
  obtain ⟨⟨types₁, es⟩, hes, h⟩ := bind_eq_ok_iff.1 h
  obtain ⟨-, rfl⟩ := Prod.mk.inj (Except.ok.inj h)
  have hall := settleTypesOf_typed hes
  exact ⟨.of_forall₂ hall, hall.length_eq.symm⟩

/-- A mark counts one use. -/
theorem markUsed_passes (h : t.markUsed id = .ok t') :
    Passes Entity.Counted t t' ∧ t'.size = t.size := by
  obtain ⟨e, he, h⟩ := bind_eq_ok_iff.1 h
  obtain ⟨e', hmark, h⟩ := bind_eq_ok_iff.1 h
  obtain rfl := Except.ok.inj h
  obtain rfl := Except.ok.inj hmark
  exact ⟨.set Entity.Counted.refl he ⟨_, rfl⟩, size_set⟩

end EntityTable

/-- So do marks on a list. -/
theorem EntityTable.markAll_passes {t t' : EntityTable} {ids : List EntityId}
    (h : ids.foldlM markUsed t = .ok t') : Passes Entity.Counted t t' ∧ t'.size = t.size := by
  induction ids generalizing t with
  | nil =>
    obtain rfl := Except.ok.inj h
    exact ⟨.refl Entity.Counted.refl _, rfl⟩
  | cons id ids ih =>
    rw [List.foldlM_cons] at h
    obtain ⟨t₁, hmark, h⟩ := bind_eq_ok_iff.1 h
    obtain ⟨hpasses, hsize⟩ := markUsed_passes hmark
    obtain ⟨hrest, hsize'⟩ := ih h
    exact ⟨hpasses.trans (fun _ _ _ => .trans) hrest, hsize'.trans hsize⟩

/-- The uses are counted, and nothing else changes. -/
theorem Source.Program.markUses_eq_ok {p p' : Source.Program} (h : p.markUses = .ok p') :
    EntityTable.Passes Entity.Counted p.entities p'.entities ∧
      p'.entities.size = p.entities.size ∧ p'.declarations = p.declarations := by
  obtain ⟨ids, -, h⟩ := bind_eq_ok_iff.1 h
  obtain ⟨entities, hmarks, h⟩ := bind_eq_ok_iff.1 h
  obtain rfl := Except.ok.inj h
  obtain ⟨hpasses, hsize⟩ := EntityTable.markAll_passes hmarks
  exact ⟨hpasses, hsize, rfl⟩

end Backend386
