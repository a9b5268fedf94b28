import Backend386.Proofs.I386.Avoids
import Backend386.Proofs.I386.Frame
import Backend386.Proofs.Source.Entities

/-!
# Entities are placed once

Storage is handed out by four passes: static variables, what is defined elsewhere and functions,
named constants, and the frame of each function. If the lists that these passes go through have no
entity in common, and name all that the code of a function mentions, then no entity is placed twice
and none is used before it is placed.

* `Ir.Module.placements` — the entities that are placed, in order;
* `Staged` — how far the placement has come;
* `Ir.Module.placed_assemble` — the code generator keeps to it.
-/

namespace Backend386

/-- A fault about the storage of an entity. -/
def Fault.IsPlacement : Fault → Prop
  | readEarly _ | settledTwice _ | unaddressable .. | valuelessConstant _ => True
  | _ => False

instance : Promises Fault.IsPlacement where
  isPromise := fun {fault} h => by cases fault <;> trivial

/-! ## Lists of entities -/

/-- The entities that get a slot in the frame of a function. -/
def Ir.Function.frameEntities (f : Ir.Function) (entities : EntityTable) : List EntityId :=
  f.params ++ entities.withPrivacy false f.scope.variablesOfTree

namespace Ir.Module

/-- The static variables, what is defined elsewhere and the functions. -/
def addressed (m : Ir.Module) : List EntityId :=
  m.vars.map (·.entity) ++ (m.undefined ++ m.functions.map (·.entity))

/-- The entities that the code generator places, in order. -/
def placements (m : Ir.Module) : List EntityId :=
  m.addressed ++ (m.namedConstants.map (·.entity) ++
    m.functions.flatMap (·.frameEntities m.entities))

end Ir.Module

/-! ## Storage -/

/-- The storage of an entity was set, and nothing else. -/
def Entity.Stored (e e' : Entity) : Prop :=
  ∃ storage, e' = { e with storage }

theorem Entity.Stored.refl (e : Entity) : Entity.Stored e e := ⟨_, rfl⟩

theorem Entity.Stored.trans {a b c : Entity} (h : Entity.Stored a b) (h' : Entity.Stored b c) :
    Entity.Stored a c := by
  obtain ⟨_, rfl⟩ := h
  obtain ⟨_, rfl⟩ := h'
  exact ⟨_, rfl⟩

/-- The entity is somewhere in memory, or it is a function. -/
def Entity.IsAddressable (e : Entity) : Prop :=
  (∃ m, e.storage = .settled (.memory m)) ∨
    e.isFunction = true ∧ ∃ s, e.storage = .settled (.immediate (.symbol s))

/-- Its storage can be read; it is memory, unless the address is known to the assembler. -/
theorem Entity.IsAddressable.storage {e : Entity} (h : e.IsAddressable) :
    ∃ storage address, e.getStorage = .ok storage ∧ e.address? = .ok address ∧
      (address.isSome = true ∨ ∃ m, storage = .memory m) := by
  obtain ⟨m, hm⟩ | ⟨hf, s, hs⟩ := h
  · have hstorage : e.getStorage = .ok (.memory m) := by rw [Entity.getStorage, hm]; rfl
    have haddress : ∃ address, e.address? = .ok address := by
      rw [Entity.address?, hstorage]
      dsimp only [bind, Except.bind]
      split <;> exact ⟨_, rfl⟩
    obtain ⟨address, haddress⟩ := haddress
    exact ⟨_, address, hstorage, haddress, .inr ⟨m, rfl⟩⟩
  · have hstorage : e.getStorage = .ok (.immediate (.symbol s)) := by
      rw [Entity.getStorage, hs]
      rfl
    refine ⟨_, some (.symbol s), hstorage, ?_, .inl rfl⟩
    rw [Entity.address?, hstorage]
    dsimp only [bind, Except.bind]
    rw [hf]
    rfl

namespace EntityTable

variable {t t' : EntityTable} {id : EntityId}

/-- The entity has not been placed. -/
def Unplaced (t : EntityTable) (id : EntityId) : Prop :=
  ∀ e, t.get id = .ok e → e.storage = .pending

/-- The entity has been placed, and has an address. -/
def Addressable (t : EntityTable) (id : EntityId) : Prop :=
  ∀ e, t.get id = .ok e → e.IsAddressable

/-- What is placed was pending before. -/
theorem place_eq_ok {storage : Storage} (h : t.place id storage = .ok t') :
    ∃ e, t.get id = .ok e ∧ e.storage = .pending ∧
      t' = t.set id { e with storage := .settled storage } := by
  obtain ⟨e, he, h⟩ := bind_eq_ok_iff.1 h
  obtain ⟨e', hset, h⟩ := bind_eq_ok_iff.1 h
  obtain ⟨d, hd, hset⟩ := bind_eq_ok_iff.1 hset
  obtain ⟨hpending, rfl⟩ := Deferred.settle_eq_ok_iff.1 hd
  obtain rfl := Except.ok.inj hset
  exact ⟨e, he, hpending, (Except.ok.inj h).symm⟩

/-- An entity that has no storage can be placed. -/
theorem avoids_place (h : t.Unplaced id) (storage : Storage) :
    Avoids Fault.IsPlacement (t.place id storage) := by
  unfold place update
  refine Avoids.bind_of fun e he => ?_
  dsimp only [Entity.setStorage]
  rw [h e he]
  exact .ok _

end EntityTable

/-- An entity with an address can be read and its address taken. -/
theorem EntityTable.Addressable.readable {p : Placement} {id : EntityId}
    (h : p.entities.Addressable id) : p.Readable Fault.IsPlacement id where
  storage := fun he => by
    obtain ⟨storage, address, hstorage, -⟩ := (h _ he).storage
    rw [hstorage]
    exact .ok _
  address := by
    unfold Placement.entityAddressCode
    refine Avoids.bind_of fun e he => ?_
    obtain ⟨storage, address, hstorage, haddress, hmemory⟩ := (h e he).storage
    rw [hstorage, haddress]
    dsimp only [bind, Except.bind]
    obtain hsome | ⟨m, rfl⟩ := hmemory
    · obtain ⟨i, rfl⟩ := Option.isSome_iff_exists.1 hsome
      exact .ok _
    · cases address <;> exact .ok _

/-! ## Steps -/

/-- A computation avoids certain faults, and its result has a property. -/
structure Safely (bad : Fault → Prop) {α : Type} (P : α → Prop) (x : Except Fault α) : Prop where
  avoids : Avoids bad x
  ok : ∀ {a}, x = .ok a → P a

namespace Safely

variable {bad : Fault → Prop} {α β σ : Type} {P : α → Prop} {Q : β → Prop} {x : Except Fault α}

/-- What is known after one step is used for the next one. -/
theorem bind {f : α → Except Fault β} (hx : Safely bad P x) (hf : ∀ a, P a → Safely bad Q (f a)) :
    Safely bad Q (x >>= f) where
  avoids := by
    have := hx.avoids
    exact Avoids.bind_of fun a ha => (hf a (hx.ok ha)).avoids
  ok := fun h => by
    obtain ⟨a, ha, hb⟩ := bind_eq_ok_iff.1 h
    exact (hf a (hx.ok ha)).ok hb

theorem mono {P' : α → Prop} (h : Safely bad P x) (hp : ∀ a, P a → P' a) : Safely bad P' x :=
  ⟨h.avoids, fun ha => hp _ (h.ok ha)⟩

theorem of_avoids [h : Avoids bad x] : Safely bad (fun _ => True) x :=
  ⟨h, fun _ => trivial⟩

end Safely

/-- How far the placement of the entities of a table has come: which are still to be placed, and
which have an address. -/
structure Staged (base : EntityTable) (todo : List EntityId) (reached : EntityId → Prop)
    (t : EntityTable) : Prop where
  same : EntityTable.Passes Entity.Stored base t
  size : t.size = base.size
  nodup : todo.Nodup
  unplaced : ∀ id ∈ todo, t.Unplaced id
  reached : ∀ id, reached id → t.Addressable id

namespace Staged

variable {base t : EntityTable} {todo rest : List EntityId} {reached reached' : EntityId → Prop}
  {id : EntityId} {σ α : Type}

theorem mono (h : Staged base todo reached t) (hr : ∀ id, reached' id → reached id) :
    Staged base todo reached' t :=
  { h with reached := fun id hid => h.reached id (hr id hid) }

/-- Everything but the storage is as it was. -/
theorem get (h : Staged base todo reached t) {e : Entity} (he : t.get id = .ok e) :
    ∃ e₀, base.get id = .ok e₀ ∧ e₀.Stored e := by
  obtain ⟨e₀, he₀⟩ := EntityTable.exists_get (h.size ▸ EntityTable.lt_of_get he)
  obtain ⟨e', he', hstored⟩ := h.same he₀
  obtain rfl := Except.ok.inj (he'.symm.trans he)
  exact ⟨e₀, he₀, hstored⟩

/-- The next entity is placed; it is reached if its storage has an address. -/
theorem place (h : Staged base (id :: todo) reached t) {storage : Storage} {adds : Prop}
    (hstorage : adds → ∀ e, t.get id = .ok e → Entity.IsAddressable
      { e with storage := .settled storage }) :
    Safely Fault.IsPlacement (Staged base todo fun x => reached x ∨ x = id ∧ adds)
      (t.place id storage) where
  avoids := EntityTable.avoids_place (h.unplaced id List.mem_cons_self) storage
  ok := fun {t'} hplace => by
    -- the entity was pending, and is replaced by one with storage
    obtain ⟨e, he, hpending, rfl⟩ := EntityTable.place_eq_ok hplace
    obtain ⟨hnew, hnodup⟩ := List.nodup_cons.1 h.nodup
    -- the others stay as they were
    constructor
    case same => exact h.same.trans (fun _ _ _ => .trans) (.set .refl he ⟨_, rfl⟩)
    case size => rw [EntityTable.size_set, h.size]
    case nodup => exact hnodup
    case unplaced =>
      intro x hx
      have hne : x ≠ id := fun heq => hnew (heq ▸ hx)
      rw [EntityTable.Unplaced, EntityTable.get_set_of_ne hne]
      exact h.unplaced x (List.mem_cons_of_mem _ hx)
    case reached =>
      rintro x hx
      by_cases hne : x = id
      · subst hne
        rw [EntityTable.Addressable, EntityTable.get_set_self (EntityTable.lt_of_get he)]
        rintro e' ⟨rfl⟩
        rcases hx with hx | ⟨-, hadds⟩
        · -- what is reached has been placed before
          obtain ⟨storage, -, hs, -⟩ := (h.reached x hx e he).storage
          rw [Entity.getStorage, hpending] at hs
          cases hs
        · exact hstorage hadds e he
      · rw [EntityTable.Addressable, EntityTable.get_set_of_ne hne]
        exact h.reached x (hx.resolve_right fun heq => hne heq.1)

/-- A loop that places one entity after another. -/
theorem foldlM (view : σ → EntityTable) (key : α → EntityId) {adds : Prop}
    {step : σ → α → Except Fault σ} {l : List α}
    (hstep : ∀ a ∈ l, ∀ s todo reached, Staged base (key a :: todo) reached (view s) →
      Safely Fault.IsPlacement (Staged base todo (fun x => reached x ∨ x = key a ∧ adds) <| view ·)
        (step s a)) {s : σ} (h : Staged base (l.map key ++ rest) reached (view s)) :
    Safely Fault.IsPlacement
      (Staged base rest (fun x => reached x ∨ x ∈ l.map key ∧ adds) <| view ·)
      (l.foldlM step s) := by
  induction l generalizing s reached with
  | nil =>
    refine ⟨.ok s, ?_⟩
    rintro _ ⟨rfl⟩
    exact h.mono (by simp)
  | cons a l ih =>
    rw [List.foldlM_cons]
    refine (hstep a List.mem_cons_self s _ reached h).bind fun s' hs' => ?_
    refine ⟨(ih (fun b hb => hstep b (List.mem_cons_of_mem _ hb)) hs').avoids, fun hok => ?_⟩
    -- the first element is among those that were reached, whether or not it adds anything
    refine ((ih (fun b hb => hstep b (List.mem_cons_of_mem _ hb)) hs').ok hok).mono fun x hx => ?_
    simp only [List.map_cons, List.mem_cons] at hx ⊢
    tauto

/-! ## Static storage -/

section

variable {p : Placement}

/-- An entity is placed, and is reached from then on if it has a spot. -/
theorem placement (h : Staged base (id :: todo) reached p.entities) {storage : Storage}
    {adds : Prop} (hstorage : adds → ∀ e, p.entities.get id = .ok e → Entity.IsAddressable
      { e with storage := .settled storage }) :
    Safely Fault.IsPlacement
      (Staged base todo (fun x => reached x ∨ x = id ∧ adds) <| Placement.entities ·)
      (p.place id storage) := by
  unfold Placement.place
  refine (h.place hstorage).bind fun t ht => ⟨.ok _, ?_⟩
  rintro _ ⟨rfl⟩
  exact ht

/-- A variable is placed at its symbol. -/
theorem placeVariable {v : Ir.StaticVariable}
    (h : Staged base (v.entity :: todo) reached p.entities) :
    Safely Fault.IsPlacement
      (Staged base todo (fun x => reached x ∨ x = v.entity ∧ True) <| Placement.entities ·)
      (p.placeVariable v) := by
  unfold Placement.placeVariable
  exact Safely.of_avoids.bind fun symbol _ => h.placement fun _ e _ => .inl ⟨_, rfl⟩

/-- So is what is defined elsewhere. -/
theorem placeSymbol (h : Staged base (id :: todo) reached p.entities) :
    Safely Fault.IsPlacement
      (Staged base todo (fun x => reached x ∨ x = id ∧ True) <| Placement.entities ·)
      (p.placeSymbol id) := by
  have hget : Safely Fault.IsPlacement (p.entities.get id = .ok ·) (p.entities.get id) :=
    ⟨inferInstance, fun h => h⟩
  unfold Placement.placeSymbol
  refine hget.bind fun e he => h.placement fun _ e' he' => ?_
  obtain rfl := Except.ok.inj (he.symm.trans he')
  split
  · next hf => exact .inr ⟨hf, _, rfl⟩
  · exact .inl ⟨_, rfl⟩

/-- A constant is a value, and has no address. -/
theorem placeConstant {c : Ir.NamedConstant} {value : Ir.Expr} (hvalue : c.value = some value)
    (hconstant : value.isConstant = true)
    (h : Staged base (c.entity :: todo) reached p.entities) :
    Safely Fault.IsPlacement
      (Staged base todo (fun x => reached x ∨ x = c.entity ∧ False) <| Placement.entities ·)
      (p.placeConstant c) := by
  have himmediate : Safely Fault.IsPlacement (·.isSome = true) (p.immediate? value) := by
    refine ⟨inferInstance, fun {found} hfound => ?_⟩
    cases value with
    | int w v =>
      obtain rfl := Except.ok.inj hfound
      rfl
    | str w v | addr w v =>
      obtain ⟨symbol, -, hfound⟩ := bind_eq_ok_iff.1 hfound
      obtain rfl := Except.ok.inj hfound
      rfl
    | _ => cases hconstant
  unfold Placement.placeConstant
  simp only [hvalue]
  refine himmediate.bind fun found hfound => ?_
  obtain ⟨i, rfl⟩ := Option.isSome_iff_exists.1 hfound
  exact h.placement False.elim

/-- Everything with static storage is placed, and all of it but the constants has an address. -/
theorem place_module {m : Ir.Module} (hvalues : ∀ c ∈ m.namedConstants, ∃ value,
      c.value = some value ∧ value.isConstant = true)
    (h : Staged m.entities (m.addressed ++ (m.namedConstants.map (·.entity) ++ rest))
      (fun _ => False) m.entities) :
    Safely Fault.IsPlacement (Staged m.entities rest (· ∈ m.addressed) <| Placement.entities ·)
      m.place := by
  rw [Ir.Module.addressed, List.append_assoc] at h
  unfold Ir.Module.place
  refine Safely.bind (foldlM Placement.entities Ir.StaticVariable.entity
    (s := ⟨m.entities, m.strings.labelAll⟩) (fun v _ s todo reached => placeVariable) h)
    fun p hp => ?_
  rw [← List.map_id' (m.undefined ++ _)] at hp
  refine Safely.bind (foldlM Placement.entities (fun id => id)
    (fun v _ s todo reached => placeSymbol) hp) fun p hp => ?_
  refine Safely.mono (P := fun q => Staged _ _ (fun x => _ ∨ _ ∧ False) q.entities)
    (foldlM Placement.entities Ir.NamedConstant.entity ?_ hp) fun p hp => ?_
  · intro c hc p todo reached hp
    obtain ⟨value, hvalue, hconstant⟩ := hvalues c hc
    exact placeConstant hvalue hconstant hp
  · refine hp.mono fun x hx => ?_
    simp only [Ir.Module.addressed, List.mem_append] at hx
    simp only [List.map_id', List.mem_append]
    tauto

end

/-! ## Functions -/

variable {types : TypeTable}

/-- Types and layouts can be read as long as they are settled. -/
theorem measurable (h : Staged base todo reached t) (hc : types.Complete)
    (htyped : ∀ id e, base.get id = .ok e → ∃ type, e.type = .settled type) :
    Avoids.Measurable Fault.IsPlacement t types where
  typeId := fun he => by
    obtain ⟨e₀, he₀, storage, rfl⟩ := h.get he
    obtain ⟨type, htype⟩ := htyped _ e₀ he₀
    rw [Entity.typeId, htype]
    exact .ok _
  layout := fun id => by
    refine Avoids.layoutWithin _ id (fun id c hi m hm => ?_) fun id d hi => ?_
    · obtain ⟨type, htype, -⟩ := hc.member_type hi hm
      rw [Member.typeId, htype]
      exact .ok _
    · obtain ⟨real, hreal, -⟩ := hc.typedef_real hi
      rw [Typedef.realId, hreal]
      exact .ok _

/-- The variables of a given privacy are the same at every stage. -/
theorem selectPrivate (h : Staged base todo reached t) {isPrivate : Bool}
    {ids found : List EntityId}
    (hfound : Scope.selectPrivate t isPrivate ids = .ok found) :
    found = base.withPrivacy isPrivate ids := by
  obtain ⟨rfl, hrange⟩ := EntityTable.selectPrivate_eq_ok hfound
  refine EntityTable.withPrivacy_congr fun id hid => ?_
  obtain ⟨e, he⟩ := EntityTable.exists_get (hrange id hid)
  obtain ⟨e₀, he₀, storage, rfl⟩ := h.get he
  exact ⟨e₀, _, he₀, he, rfl⟩

/-- The frame has a slot for each parameter and each stack variable. -/
theorem slots (h : Staged base todo reached t) {f : Ir.Function} {frame : Frame}
    (hframe : Frame.compute f t types = .ok frame) :
    frame.slots.map (·.entity) = f.frameEntities base := by
  obtain ⟨params, hparams, hframe⟩ := bind_eq_ok_iff.1 hframe
  obtain ⟨vars, hvars, hframe⟩ := bind_eq_ok_iff.1 hframe
  obtain ⟨⟨a, locals⟩, hlocals, hframe⟩ := bind_eq_ok_iff.1 hframe
  obtain ⟨size, -, hframe⟩ := bind_eq_ok_iff.1 hframe
  obtain ⟨size', -, hframe⟩ := bind_eq_ok_iff.1 hframe
  obtain rfl := Except.ok.inj hframe
  rw [Frame.slots, List.map_append, (Frame.placeParams_eq_ok hparams).1,
    (Frame.placeLocals_eq_ok hlocals).1, h.selectPrivate hvars]
  rfl

/-- The slots of a frame are assigned one after another. -/
theorem assign {frame : Frame}
    (h : Staged base (frame.slots.map (·.entity) ++ rest) reached t) :
    Safely Fault.IsPlacement
      (Staged base rest fun x => reached x ∨ x ∈ frame.slots.map (·.entity) ∧ True)
      (frame.assign t) :=
  foldlM (fun t => t) Slot.entity (fun _ _ _ _ _ hs => hs.place fun _ _ _ => .inl ⟨_, rfl⟩) h

/-- The code of a function reads only what has an address when its frame is assigned. -/
theorem functionCode {p : Placement} {f : Ir.Function} {options : AssemblyOptions}
    {epilogue : Ir.Label} (hc : types.Complete)
    (htyped : ∀ id e, base.get id = .ok e → ∃ type, e.type = .settled type)
    (hbody : ∀ s ∈ f.body.toList, ∀ v ∈ s.action.entities, reached v ∨ v ∈ f.frameEntities base)
    (h : Staged base (f.frameEntities base ++ rest) reached p.entities) :
    Safely Fault.IsPlacement (fun result => Staged base rest reached result.1.entities)
      (p.functionCode types options epilogue f) := by
  have hcompute : Safely Fault.IsPlacement (Frame.compute f p.entities types = .ok ·)
      (Frame.compute f p.entities types) := ⟨.compute (h.measurable hc htyped), fun h => h⟩
  unfold Placement.functionCode
  refine Safely.of_avoids.bind fun entity _ => ?_
  dsimp only
  split
  · exact ⟨.error not_false, nofun⟩
  -- slots are assigned to the locals of the frame, and the body is compiled with those in place
  · refine hcompute.bind fun frame hframe => ?_
    rw [← h.slots hframe] at h
    refine h.assign.bind fun t ht => ?_
    refine Safely.bind (P := fun _ => True) ⟨.bodyCode fun s hs v hv => ?_, fun _ => trivial⟩
      fun body _ => ⟨.ok _, ?_⟩
    -- what the body mentions is reached: it is global, or one of the slots that were just assigned
    · refine (ht.reached v ?_).readable
      rw [h.slots hframe]
      simpa using hbody s hs v hv
    · rintro _ ⟨rfl⟩
      exact ht.mono fun x hx => .inl hx

/-- The functions are placed and compiled one after another, each with its own local variables. -/
theorem functionsCode {p : Placement} {fs : List Ir.Function} {options : AssemblyOptions}
    {labels : Ir.LabelSupply} (hc : types.Complete)
    (htyped : ∀ id e, base.get id = .ok e → ∃ type, e.type = .settled type)
    (hbody : ∀ f ∈ fs, ∀ s ∈ f.body.toList, ∀ v ∈ s.action.entities,
      reached v ∨ v ∈ f.frameEntities base)
    (h : Staged base (fs.flatMap (·.frameEntities base)) reached p.entities) :
    Avoids Fault.IsPlacement (p.functionsCode types options labels fs) := by
  induction fs generalizing p labels with
  | nil => exact .ok _
  | cons f fs ih =>
    rw [List.flatMap_cons] at h
    have hf (epilogue : Ir.Label) : Safely Fault.IsPlacement (fun result => Staged base _ reached
        result.1.entities) (p.functionCode types options epilogue f) :=
      h.functionCode hc htyped (hbody f List.mem_cons_self)
    rw [Placement.functionsCode]
    refine (Safely.bind (Q := fun _ => True) (hf _) fun ⟨p', code⟩ hresult => ?_).avoids
    have : Avoids Fault.IsPlacement (p'.functionsCode types options ⟨labels.next + 1⟩ fs) :=
      ih (fun g hg => hbody g (List.mem_cons_of_mem _ hg)) hresult
    dsimp only
    exact ⟨inferInstance, fun _ => trivial⟩

end Staged

/-- A module whose entities have types and no storage, whose lists of entities to be placed have
none in common, and whose functions mention only what is static or in their frame: no entity is
placed twice, and none is used before it is placed. -/
theorem Ir.Module.placed_assemble {m : Ir.Module} {types : TypeTable} (hc : types.Complete)
    (htyped : ∀ id e, m.entities.get id = .ok e → ∃ type, e.type = .settled type)
    (hfresh : ∀ id, m.entities.Unplaced id)
    (hvalues : ∀ c ∈ m.namedConstants, ∃ value, c.value = some value ∧ value.isConstant = true)
    (hnodup : m.placements.Nodup)
    (hbody : ∀ f ∈ m.functions, ∀ s ∈ f.body.toList, ∀ v ∈ s.action.entities,
      v ∈ m.addressed ∨ v ∈ f.frameEntities m.entities) (options : AssemblyOptions) :
    Avoids Fault.IsPlacement (m.assemble types options) := by
  have hstart : Staged m.entities m.placements (fun _ => False) m.entities :=
    ⟨.refl .refl _, rfl, hnodup, fun id _ => hfresh id, fun _ => False.elim⟩
  have hplace := hstart.place_module hvalues
  unfold Ir.Module.assemble
  dsimp only
  split
  · exact .error not_false
  · refine (Safely.bind (Q := fun _ => True) hplace fun p hp => ?_).avoids
    have := Avoids.variableData (hp.measurable hc htyped)
    have : Avoids Fault.IsPlacement (p.functionsCode types options m.labels m.functions) :=
      hp.functionsCode hc htyped hbody
    exact ⟨inferInstance, fun _ => trivial⟩

end Backend386
