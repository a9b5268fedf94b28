import Mathlib.Data.List.Forall2
import Backend386.Proofs.Types.References

/-!
# The type table as a canonical map

In a table that the operations lead to, references and numbers determine each other, and what the
table knows of a type has the shape of its reference, over the numbers of the parts. Looking up a
reference adds what it meets and misses, and stops only where a struct, a union or a typedef is not
registered: what the parts of a reference bring in is smaller than the reference, so it is still
missing when its turn comes.

* `TypeTable.Mirrors` — what is known of a type has the shape of its reference;
* `TypeTable.Canonical` — no reference is registered twice, and every type has its shape;
* `TypeTable.GrowsBy` — what a lookup adds;
* `TypeTable.Canonical.finds` — what a lookup in a canonical table does.
-/

namespace Backend386

/-- An element of the first list is related to one of the second. -/
theorem forall₂_mem_left {α β : Type} {R : α → β → Prop} {as : List α} {bs : List β} {a : α}
    (h : List.Forall₂ R as bs) (ha : a ∈ as) : ∃ b ∈ bs, R a b := by
  induction h with
  | nil => cases ha
  | cons hR _ ih =>
    rcases List.mem_cons.1 ha with rfl | ha
    · exact ⟨_, List.mem_cons_self, hR⟩
    · obtain ⟨b, hb, hR⟩ := ih ha
      exact ⟨b, List.mem_cons_of_mem _ hb, hR⟩

theorem forall₂_mem_right {α β : Type} {R : α → β → Prop} {as : List α} {bs : List β} {b : β}
    (h : List.Forall₂ R as bs) (hb : b ∈ bs) : ∃ a ∈ as, R a b :=
  forall₂_mem_left (R := flip R) h.flip hb

namespace TypeTable

variable {t t' t₁ t₂ : TypeTable} {id base : TypeId} {ref part : TypeRef} {info : TypeInfo}
  {refs : List TypeRef} {ids : List TypeId} {new new' : TypeRef → Prop}

/-! ## Registered references -/

/-- A type is registered under the reference. -/
def Registered (t : TypeTable) (ref : TypeRef) : Prop :=
  ∃ id, t.lookup? ref = some id

theorem not_registered_iff : ¬ t.Registered ref ↔ t.lookup? ref = none := by
  cases h : t.lookup? ref <;> simp [Registered, h]

/-- A reference is registered if an entry has it. -/
theorem registered_iff_mem : t.Registered ref ↔ ∃ e ∈ t.entries, e.ref = ref := by
  constructor
  · rintro ⟨id, hid⟩
    obtain ⟨e, he, href⟩ := refOf_eq_ok_iff.1 (refOf_of_lookup? hid)
    exact ⟨e, List.mem_of_getElem? he, href⟩
  · rintro ⟨e, he, rfl⟩
    obtain ⟨i, hi⟩ := List.mem_iff_getElem?.1 he
    have hr : t.refOf ⟨i⟩ = .ok e.ref := refOf_eq_ok_iff.2 ⟨e, hi, rfl⟩
    exact exists_lookup?_of_refOf hr

/-- A new entry is found if its reference is new. -/
theorem lookup?_append : (t.append part info).lookup? ref =
    (t.lookup? ref).or (if part = ref then some ⟨t.size⟩ else none) := by
  rw [lookup?, append, List.findIdx?_append]
  by_cases hpart : part = ref
  · simp [hpart, lookup?, List.findIdx?_cons, size]
  · simp [hpart, lookup?, List.findIdx?_cons]

theorem registered_append :
    (t.append part info).Registered ref ↔ t.Registered ref ∨ ref = part := by
  rw [Registered, lookup?_append, eq_comm (a := ref) (b := part)]
  cases h : t.lookup? ref <;> by_cases hpart : part = ref <;> simp [Registered, h, hpart]

/-- Each reference of the table is found where it stands, since none stands there twice. -/
theorem lookup?_eq_some_iff (hnodup : (t.entries.map (·.ref)).Nodup) :
    t.lookup? ref = some id ↔ t.refOf id = .ok ref := by
  refine ⟨refOf_of_lookup?, fun h => ?_⟩
  obtain ⟨id', hid'⟩ := exists_lookup?_of_refOf h
  obtain ⟨e, he, rfl⟩ := refOf_eq_ok_iff.1 h
  obtain ⟨e', he', href⟩ := refOf_eq_ok_iff.1 (refOf_of_lookup? hid')
  have hlt : id.index < (t.entries.map (·.ref)).length := by
    simpa using (List.getElem?_eq_some_iff.1 he).1
  have hsame : id.index = id'.index := by
    refine (List.getElem?_inj hlt hnodup).1 ?_
    simp [he, he', href]
  cases id
  cases id'
  cases hsame
  exact hid'

/-! ## The shape of types -/

/-- What a table knows of a type has the shape of its reference, over the numbers of the parts; a
member or a typedef that is settled has the number of its own reference. -/
inductive Mirrors (t : TypeTable) : TypeRef → TypeInfo → Prop where
  | void : Mirrors t .void .void
  | integer (rank : IntegerRank) (signed : Bool) : Mirrors t (.integer rank signed)
    (.integer (t.profile.rankSize rank) signed (TypeRef.integer rank signed).render)
  | pointer {ref : TypeRef} {base : TypeId} (h : t.lookup? ref = some base) :
    Mirrors t (.pointer ref) (.pointer base)
  | array {ref : TypeRef} {base : TypeId} {length : Option UInt64}
    (h : t.lookup? ref = some base) : Mirrors t (.array ref length) (.array base length)
  | function {ret : TypeRef} {params : List TypeRef} {vararg : Bool} {r : TypeId}
    {ids : List TypeId} (hr : t.lookup? ret = some r)
    (hp : List.Forall₂ (fun p id => t.lookup? p.asParam = some id) params ids) :
    Mirrors t (.function ret params vararg) (.function ⟨r, ids, vararg⟩)
  | struct {c : Composite} (hk : c.kind = .struct)
    (hm : ∀ m ∈ c.members, ∀ id, m.type = .settled id → t.lookup? m.ref = some id) :
    Mirrors t (.struct c.name) (.composite c)
  | union {c : Composite} (hk : c.kind = .union)
    (hm : ∀ m ∈ c.members, ∀ id, m.type = .settled id → t.lookup? m.ref = some id) :
    Mirrors t (.union c.name) (.composite c)
  | typedef {d : Typedef} (hr : ∀ id, d.real = .settled id → t.lookup? d.ref = some id) :
    Mirrors t (.typedef d.name) (.typedef d)

/-- A shape depends on the numbers of the registered references only. -/
theorem Mirrors.mono (h : t.Mirrors ref info) (hprofile : t'.profile = t.profile)
    (hl : ∀ ref id, t.lookup? ref = some id → t'.lookup? ref = some id) : t'.Mirrors ref info := by
  cases h with
  | void => exact .void
  | integer rank signed =>
    rw [← hprofile]
    exact .integer rank signed
  | pointer h => exact .pointer (hl _ _ h)
  | array h => exact .array (hl _ _ h)
  | function hr hp => exact .function (hl _ _ hr) (hp.imp fun _ _ h => hl _ _ h)
  | struct hk hm => exact .struct hk fun m hmem id hid => hl _ _ (hm m hmem id hid)
  | union hk hm => exact .union hk fun m hmem id hid => hl _ _ (hm m hmem id hid)
  | typedef hr => exact .typedef fun id hid => hl _ _ (hr id hid)

/-- The information of a definition mirrors its reference. -/
theorem mirrors_ofDefinition (t : TypeTable) (d : TypeDefinition) :
    t.Mirrors d.ref (.ofDefinition d) := by
  cases d with
  | composite kind name members location =>
    let c : Composite := {
      kind, name, location
      members := members.map fun m => { name := m.name, ref := m.type, location := m.location } }
    have hpending : ∀ m ∈ c.members, ∀ id, m.type = .settled id → t.lookup? m.ref = some id := by
      intro m hm id hid
      obtain ⟨decl, -, rfl⟩ := List.mem_map.1 hm
      cases hid
    cases kind with
    | struct => exact Mirrors.struct (c := c) rfl hpending
    | union => exact Mirrors.union (c := c) rfl hpending
  | typedef name real location =>
    refine .typedef (d := { name, ref := real, location }) fun id hid => ?_
    cases hid

/-- What a type under the reference is built from is registered. -/
def PartsRegistered (t : TypeTable) : TypeRef → Prop
  | .pointer base | .array base _ => t.Registered base
  | .function ret params _ => t.Registered ret ∧ ∀ p ∈ params, t.Registered p.asParam
  | _ => True

/-- The parts of what is mirrored are registered. -/
theorem Mirrors.parts (h : t.Mirrors ref info) : t.PartsRegistered ref := by
  cases h with
  | pointer h | array h => exact ⟨_, h⟩
  | function hr hp =>
    refine ⟨⟨_, hr⟩, fun p hmem => ?_⟩
    obtain ⟨id, -, hid⟩ := forall₂_mem_left hp hmem
    exact ⟨id, hid⟩
  | _ => trivial

/-! ## The invariant -/

/-- No reference is registered twice, the basic types are there, and every type has the shape of its
reference. -/
structure Canonical (t : TypeTable) : Prop where
  nodup : (t.entries.map (·.ref)).Nodup
  void : t.Registered .void
  integer : ∀ rank signed, t.Registered (.integer rank signed)
  mirrors : ∀ e ∈ t.entries, t.Mirrors e.ref e.info

namespace Canonical

/-- The tables that are started with are canonical. -/
theorem initial (profile : WidthProfile) : (TypeTable.initial profile).Canonical where
  nodup := by
    have hrefs : (TypeTable.initial profile).entries.map (·.ref) =
        (TypeTable.initial .ilp32).entries.map (·.ref) := rfl
    rw [hrefs]
    decide
  void := ⟨⟨0⟩, rfl⟩
  integer := by
    intro rank signed
    cases rank <;> cases signed <;> exact ⟨_, rfl⟩
  mirrors := by
    intro e he
    simp only [TypeTable.initial, basicEntries, List.mem_cons, List.mem_flatMap, List.mem_map] at he
    rcases he with rfl | ⟨rank, -, signed, -, rfl⟩
    · exact .void
    · exact .integer rank signed

/-- One more type, of the shape of a reference that is missing. -/
theorem append (h : t.Canonical) (hnew : t.lookup? ref = none)
    (hm : (t.append ref info).Mirrors ref info) : (t.append ref info).Canonical where
  nodup := by
    have hmem : ∀ e ∈ t.entries, e.ref ≠ ref := fun e he href =>
      not_registered_iff.2 hnew (registered_iff_mem.2 ⟨e, he, href⟩)
    simpa [TypeTable.append, List.nodup_append] using ⟨h.nodup, hmem⟩
  void := registered_append.2 (.inl h.void)
  integer := fun rank signed => registered_append.2 (.inl (h.integer rank signed))
  mirrors := by
    intro e he
    rcases mem_append.1 he with he | rfl
    · refine (h.mirrors e he).mono rfl fun r id hl => ?_
      rw [lookup?_append, hl]
      rfl
    · exact hm

theorem lookup? (h : t.Canonical) : t.lookup? ref = some id ↔ t.refOf id = .ok ref :=
  lookup?_eq_some_iff h.nodup

/-- A type of the table has the shape of its reference. -/
theorem mirrors_of_refOf (h : t.Canonical) (hr : t.refOf id = .ok ref) :
    ∃ info, t.info id = .ok info ∧ t.Mirrors ref info := by
  obtain ⟨e, he, rfl⟩ := refOf_eq_ok_iff.1 hr
  exact ⟨e.info, info_eq_ok_iff.2 ⟨e, he, rfl⟩, h.mirrors e (List.mem_of_getElem? he)⟩

theorem mirrors_of_registered (h : t.Canonical) (hr : t.Registered ref) :
    ∃ info, t.Mirrors ref info := by
  obtain ⟨id, hid⟩ := hr
  obtain ⟨info, -, hm⟩ := h.mirrors_of_refOf (refOf_of_lookup? hid)
  exact ⟨info, hm⟩

/-- Whatever a lookup of a registered reference would meet is registered. -/
theorem registered_of_occurs (h : t.Canonical) (hocc : part.Occurs ref) (hr : t.Registered ref) :
    t.Registered part := by
  induction hocc with
  | self => exact hr
  | pointer _ ih | array _ ih =>
    obtain ⟨info, hm⟩ := h.mirrors_of_registered hr
    exact ih hm.parts
  | ret _ ih =>
    obtain ⟨info, hm⟩ := h.mirrors_of_registered hr
    exact ih hm.parts.1
  | param hp _ ih =>
    obtain ⟨info, hm⟩ := h.mirrors_of_registered hr
    exact ih (hm.parts.2 _ hp)

end Canonical

/-! ## Looking up -/

/-- A table grows by missing references among some, of which no struct, union or typedef was
missing. -/
structure GrowsBy (t : TypeTable) (new : TypeRef → Prop) (t' : TypeTable) : Prop where
  canonical : t'.Canonical
  grows : t.Extends t'
  registered : ∀ ref, t'.Registered ref ↔ t.Registered ref ∨ new ref
  named : ∀ ref, new ref → ref.isNamed = true → t.Registered ref

namespace GrowsBy

theorem refl (h : t.Canonical) (hnew : ∀ ref, new ref → t.Registered ref) : t.GrowsBy new t where
  canonical := h
  grows := .refl
  registered := fun ref => ⟨.inl, fun hr => hr.elim id (hnew ref)⟩
  named := fun ref hr _ => hnew ref hr

/-- What is new after two steps is new after one of them. -/
theorem trans (h : t.GrowsBy new t₁) (h' : t₁.GrowsBy new' t₂) :
    t.GrowsBy (fun ref => new ref ∨ new' ref) t₂ where
  canonical := h'.canonical
  grows := h.grows.trans h'.grows
  registered := fun ref => by rw [h'.registered, h.registered, or_assoc]
  named := by
    rintro ref (hr | hr) hn
    · exact h.named ref hr hn
    · exact ((h.registered ref).1 (h'.named ref hr hn)).elim id fun hr => h.named ref hr hn

theorem congr (h : t.GrowsBy new t') (hiff : ∀ ref, new ref ↔ new' ref) : t.GrowsBy new' t' := by
  obtain rfl : new = new' := funext fun ref => propext (hiff ref)
  exact h

/-- One more derived type, built from types that are there. -/
theorem put (h : t.GrowsBy new t₁) (hmissing : ¬ t.Registered ref) (hnew : ¬ new ref)
    (hn : ref.isNamed = false) (hm : t₁.Mirrors ref info) (hd : info.IsDerived t₁.size) :
    ∃ t' id, t₁.put ref info = .ok (t', id) ∧ t.GrowsBy (fun r => new r ∨ r = ref) t' := by
  have hnone : t₁.lookup? ref = none :=
    not_registered_iff.1 fun hr => ((h.registered ref).1 hr).elim hmissing hnew
  have hext : t₁.Extends (t₁.append ref info) := .put .refl hnone hd
  refine ⟨_, _, put_eq_ok_iff.2 ⟨hnone, rfl, rfl⟩, h.trans ⟨?_, hext, ?_, ?_⟩⟩
  · exact h.canonical.append hnone (hm.mono rfl fun _ _ hl => hext.lookup? hl)
  · exact fun r => registered_append
  · rintro r rfl hnamed
    rw [hn] at hnamed
    cases hnamed

end GrowsBy

/-- A lookup stops at a struct, a union or a typedef that is not registered, or adds what it
meets. -/
def Finds (t : TypeTable) (ref : TypeRef) : Prop :=
  (∃ part : TypeRef, part.Occurs ref ∧ part.isNamed = true ∧ ¬ t.Registered part ∧
    t.intern ref = .error (.undefinedType part)) ∨
  ∃ t' id, t.intern ref = .ok (t', id) ∧ t.GrowsBy (·.Occurs ref) t'

/-- Lookups one after another stop at the first one that does. -/
theorem finds_all (h : t.Canonical)
    (hfinds : ∀ ref ∈ refs, ∀ t : TypeTable, t.Canonical → t.Finds ref) :
    (∃ part : TypeRef, (∃ ref ∈ refs, part.Occurs ref) ∧ part.isNamed = true ∧
      ¬ t.Registered part ∧ t.internAll refs = .error (.undefinedType part)) ∨
    ∃ t' ids, t.internAll refs = .ok (t', ids) ∧
      t.GrowsBy (fun r => ∃ ref ∈ refs, r.Occurs ref) t' ∧
      List.Forall₂ (fun ref id => t'.lookup? ref = some id) refs ids := by
  -- induction on the references; each one is registered in the table that the ones before it have
  -- left
  induction refs generalizing t with
  | nil => exact .inr ⟨t, [], rfl, .refl h (by simp), .nil⟩
  | cons ref refs ih =>
    rw [internAll]
    rcases hfinds ref List.mem_cons_self t h with
      ⟨part, hocc, hn, hmissing, herr⟩ | ⟨t₁, id, hid, hgrows⟩
    · exact .inl ⟨part, ⟨ref, List.mem_cons_self, hocc⟩, hn, hmissing, by rw [herr]; rfl⟩
    · rw [hid]
      rcases ih hgrows.canonical fun r hr => hfinds r (List.mem_cons_of_mem _ hr) with
        ⟨part, ⟨r, hr, hocc⟩, hn, hmissing, herr⟩ | ⟨t₂, ids, hids, hgrows', hlookup⟩
      · refine .inl ⟨part, ⟨r, List.mem_cons_of_mem _ hr, hocc⟩, hn, fun hreg => ?_, ?_⟩
        -- what is missing later was missing before, as nothing named is ever registered on the way
        · exact hmissing ((hgrows.registered part).2 (.inl hreg))
        · change (t₁.internAll refs >>= _) = _
          rw [herr]
          rfl
      · refine .inr ⟨t₂, id :: ids, ?_, (hgrows.trans hgrows').congr fun r => by simp, ?_⟩
        · exact bind_eq_ok_iff.2 ⟨_, rfl, bind_eq_ok_iff.2 ⟨_, hids, rfl⟩⟩
        · exact .cons (hgrows'.grows.lookup? (intern_lookup? hid)) hlookup

/-- Where the one part of a derived type is found, so is the type. -/
theorem finds_of_part (hfinds : t.Finds part) (hsmall : ¬ ref.Occurs part)
    (hocc : ∀ r : TypeRef, r.Occurs ref ↔ r.Occurs part ∨ r = ref) (hn : ref.isNamed = false)
    (make : TypeId → TypeInfo)
    (hd : ∀ (n : Nat) (base : TypeId), base.index < n → (make base).IsDerived n)
    (hm : ∀ (t : TypeTable) (base : TypeId), t.lookup? part = some base → t.Mirrors ref (make base))
    (hmissing : ¬ t.Registered ref)
    (hintern : t.intern ref = t.intern part >>= fun r => r.1.put ref (make r.2)) :
    t.Finds ref := by
  rw [Finds, hintern]
  rcases hfinds with ⟨named, hnamed, hn, hunknown, herr⟩ | ⟨t₁, base, hbase, hgrows⟩
  · refine .inl ⟨named, (hocc named).2 (.inl hnamed), hn, hunknown, ?_⟩
    rw [herr]
    rfl
  · obtain ⟨t', id, hput, hgrows'⟩ := hgrows.put hmissing hsmall hn
      (hm t₁ base (intern_lookup? hbase)) (hd _ base (intern_extends hbase).2)
    exact .inr ⟨t', id, bind_eq_ok_iff.2 ⟨_, hbase, hput⟩, hgrows'.congr fun r => (hocc r).symm⟩

/-- What a function is built from is looked up first. -/
theorem finds_function {ret : TypeRef} {params : List TypeRef} {vararg : Bool}
    (hret : t.Finds ret)
    (hparams : ∀ p ∈ params.map TypeRef.asParam, ∀ t : TypeTable, t.Canonical → t.Finds p)
    (hmissing : ¬ t.Registered (.function ret params vararg)) :
    t.Finds (.function ret params vararg) := by
  have hintern : t.intern (.function ret params vararg) = t.intern ret >>= fun r =>
      r.1.internAll (params.map TypeRef.asParam) >>= fun ps =>
        ps.1.put (.function ret params vararg) (.function ⟨r.2, ps.2, vararg⟩) := by
    rw [intern, not_registered_iff.1 hmissing]
    simp only [internParams_eq]
  rw [Finds, hintern]
  rcases hret with ⟨named, hnamed, hn, hunknown, herr⟩ | ⟨t₁, r, hr, hgrows⟩
  · refine .inl ⟨named, .ret hnamed, hn, hunknown, ?_⟩
    rw [herr]
    rfl
  -- the result is registered first, and only then the parameters
  rw [hr]
  rcases finds_all hgrows.canonical hparams with
    ⟨named, hnamed, hn, hunknown, herr⟩ | ⟨t₂, ids, hids, hgrows', hlookup⟩
  · refine .inl ⟨named, TypeRef.occurs_function_iff.2 (.inl (.inr hnamed)), hn, fun hreg => ?_, ?_⟩
    · exact hunknown ((hgrows.registered named).2 (.inl hreg))
    · change (t₁.internAll _ >>= _) = _
      rw [herr]
      rfl
  · have hr' := hgrows'.grows.lookup? (intern_lookup? hr)
    have hm : t₂.Mirrors (.function ret params vararg) (.function ⟨r, ids, vararg⟩) :=
      .function hr' (List.forall₂_map_left_iff.1 hlookup)
    obtain ⟨t', id, hput, hgrows''⟩ := (hgrows.trans hgrows').put hmissing
      TypeRef.not_occurs_function rfl hm ⟨lt_of_lookup? hr', (internAll_extends hids).2.2⟩
    refine .inr ⟨t', id, ?_, hgrows''.congr fun r => TypeRef.occurs_function_iff.symm⟩
    exact bind_eq_ok_iff.2 ⟨_, rfl, bind_eq_ok_iff.2 ⟨_, hids, hput⟩⟩

/-- What a lookup in a canonical table does. -/
theorem Canonical.finds : ∀ {t : TypeTable} (_ : t.Canonical) (ref : TypeRef), t.Finds ref := by
  intro t h ref
  -- a type that is registered already is found; its parts are registered with it
  by_cases hreg : t.Registered ref
  · obtain ⟨id, hid⟩ := hreg
    refine .inr ⟨t, id, by rw [intern.eq_def, hid], .refl h fun r hr => ?_⟩
    exact h.registered_of_occurs hr ⟨id, hid⟩
  have hnone := not_registered_iff.1 hreg
  cases ref with
  | void => exact (hreg h.void).elim
  | integer rank signed => exact (hreg (h.integer rank signed)).elim
  -- a named type cannot be registered, as only its definition does that
  | struct name | union name | typedef name =>
    exact .inl ⟨_, .self, rfl, hreg, by rw [intern.eq_def, hnone]⟩
  | pointer base =>
    refine finds_of_part (Canonical.finds h base) (TypeRef.not_occurs_of_lt (by simp))
      (fun r => TypeRef.occurs_pointer_iff) rfl .pointer (fun n b hb => hb)
      (fun t b hb => .pointer hb) hreg ?_
    rw [intern.eq_def, hnone]
  | array base length =>
    refine finds_of_part (Canonical.finds h base)
      (TypeRef.not_occurs_of_lt (by simp only [TypeRef.array.sizeOf_spec]; omega))
      (fun r => TypeRef.occurs_array_iff) rfl (.array · length) (fun n b hb => hb)
      (fun t b hb => .array hb) hreg ?_
    rw [intern.eq_def, hnone]
  | function ret params vararg =>
    refine finds_function (Canonical.finds h ret) (fun p hp t ht => ?_) hreg
    have hlt : SizeOf.sizeOf p < SizeOf.sizeOf (TypeRef.function ret params vararg) :=
      TypeRef.sizeOf_param_lt hp
    exact Canonical.finds ht p
termination_by _ _ ref => SizeOf.sizeOf ref
decreasing_by
  · simp
  · simp only [TypeRef.array.sizeOf_spec]
    omega
  · simp only [TypeRef.function.sizeOf_spec]
    omega
  · exact hlt

/-- Registering a reference adds nothing but its parts. -/
theorem Canonical.intern (h : t.Canonical) (hi : t.intern ref = .ok (t', id)) :
    t.GrowsBy (·.Occurs ref) t' := by
  rcases h.finds ref with ⟨_, _, _, _, herr⟩ | ⟨t₁, id', hok, hgrows⟩
  · rw [herr] at hi
    cases hi
  · obtain ⟨rfl, -⟩ := Prod.mk.inj (Except.ok.inj (hok.symm.trans hi))
    exact hgrows

/-- Registering several references adds nothing but their parts, and finds all of them. -/
theorem Canonical.internAll (h : t.Canonical) (hi : t.internAll refs = .ok (t', ids)) :
    t.GrowsBy (fun r => ∃ ref ∈ refs, r.Occurs ref) t' ∧
      List.Forall₂ (fun ref id => t'.lookup? ref = some id) refs ids := by
  rcases finds_all h fun ref _ t ht => ht.finds ref with
    ⟨_, _, _, _, herr⟩ | ⟨t₁, ids', hok, hgrows, hlookup⟩
  · rw [herr] at hi
    cases hi
  · obtain ⟨rfl, rfl⟩ := Prod.mk.inj (Except.ok.inj (hok.symm.trans hi))
    exact ⟨hgrows, hlookup⟩

/-- Where a lookup stops, a struct, a union or a typedef that is mentioned is missing. -/
theorem Canonical.intern_error {fault : Fault} (h : t.Canonical)
    (herr : t.intern ref = .error fault) : ∃ part ∈ ref.parts, part.isNamed = true ∧
      t.lookup? part = none ∧ fault = .undefinedType part := by
  rcases h.finds ref with ⟨part, hocc, hn, hmissing, herr'⟩ | ⟨t', id, hok, -⟩
  · exact ⟨part, (TypeRef.mem_parts_iff_occurs hn).2 hocc, hn, not_registered_iff.1 hmissing,
      Except.error.inj (herr.symm.trans herr')⟩
  · rw [hok] at herr
    cases herr

/-- Registering fails exactly where a struct, union, enum or typedef was never defined. -/
theorem Canonical.intern_error_iff (h : t.Canonical) :
    (∃ fault, t.intern ref = .error fault) ↔
      ∃ part ∈ ref.parts, part.isNamed = true ∧ t.lookup? part = none := by
  constructor
  · rintro ⟨fault, herr⟩
    obtain ⟨part, hpart, hn, hmissing, -⟩ := h.intern_error herr
    exact ⟨part, hpart, hn, hmissing⟩
  · rintro ⟨part, hpart, hn, hmissing⟩
    rcases h.finds ref with ⟨_, _, _, _, herr⟩ | ⟨t', id, hok, hgrows⟩
    · exact ⟨_, herr⟩
    · have hocc := (TypeRef.mem_parts_iff_occurs hn).1 hpart
      exact (not_registered_iff.2 hmissing (hgrows.named part hocc hn)).elim

end TypeTable

end Backend386
