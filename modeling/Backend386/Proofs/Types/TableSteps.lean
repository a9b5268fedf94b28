import Mathlib.Logic.Relation
import Backend386.Proofs.Types.Canonical

/-!
# Every sequence of operations on the type table

Whatever is defined, looked up and settled, in any order, the table stays canonical, and what is in
it stays as it is, except that a part which was pending is settled once, to the number of its own
reference.

* `TypeTable.Settles` — what settling may change of a type;
* `TypeTable.Keeps` — what an operation leaves as it is;
* `TypeTable.Step`, `TypeTable.canonical_of_steps` — the operations, and what holds after any
  number of them.
-/

namespace Backend386

/-- The references by which a type names its members or its real type. -/
def TypeInfo.mentions : TypeInfo → List TypeRef
  | composite c => c.members.map (·.ref)
  | typedef d => [d.ref]
  | _ => []

namespace TypeTable

variable {t t' t₁ t₂ : TypeTable} {id : TypeId} {ref : TypeRef} {info info' info'' : TypeInfo}

/-! ## Settling one type -/

/-- A part that was pending may be settled, to the number of its own reference. -/
inductive PartSettles (t : TypeTable) (ref : TypeRef) :
    Deferred TypeId → Deferred TypeId → Prop where
  | same (part : Deferred TypeId) : PartSettles t ref part part
  | settle {id : TypeId} (h : t.lookup? ref = some id) : PartSettles t ref .pending (.settled id)

/-- A member of which nothing but the type may have been settled. -/
def MemberSettles (t : TypeTable) (m m' : Member) : Prop :=
  ∃ type, m' = { m with type } ∧ t.PartSettles m.ref m.type type

/-- A type of which nothing but parts may have been settled. -/
inductive Settles (t : TypeTable) : TypeInfo → TypeInfo → Prop where
  | same (info : TypeInfo) : Settles t info info
  | composite {c : Composite} {members : List Member}
    (h : List.Forall₂ t.MemberSettles c.members members) :
    Settles t (.composite c) (.composite { c with members })
  | typedef {d : Typedef} {real : Deferred TypeId} (h : t.PartSettles d.ref d.real real) :
    Settles t (.typedef d) (.typedef { d with real })

/-- A part that is settled twice is settled. -/
theorem PartSettles.trans {part part' part'' : Deferred TypeId}
    (hl : ∀ ref id, t.lookup? ref = some id → t'.lookup? ref = some id)
    (h : t.PartSettles ref part part') (h' : t'.PartSettles ref part' part'') :
    t'.PartSettles ref part part'' := by
  cases h with
  | same => exact h'
  | settle h =>
    cases h'
    exact .settle (hl _ _ h)

/-- So is a member. -/
theorem MemberSettles.trans {m m' m'' : Member}
    (hl : ∀ ref id, t.lookup? ref = some id → t'.lookup? ref = some id)
    (h : t.MemberSettles m m') (h' : t'.MemberSettles m' m'') : t'.MemberSettles m m'' := by
  obtain ⟨type, rfl, hp⟩ := h
  obtain ⟨type', rfl, hp'⟩ := h'
  exact ⟨type', rfl, hp.trans hl hp'⟩

/-- So are the members of a type. -/
theorem forall₂_memberSettles_trans {ms ms' ms'' : List Member}
    (hl : ∀ ref id, t.lookup? ref = some id → t'.lookup? ref = some id)
    (h : List.Forall₂ t.MemberSettles ms ms') (h' : List.Forall₂ t'.MemberSettles ms' ms'') :
    List.Forall₂ t'.MemberSettles ms ms'' := by
  induction h generalizing ms'' with
  | nil => exact h'
  | cons hm _ ih =>
    obtain _ | ⟨hm', hrest⟩ := h'
    exact .cons (hm.trans hl hm') (ih hrest)

theorem MemberSettles.refl (t : TypeTable) (m : Member) : t.MemberSettles m m :=
  ⟨m.type, rfl, .same _⟩

/-- So is the information on a type. -/
theorem Settles.trans (hl : ∀ ref id, t.lookup? ref = some id → t'.lookup? ref = some id)
    (h : t.Settles info info') (h' : t'.Settles info' info'') : t'.Settles info info'' := by
  cases h with
  | same => exact h'
  | @composite c members h =>
    obtain ⟨members', hm, rfl⟩ : ∃ members', List.Forall₂ t'.MemberSettles members members' ∧
        info'' = .composite { c with members := members' } := by
      cases h' with
      | same =>
        exact ⟨members, List.forall₂_same.2 fun m _ => .refl t' m, rfl⟩
      | composite h' => exact ⟨_, h', rfl⟩
    exact .composite (forall₂_memberSettles_trans hl h hm)
  | @typedef d real h =>
    obtain ⟨real', hr, rfl⟩ : ∃ real', t'.PartSettles d.ref real real' ∧
        info'' = .typedef { d with real := real' } := by
      cases h' with
      | same => exact ⟨real, .same _, rfl⟩
      | typedef h' => exact ⟨_, h', rfl⟩
    exact .typedef (h.trans hl hr)

/-- A type keeps its shape when parts of it are settled. -/
theorem Mirrors.of_settles (h : t.Mirrors ref info) (hs : t.Settles info info') :
    t.Mirrors ref info' := by
  have hpart {r : TypeRef} {part : Deferred TypeId} {id : TypeId}
      (hp : t.PartSettles r part (.settled id))
      (hold : part = .settled id → t.lookup? r = some id) : t.lookup? r = some id := by
    cases hp with
    | same => exact hold rfl
    | settle h => exact h
  -- links that are settled already stay as they are, and the others get the number of their
  -- reference
  cases hs with
  | same => exact h
  | @composite c members hs =>
    have hmember (hm : ∀ m ∈ c.members, ∀ id, m.type = .settled id → t.lookup? m.ref = some id)
        (m' : Member) (hmem : m' ∈ members) (id : TypeId) (hid : m'.type = .settled id) :
        t.lookup? m'.ref = some id := by
      obtain ⟨m, hold, type, rfl, hp⟩ := forall₂_mem_right hs hmem
      obtain rfl : type = .settled id := hid
      exact hpart hp (hm m hold id)
    cases h with
    | struct hk hm => exact .struct (c := { c with members }) hk (hmember hm)
    | union hk hm => exact .union (c := { c with members }) hk (hmember hm)
  | @typedef d real hs =>
    cases h with
    | typedef hr =>
      refine .typedef (d := { d with real }) fun id hid => ?_
      obtain rfl : real = .settled id := hid
      exact hpart hs (hr id)

/-- Pending members get the numbers of their own references. -/
theorem forall₂_settleMembers {members : List Member} {ids : List TypeId}
    (h : List.Forall₂ (fun ref id => t.lookup? ref = some id) (pendingRefs members) ids) :
    List.Forall₂ t.MemberSettles members (settleMembers members ids) := by
  fun_induction settleMembers members ids with
  | case1 => exact .nil
  | case2 ms => exact List.forall₂_same.2 fun m _ => .refl t m
  | case3 m ms id ids hset ih =>
    rw [pendingRefs, List.filter_cons_of_neg (by simpa using hset)] at h
    exact .cons (.refl t m) (ih h)
  | case4 m ms id ids hset ih =>
    rw [pendingRefs, List.filter_cons_of_pos (by simpa using hset), List.map_cons] at h
    obtain _ | ⟨hid, hrest⟩ := h
    have hpending : m.type = .pending := by
      cases hm : m.type with
      | pending => rfl
      | settled id' => simp [hm, Deferred.isSettled] at hset
    exact .cons ⟨.settled id, rfl, hpending ▸ .settle hid⟩ (ih hrest)

/-! ## What is kept -/

/-- Every type keeps its number and its reference, and all of it that is settled. -/
structure Keeps (t t' : TypeTable) : Prop where
  refs : ∀ id ref, t.refOf id = .ok ref → t'.refOf id = .ok ref
  infos : ∀ id info, t.info id = .ok info → ∃ info', t'.info id = .ok info' ∧ t'.Settles info info'

namespace Keeps

theorem of_extends (h : t.Extends t') : t.Keeps t' where
  refs := fun _ _ hr => h.refOf hr
  infos := fun id info hi => ⟨info, h.lasts (·.info id) hi, .same info⟩

/-- Canonical tables that keep types also find them again. -/
theorem lookup? (h : t.Keeps t') (hc' : t'.Canonical)
    (hl : t.lookup? ref = some id) : t'.lookup? ref = some id :=
  hc'.lookup?.2 (h.refs _ _ (refOf_of_lookup? hl))

/-- A table that is kept twice is kept. -/
theorem trans (h : t.Keeps t₁) (h' : t₁.Keeps t₂) (hc : t₂.Canonical) : t.Keeps t₂ where
  refs := fun id ref hr => h'.refs id ref (h.refs id ref hr)
  infos := by
    intro id info hi
    obtain ⟨info₁, hi₁, hs₁⟩ := h.infos id info hi
    obtain ⟨info₂, hi₂, hs₂⟩ := h'.infos id info₁ hi₁
    exact ⟨info₂, hi₂, hs₁.trans (fun _ _ => h'.lookup? hc) hs₂⟩

end Keeps

theorem setInfo_refs (t : TypeTable) (id : TypeId) (info : TypeInfo) :
    (t.setInfo id info).entries.map (·.ref) = t.entries.map (·.ref) := by
  refine List.ext_getElem? fun i => ?_
  simp only [setInfo, List.getElem?_map, List.getElem?_modify]
  split <;> simp [Function.comp_def]

/-- Replacing information changes no references. -/
@[simp] theorem setInfo_lookup? : (t.setInfo id info).lookup? ref = t.lookup? ref := by
  have hmap (t : TypeTable) :
      t.entries.findIdx? (·.ref = ref) = (t.entries.map (·.ref)).findIdx? (· = ref) := by
    rw [List.findIdx?_map]
    rfl
  rw [TypeTable.lookup?, TypeTable.lookup?, hmap, hmap, setInfo_refs]

/-- Settling parts of one type. -/
theorem Canonical.setInfo (h : t.Canonical) (hi : t.info id = .ok info)
    (hs : t.Settles info info') :
    (t.setInfo id info').Canonical ∧ t.Keeps (t.setInfo id info') := by
  -- references are never changed, so that only one entry has to be looked at again
  have hcanonical : (t.setInfo id info').Canonical := by
    refine ⟨by rw [setInfo_refs]; exact h.nodup, ?_, ?_, ?_⟩
    · exact h.void.imp fun _ hl => by rwa [setInfo_lookup?]
    · exact fun rank signed => (h.integer rank signed).imp fun _ hl => by rwa [setInfo_lookup?]
    · intro e he
      refine Mirrors.mono (t := t) ?_ rfl fun _ _ hl => by rwa [setInfo_lookup?]
      obtain ⟨i, hget⟩ := List.mem_iff_getElem?.1 he
      simp only [TypeTable.setInfo, List.getElem?_modify] at hget
      obtain ⟨e', he', rfl⟩ := Option.map_eq_some_iff.1 hget
      have hm := h.mirrors e' (List.mem_of_getElem? he')
      split
      · next heq =>
        obtain ⟨e'', he'', rfl⟩ := info_eq_ok_iff.1 hi
        rw [heq, he'] at he''
        obtain rfl := Option.some.inj he''
        exact hm.of_settles hs
      · exact hm
  refine ⟨hcanonical, fun id' ref hr => ?_, fun id' old hold => ?_⟩
  · have hl := h.lookup?.2 hr
    exact refOf_of_lookup? (by rwa [setInfo_lookup?])
  · by_cases heq : id'.index = id.index
    · obtain rfl : id' = id := by cases id'; cases id; cases heq; rfl
      obtain rfl := Except.ok.inj (hi.symm.trans hold)
      have hlt : id'.index < (t.setInfo id' info').size := by simpa using lt_of_info hi
      obtain ⟨new, hnew⟩ := exists_info_iff.2 hlt
      obtain rfl := setInfo_info_self hnew
      exact ⟨new, hnew, hs.trans (fun _ _ hl => by rwa [setInfo_lookup?]) (.same _)⟩
    · exact ⟨old, by rwa [setInfo_info_of_ne heq], .same _⟩

/-- A table stays canonical and keeps what is there when a type is settled, which registers no
struct, union or typedef, and nothing that the type does not mention. -/
structure SettlesType (t : TypeTable) (info : TypeInfo) (t' : TypeTable) : Prop where
  canonical : t'.Canonical
  keeps : t.Keeps t'
  registered : ∀ ref, t'.Registered ref → t.Registered ref ∨
    ref.isNamed = false ∧ ∃ m ∈ info.mentions, ref.Occurs m

theorem SettlesType.refl (h : t.Canonical) (info : TypeInfo) : t.SettlesType info t :=
  ⟨h, .of_extends .refl, fun _ => .inl⟩

/-- The parts of a type are looked up, which changes nothing of what is there, and put in their
place. -/
theorem settlesType_setInfo {new : TypeRef → Prop} (hinfo : t.info id = .ok info)
    (hg : t.GrowsBy new t₁) (hs : t₁.Settles info info')
    (hnew : ∀ ref, new ref → ∃ m ∈ info.mentions, ref.Occurs m) :
    t.SettlesType info (t₁.setInfo id info') := by
  obtain ⟨hc, hk⟩ := hg.canonical.setInfo (hg.grows.lasts (·.info id) hinfo) hs
  refine ⟨hc, (Keeps.of_extends hg.grows).trans hk hc, fun ref hr => ?_⟩
  rw [Registered, setInfo_lookup?] at hr
  rcases (hg.registered ref).1 hr with hr | hr
  · exact .inl hr
  · cases hn : ref.isNamed with
    | false => exact .inr ⟨rfl, hnew ref hr⟩
    | true => exact .inl (hg.named ref hr hn)

theorem mem_mentions_of_pendingRefs {c : Composite} (h : ref ∈ pendingRefs c.members) :
    ref ∈ (TypeInfo.composite c).mentions := by
  obtain ⟨m, hm, rfl⟩ := List.mem_map.1 h
  exact List.mem_map_of_mem (List.mem_of_mem_filter hm)

/-- Settling a definition settles one type. -/
theorem Canonical.settleDefinition (h : t.Canonical) (hs : t.settleDefinition id = .ok t') :
    ∃ info, t.info id = .ok info ∧ t.SettlesType info t' := by
  obtain ⟨info, hinfo, hs⟩ := bind_eq_ok_iff.1 hs
  refine ⟨info, hinfo, ?_⟩
  -- the parts are registered before the info is replaced, so the table grows first
  cases info with
  | composite c =>
    obtain ⟨⟨t₁, ids⟩, hids, hs⟩ := bind_eq_ok_iff.1 hs
    obtain ⟨hg, hlookup⟩ := h.internAll hids
    obtain rfl := Except.ok.inj hs
    refine settlesType_setInfo hinfo hg (.composite (forall₂_settleMembers hlookup)) ?_
    rintro ref ⟨m, hm, hocc⟩
    exact ⟨m, mem_mentions_of_pendingRefs hm, hocc⟩
  | typedef d =>
    dsimp only at hs
    split at hs
    · obtain rfl := Except.ok.inj hs
      exact .refl h _
    · next hpending =>
      obtain ⟨⟨t₁, real⟩, hreal, hs⟩ := bind_eq_ok_iff.1 hs
      obtain rfl := Except.ok.inj hs
      have hnot : d.real = .pending := by
        cases hd : d.real with
        | pending => rfl
        | settled id' => simp [hd, Deferred.isSettled] at hpending
      refine settlesType_setInfo hinfo (h.intern hreal) (.typedef ?_) fun ref hocc => ?_
      · rw [hnot]
        exact .settle (intern_lookup? hreal)
      · exact ⟨d.ref, List.mem_singleton_self _, hocc⟩
  | _ =>
    obtain rfl := Except.ok.inj hs
    exact .refl h _

/-- A type is settled if the structs, unions and typedefs that it mentions are registered. -/
theorem Canonical.exists_settleDefinition (h : t.Canonical) (hinfo : t.info id = .ok info)
    (hm : ∀ m ∈ info.mentions, ∀ part : TypeRef, part.Occurs m → part.isNamed = true →
      t.Registered part) : ∃ t', t.settleDefinition id = .ok t' := by
  rw [TypeTable.settleDefinition, hinfo]
  cases info with
  | composite c =>
    rcases finds_all h fun ref _ t ht => ht.finds ref with
      ⟨part, ⟨ref, href, hocc⟩, hn, hmissing, -⟩ | ⟨t₁, ids, hids, -⟩
    · exact (hmissing (hm ref (mem_mentions_of_pendingRefs href) part hocc hn)).elim
    · exact ⟨_, bind_eq_ok_iff.2 ⟨_, rfl, bind_eq_ok_iff.2 ⟨_, hids, rfl⟩⟩⟩
  | typedef d =>
    change ∃ t', (if d.real.isSettled then _ else _) = _
    split
    · exact ⟨t, rfl⟩
    · rcases h.finds d.ref with ⟨part, hocc, hn, hmissing, -⟩ | ⟨t₁, real, hreal, -⟩
      · exact (hmissing (hm d.ref (List.mem_singleton_self _) part hocc hn)).elim
      · exact ⟨_, bind_eq_ok_iff.2 ⟨_, hreal, rfl⟩⟩
  | _ => exact ⟨t, rfl⟩

/-- Settling types one after another keeps the table canonical. -/
theorem Canonical.settleDefinitions {is : List Nat} (h : t.Canonical)
    (hs : is.foldlM (fun t i => t.settleDefinition ⟨i⟩) t = .ok t') :
    t'.Canonical ∧ t.Keeps t' := by
  induction is generalizing t with
  | nil =>
    obtain rfl := Except.ok.inj hs
    exact ⟨h, .of_extends .refl⟩
  | cons i is ih =>
    rw [List.foldlM_cons] at hs
    obtain ⟨t₁, h₁, hs⟩ := bind_eq_ok_iff.1 hs
    obtain ⟨info, -, hsettles⟩ := h.settleDefinition h₁
    obtain ⟨hc', hk'⟩ := ih hsettles.canonical hs
    exact ⟨hc', hsettles.keeps.trans hk' hc'⟩

/-! ## Sequences of operations -/

/-- One operation on the table that does not stop with a fault. -/
inductive Step (t t' : TypeTable) : Prop where
  | define {d : TypeDefinition} {id : TypeId} (h : t.define d = .ok (t', id))
  | intern {ref : TypeRef} {id : TypeId} (h : t.intern ref = .ok (t', id))
  | internParam {ref : TypeRef} {id : TypeId} (h : t.internParam ref = .ok (t', id))
  | pointerTo {base id : TypeId} (h : t.pointerTo base = .ok (t', id))
  | settleDefinitions (h : t.settleDefinitions = .ok t')

/-- Definitions, lookups and rounds of settling are all there is. -/
theorem Step.cases (h : Step t t') :
    (∃ d id, t.define d = .ok (t', id)) ∨ (∃ ref id, t.intern ref = .ok (t', id)) ∨
      t.settleDefinitions = .ok t' := by
  cases h with
  | define h => exact .inl ⟨_, _, h⟩
  | intern h => exact .inr (.inl ⟨_, _, h⟩)
  | internParam h =>
    rw [internParam_eq] at h
    exact .inr (.inl ⟨_, _, h⟩)
  | pointerTo h =>
    obtain ⟨ref, -, h⟩ := bind_eq_ok_iff.1 h
    exact .inr (.inl ⟨_, _, h⟩)
  | settleDefinitions h => exact .inr (.inr h)

/-- No operation loses what the table is. -/
theorem Canonical.step (h : t.Canonical) (hs : Step t t') : t'.Canonical ∧ t.Keeps t' := by
  rcases hs.cases with ⟨d, id, hd⟩ | ⟨ref, id, hi⟩ | hs
  · obtain ⟨hnew, rfl, rfl⟩ := put_eq_ok_iff.1 hd
    refine ⟨h.append hnew (mirrors_ofDefinition _ d), fun id ref hr => ?_, fun id info hi => ?_⟩
    · refine refOf_of_lookup? ?_
      rw [lookup?_append, h.lookup?.2 hr]
      rfl
    · exact ⟨info, by rwa [append_info (lt_of_info hi)], .same info⟩
  · have hg := h.intern hi
    exact ⟨hg.canonical, .of_extends hg.grows⟩
  · exact h.settleDefinitions hs

/-- The tables that the operations lead to. -/
theorem reachable_of_steps {profile : WidthProfile}
    (h : Relation.ReflTransGen Step (initial profile) t) : Reachable profile t := by
  induction h with
  | refl => exact .initial
  | tail _ hs ih =>
    rcases hs.cases with ⟨d, id, hd⟩ | ⟨ref, id, hi⟩ | hs
    · exact ih.define hd
    · exact ih.intern hi
    · exact ih.settle hs

theorem Canonical.of_steps {profile : WidthProfile}
    (h : Relation.ReflTransGen Step (TypeTable.initial profile) t) : t.Canonical := by
  induction h with
  | refl => exact .initial profile
  | tail _ hs ih => exact (ih.step hs).1

/-- A pointer to a type of the table is found, and leads back to the type. -/
theorem Canonical.pointerTo (h : t.Canonical) {base : TypeId} (hb : base.index < t.size) :
    ∃ t' id, t.pointerTo base = .ok (t', id) ∧ t'.baseType id = .ok base := by
  obtain ⟨info, hinfo⟩ := exists_info_iff.2 hb
  obtain ⟨e, he, -⟩ := info_eq_ok_iff.1 hinfo
  have href : t.refOf base = .ok e.ref := refOf_eq_ok_iff.2 ⟨e, he, rfl⟩
  have hlookup := h.lookup?.2 href
  have heq : t.pointerTo base = t.intern (.pointer e.ref) := by
    rw [TypeTable.pointerTo, href]
    rfl
  -- the reference of the base is registered, so that no name can be missing in that of the pointer
  rcases h.finds (.pointer e.ref) with ⟨part, hocc, hn, hmissing, -⟩ | ⟨t', id, hid, hgrows⟩
  · rcases TypeRef.occurs_pointer_iff.1 hocc with hocc | rfl
    · exact (hmissing (h.registered_of_occurs hocc ⟨_, hlookup⟩)).elim
    · cases hn
  · refine ⟨t', id, heq.trans hid, ?_⟩
    obtain ⟨info', hinfo', hm⟩ := hgrows.canonical.mirrors_of_refOf (intern_refOf hid)
    have hpointer : info' = .pointer base := by
      cases hm with
      | pointer hl =>
        rw [hgrows.grows.lookup? hlookup] at hl
        rw [Option.some.inj hl]
    subst hpointer
    have hreal : t'.realType id = .ok id := by
      rw [realType, realType?, followTypedefs, hinfo']
      rfl
    rw [baseType, realInfo, hreal]
    change (t'.info id >>= _) = _
    rw [hinfo']
    rfl

/-- Whatever sequence of operations leads to a table: its references and its numbers determine each
other, and looking up a reference that is there changes nothing. No operation changes what is there,
apart from settling parts that were pending, each to the number of its own reference, and behind
`settleDefinitions` nothing is pending. A lookup stops exactly where the reference mentions a
struct, a union or a typedef that is not registered, and for no other reason. Otherwise it registers
what it meets and misses, under the number of the reference stands a type of its shape over the
numbers of its parts, and the target of the pointer to a type is that type. -/
theorem canonical_of_steps {profile : WidthProfile}
    (h : Relation.ReflTransGen Step (initial profile) t) :
    (∀ id ref, t.lookup? ref = some id ↔ t.refOf id = .ok ref) ∧
    (∀ id : TypeId, (∃ ref, t.refOf id = .ok ref) ↔ id.index < t.size) ∧
    (∀ id ref, t.refOf id = .ok ref → t.intern ref = .ok (t, id)) ∧
    (∀ t', Step t t' → t.Keeps t') ∧
    (∀ t', t.settleDefinitions = .ok t' →
      ∀ id info, t'.info id = .ok info → .pending ∉ info.links) ∧
    (∀ ref, (∃ fault, t.intern ref = .error fault) ↔
      ∃ part ∈ ref.parts, part.isNamed = true ∧ t.lookup? part = none) ∧
    (∀ ref fault, t.intern ref = .error fault → ∃ part ∈ ref.parts, part.isNamed = true ∧
      t.lookup? part = none ∧ fault = .undefinedType part) ∧
    (∀ ref t' id, t.intern ref = .ok (t', id) →
      t'.refOf id = .ok ref ∧
      (∀ r, t'.Registered r ↔ t.Registered r ∨ r.Occurs ref) ∧
      ∃ info, t'.info id = .ok info ∧ t'.Mirrors ref info) ∧
    ∀ base : TypeId, base.index < t.size →
      ∃ t' id, t.pointerTo base = .ok (t', id) ∧ t'.baseType id = .ok base := by
  -- one statement for each operation: the table is canonical in between
  have hc := Canonical.of_steps h
  refine ⟨fun id ref => hc.lookup?, fun id => ?_, fun id ref hr => ?_, fun t' hs => (hc.step hs).2,
    fun t' hs id info hi hp => ?_, fun ref => hc.intern_error_iff, fun ref fault => hc.intern_error,
    fun ref t' id hi => ?_, fun base => hc.pointerTo⟩
  · rw [← exists_info_iff]
    simp only [refOf_eq_ok_iff, info_eq_ok_iff]
    grind
  · rw [intern.eq_def, hc.lookup?.2 hr]
  · obtain ⟨e, he, rfl⟩ := mem_of_info hi
    exact ((reachable_of_steps h).wellFormed.1.settle hs).1.settled e he hp
  · have hg := hc.intern hi
    exact ⟨intern_refOf hi, hg.registered, hg.canonical.mirrors_of_refOf (intern_refOf hi)⟩

/-- The name of the numbers in a list. -/
def numberName : String :=
  "number"

/-- The numbers of the list. -/
def fillNumber : TypeDefinition :=
  .typedef numberName (.integer .long false) none

/-- A list with a function that fills an array of numbers. -/
def fillList : TypeDefinition :=
  .composite .struct "list" [⟨"next", .pointer (.struct "list"), none⟩,
    ⟨"fill", .function .void [.array fillNumber.ref (some 3)] false, none⟩] none

/-- The definitions are settled behind a lookup. The array parameter became a pointer, which is
found again and leads to the numbers; a `struct word` is missing. -/
theorem canonical_of_steps_fill :
    ∃ t, Relation.ReflTransGen Step (initial .ilp32) t ∧
      (∃ id, t.refOf id = .ok (.pointer fillNumber.ref) ∧
        t.intern (.pointer fillNumber.ref) = .ok (t, id) ∧
        ∃ t' id', t.pointerTo id = .ok (t', id') ∧ t'.baseType id' = .ok id) ∧
      ∃ fault, t.intern (.pointer (.struct "word")) = .error fault := by
  have hdefine : Relation.ReflTransGen Step (initial .ilp32) _ :=
    .tail (.single (@Step.define _ _ fillList _ rfl)) (@Step.define _ _ fillNumber _ rfl)
  have hsteps := (hdefine.tail (@Step.intern _ _ (.array (.struct "list") none) _ rfl)).tail
    (.settleDefinitions rfl)
  obtain ⟨-, -, hintern, -, -, hfault, -, -, hpointer⟩ := canonical_of_steps hsteps
  exact ⟨_, hsteps, ⟨⟨13⟩, rfl, hintern ⟨13⟩ _ rfl, hpointer ⟨13⟩ (by decide)⟩,
    (hfault _).2 ⟨.struct "word", by decide, rfl, rfl⟩⟩

end TypeTable

end Backend386
