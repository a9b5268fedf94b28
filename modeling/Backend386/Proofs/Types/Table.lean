import Mathlib.Data.Nat.Basic
import Mathlib.Logic.Relation
import Mathlib.Order.Basic
import Backend386.Types.Table

/-!
# What the operations of the type table do

Looking up a reference appends derived types, each behind the types it is built from, and changes
nothing else. A definition is appended with its parts pending, and settling replaces the parts of
the definitions. So the parts of every type are in the table, and once the definitions are settled
none is pending any more.

* `TypeTable.Extends` — a table grows by derived types, as `TypeTable.intern_extends` shows;
* `TypeTable.WellFormed` — the parts of every type are in the table, and integers have the sizes of
  the profile;
* `TypeTable.Reachable` — the tables that definitions, lookups and settling lead to;
* `TypeTable.Settled` — those that are settled, perhaps with later lookups.
-/

namespace Backend386

/-- The types that a type refers to. -/
def TypeInfo.links : TypeInfo → List (Deferred TypeId)
  | void | integer .. => []
  | pointer base | array base _ => [.settled base]
  | composite c => c.members.map (·.type)
  | function f => .settled f.ret :: f.params.map .settled
  | typedef d => [d.real]

/-- A type that is built from other types, all of them in front of a position. -/
def TypeInfo.IsDerived (n : Nat) : TypeInfo → Prop
  | pointer base | array base _ => base.index < n
  | function f => f.ret.index < n ∧ ∀ p ∈ f.params, p.index < n
  | _ => False

/-- The parts of a derived type are settled, and in front of it. -/
theorem TypeInfo.IsDerived.link {n : Nat} {info : TypeInfo} (h : info.IsDerived n)
    {l : Deferred TypeId} (hl : l ∈ info.links) : ∃ id, l = .settled id ∧ id.index < n := by
  cases info with
  | pointer base => exact ⟨base, List.mem_singleton.1 hl, h⟩
  | array base length => exact ⟨base, List.mem_singleton.1 hl, h⟩
  | function f =>
    rcases List.mem_cons.1 hl with rfl | hl
    · exact ⟨f.ret, rfl, h.1⟩
    · obtain ⟨p, hp, rfl⟩ := List.mem_map.1 hl
      exact ⟨p, rfl, h.2 p hp⟩
  | _ => exact h.elim

namespace TypeTable

variable {t t' t₁ t₂ : TypeTable} {id : TypeId} {ref : TypeRef} {info : TypeInfo}

/-! ## Reading the table -/

theorem entry_eq_ok_iff {e : TypeEntry} :
    t.entry id = .ok e ↔ t.entries[id.index]? = some e := by
  rw [entry]
  cases t.entries[id.index]? <;> simp

/-- The information on a type is that of its entry. -/
theorem info_eq_ok_iff :
    t.info id = .ok info ↔ ∃ e, t.entries[id.index]? = some e ∧ e.info = info := by
  constructor
  · intro h
    obtain ⟨e, he, hi⟩ := bind_eq_ok_iff.1 h
    exact ⟨e, entry_eq_ok_iff.1 he, Except.ok.inj hi⟩
  · rintro ⟨e, he, rfl⟩
    rw [TypeTable.info, entry_eq_ok_iff.2 he]
    rfl

/-- Exactly the numbers below the size are types of the table. -/
theorem exists_info_iff : (∃ info, t.info id = .ok info) ↔ id.index < t.size := by
  constructor
  · rintro ⟨info, h⟩
    obtain ⟨e, he, -⟩ := info_eq_ok_iff.1 h
    exact (List.getElem?_eq_some_iff.1 he).1
  · intro h
    exact ⟨_, info_eq_ok_iff.2 ⟨_, List.getElem?_eq_getElem h, rfl⟩⟩

theorem lt_of_info (h : t.info id = .ok info) : id.index < t.size :=
  exists_info_iff.1 ⟨info, h⟩

theorem mem_of_info (h : t.info id = .ok info) : ∃ e ∈ t.entries, e.info = info := by
  obtain ⟨e, he, hi⟩ := info_eq_ok_iff.1 h
  exact ⟨e, List.mem_of_getElem? he, hi⟩

theorem lt_of_lookup? (h : t.lookup? ref = some id) : id.index < t.size := by
  obtain ⟨i, hi, rfl⟩ := Option.map_eq_some_iff.1 h
  exact (List.findIdx?_eq_some_iff_getElem.1 hi).1

/-! ## Growing -/

/-- The table with one more entry. -/
def append (t : TypeTable) (ref : TypeRef) (info : TypeInfo) : TypeTable :=
  { t with entries := t.entries ++ [⟨ref, info⟩] }

@[simp] theorem append_profile : (t.append ref info).profile = t.profile := rfl

@[simp] theorem append_size : (t.append ref info).size = t.size + 1 := by
  simp [append, size]

theorem mem_append {e : TypeEntry} :
    e ∈ (t.append ref info).entries ↔ e ∈ t.entries ∨ e = ⟨ref, info⟩ := by
  simp [append]

/-- Entries that are there stay where they are. -/
theorem append_info (h : id.index < t.size) : (t.append ref info).info id = t.info id := by
  have he : (t.append ref info).entries[id.index]? = t.entries[id.index]? :=
    List.getElem?_append_left h
  rw [TypeTable.info, TypeTable.info, entry, entry, he]

theorem append_info_last : (t.append ref info).info ⟨t.size⟩ = .ok info := by
  refine info_eq_ok_iff.2 ⟨⟨ref, info⟩, ?_, rfl⟩
  simp [append, size]

/-- A new reference is entered at the end. -/
theorem put_eq_ok_iff : t.put ref info = .ok (t', id) ↔
    t.lookup? ref = none ∧ t' = t.append ref info ∧ id = ⟨t.size⟩ := by
  rw [put]
  cases t.lookup? ref with
  | some _ => simp
  | none => simp [append, eq_comm]

/-- A table grows by derived types, each of them new and behind the types it is built from. -/
inductive Extends (t : TypeTable) : TypeTable → Prop where
  | refl : Extends t t
  | put {t' : TypeTable} {ref : TypeRef} {info : TypeInfo} (h : Extends t t')
    (hnew : t'.lookup? ref = none) (hd : info.IsDerived t'.size) : Extends t (t'.append ref info)

namespace Extends

theorem trans (h : t.Extends t₁) (h' : t₁.Extends t₂) : t.Extends t₂ := by
  induction h' with
  | refl => exact h
  | put _ hnew hd ih => exact .put ih hnew hd

theorem profile (h : t.Extends t') : t'.profile = t.profile := by
  induction h with
  | refl => rfl
  | put _ _ _ ih => exact ih

theorem size_le (h : t.Extends t') : t.size ≤ t'.size := by
  induction h with
  | refl => exact le_rfl
  | put _ _ _ ih => exact ih.trans (by simp)

/-- What the table knew it still knows. -/
theorem info_eq (h : t.Extends t') (hid : id.index < t.size) : t'.info id = t.info id := by
  induction h with
  | refl => rfl
  | put h _ _ ih => rw [append_info (hid.trans_le h.size_le), ih]

/-- What it did not know are derived types. -/
theorem derived (h : t.Extends t') (hid : t.size ≤ id.index) (hi : t'.info id = .ok info) :
    info.IsDerived id.index := by
  induction h with
  | refl => exact absurd (lt_of_info hi) (not_lt.2 hid)
  | @put t' ref _ h hnew hd ih =>
    by_cases hlt : id.index < t'.size
    · exact ih (by rwa [append_info hlt] at hi)
    · have hlast : id = ⟨t'.size⟩ := by
        have := lt_of_info hi
        rw [append_size] at this
        cases id
        simp only [TypeId.mk.injEq] at *
        omega
      subst hlast
      rw [append_info_last] at hi
      exact Except.ok.inj hi ▸ hd

end Extends

/-- Where a type is built from one other type, that one is looked up first. -/
theorem extends_put (h : t.Extends t₁) (hp : t₁.put ref info = .ok (t', id))
    (hd : info.IsDerived t₁.size) : t.Extends t' ∧ id.index < t'.size := by
  obtain ⟨hnew, rfl, rfl⟩ := put_eq_ok_iff.1 hp
  exact ⟨.put h hnew hd, by simp⟩

mutual

/-- A lookup appends derived types, and nothing else. -/
theorem intern_extends : ∀ {ref : TypeRef} {t t' : TypeTable} {id : TypeId},
    t.intern ref = .ok (t', id) → t.Extends t' ∧ id.index < t'.size := by
  intro ref t t' id h
  rw [intern.eq_def] at h
  -- what is there is given back; anything else is appended behind its parts
  cases hl : t.lookup? ref with
  | some found =>
    rw [hl] at h
    obtain ⟨rfl, rfl⟩ := Prod.mk.inj (Except.ok.inj h)
    exact ⟨.refl, lt_of_lookup? hl⟩
  | none =>
    rw [hl] at h
    cases ref with
    | pointer base =>
      obtain ⟨⟨t₁, b⟩, hb, hp⟩ := bind_eq_ok_iff.1 h
      obtain ⟨hext, hlt⟩ := intern_extends hb
      exact extends_put hext hp hlt
    | array base length =>
      obtain ⟨⟨t₁, b⟩, hb, hp⟩ := bind_eq_ok_iff.1 h
      obtain ⟨hext, hlt⟩ := intern_extends hb
      exact extends_put hext hp hlt
    | function ret params vararg =>
      obtain ⟨⟨t₁, r⟩, hr, h⟩ := bind_eq_ok_iff.1 h
      obtain ⟨⟨t₂, ps⟩, hps, hp⟩ := bind_eq_ok_iff.1 h
      obtain ⟨hext, hlt⟩ := intern_extends hr
      obtain ⟨hext', hlt'⟩ := internParams_extends hps
      exact extends_put (hext.trans hext') hp ⟨hlt.trans_le hext'.size_le, hlt'⟩
    | _ => cases h

/-- A parameter that is declared as an array is looked up as a pointer. -/
theorem internParams_extends : ∀ {refs : List TypeRef} {t t' : TypeTable} {ids : List TypeId},
    t.internParams refs = .ok (t', ids) → t.Extends t' ∧ ∀ id ∈ ids, id.index < t'.size := by
  intro refs t t' ids h
  cases refs with
  | nil =>
    obtain ⟨rfl, rfl⟩ := Prod.mk.inj (Except.ok.inj h)
    exact ⟨.refl, by simp⟩
  | cons ref refs =>
    rw [internParams_cons] at h
    obtain ⟨⟨t₁, id⟩, hid, h⟩ := bind_eq_ok_iff.1 h
    obtain ⟨⟨t₂, ids⟩, hids, h⟩ := bind_eq_ok_iff.1 h
    obtain ⟨rfl, rfl⟩ := Prod.mk.inj (Except.ok.inj h)
    obtain ⟨hext, hlt⟩ : t.Extends t₁ ∧ id.index < t₁.size := by
      -- only an array is adjusted, and what is registered then is a pointer
      cases ref with
      | array base length =>
        rw [internParam, intern.eq_def] at hid
        cases hl : t.lookup? (.pointer base) with
        | some found =>
          rw [hl] at hid
          obtain ⟨rfl, rfl⟩ := Prod.mk.inj (Except.ok.inj hid)
          exact ⟨.refl, lt_of_lookup? hl⟩
        | none =>
          rw [hl] at hid
          obtain ⟨⟨t₁, b⟩, hb, hp⟩ := bind_eq_ok_iff.1 hid
          obtain ⟨hext, hlt⟩ := intern_extends hb
          exact extends_put hext hp hlt
      | _ => exact intern_extends hid
    obtain ⟨hext', hlt'⟩ := internParams_extends hids
    refine ⟨hext.trans hext', fun i hi => ?_⟩
    rcases List.mem_cons.1 hi with rfl | hi
    · exact hlt.trans_le hext'.size_le
    · exact hlt' i hi

end

/-- Registering several references keeps what is there, and gives ids of the table. -/
theorem internAll_extends {refs : List TypeRef} {ids : List TypeId}
    (h : t.internAll refs = .ok (t', ids)) :
    t.Extends t' ∧ ids.length = refs.length ∧ ∀ id ∈ ids, id.index < t'.size := by
  induction refs generalizing t ids with
  | nil =>
    obtain ⟨rfl, rfl⟩ := Prod.mk.inj (Except.ok.inj h)
    exact ⟨.refl, rfl, by simp⟩
  | cons ref refs ih =>
    obtain ⟨⟨t₁, id⟩, hid, h⟩ := bind_eq_ok_iff.1 h
    obtain ⟨⟨t₂, ids⟩, hids, h⟩ := bind_eq_ok_iff.1 h
    obtain ⟨rfl, rfl⟩ := Prod.mk.inj (Except.ok.inj h)
    obtain ⟨hext, hlt⟩ := intern_extends hid
    obtain ⟨hext', hlength, hlt'⟩ := ih hids
    refine ⟨hext.trans hext', by rw [List.length_cons, List.length_cons, hlength], fun i hi => ?_⟩
    rcases List.mem_cons.1 hi with rfl | hi
    · exact hlt.trans_le hext'.size_le
    · exact hlt' i hi

/-! ## Well-formed tables -/

/-- The parts of every type are in the table, and integers have the sizes of the profile. -/
structure WellFormed (t : TypeTable) : Prop where
  links : ∀ e ∈ t.entries, ∀ id, .settled id ∈ e.info.links → id.index < t.size
  integers : ∀ e ∈ t.entries, ∀ {size signed name}, e.info = .integer size signed name →
    ∃ rank, size = t.profile.rankSize rank

namespace WellFormed

/-- The tables that are started with are well-formed. -/
theorem initial (profile : WidthProfile) : (TypeTable.initial profile).WellFormed where
  links := by
    intro e he id hid
    simp only [TypeTable.initial, basicEntries, List.flatMap_cons, List.map_cons, List.map_nil,
      List.flatMap_nil, List.mem_cons, List.mem_append, List.not_mem_nil, or_false] at he
    rcases he with rfl | (rfl | rfl) | (rfl | rfl) | (rfl | rfl) | rfl | rfl <;>
      simp [TypeInfo.links] at hid
  integers := by
    intro e he size signed name hi
    simp only [TypeTable.initial, basicEntries, List.mem_cons, List.mem_flatMap, List.mem_map] at he
    rcases he with rfl | ⟨rank, -, s, -, rfl⟩
    · simp at hi
    · exact ⟨rank, (TypeInfo.integer.inj hi).1.symm⟩

/-- A new entry whose parts are in the table, and which is no integer. -/
theorem append (h : t.WellFormed) (hlinks : ∀ id, .settled id ∈ info.links → id.index < t.size)
    (hinteger : ∀ size signed name, info ≠ .integer size signed name) :
    (t.append ref info).WellFormed where
  links := by
    intro e he id hid
    rw [append_size]
    rcases mem_append.1 he with he | rfl
    · exact Nat.lt_succ_of_lt (h.links e he id hid)
    · exact Nat.lt_succ_of_lt (hlinks id hid)
  integers := by
    intro e he size signed name hi
    rcases mem_append.1 he with he | rfl
    · exact h.integers e he hi
    · exact (hinteger size signed name hi).elim

/-- A larger table is well-formed. -/
theorem of_extends (h : t.WellFormed) (hext : t.Extends t') : t'.WellFormed := by
  induction hext with
  | refl => exact h
  | put _ _ hd ih =>
    refine ih.append (fun id hid => ?_) fun size signed name hi => ?_
    · obtain ⟨id', heq, hlt⟩ := hd.link hid
      exact Deferred.settled.inj heq ▸ hlt
    · subst hi
      exact hd

/-- Other parts of the same table. -/
theorem setInfo (h : t.WellFormed) (hlinks : ∀ id, .settled id ∈ info.links → id.index < t.size)
    (hinteger : ∀ size signed name, info ≠ .integer size signed name) :
    (t.setInfo id info).WellFormed := by
  have hmem {e : TypeEntry} (he : e ∈ (t.setInfo id info).entries) :
      e ∈ t.entries ∨ e.info = info := by
    obtain ⟨i, hi⟩ := List.mem_iff_getElem?.1 he
    rw [TypeTable.setInfo, List.getElem?_modify] at hi
    split at hi
    · obtain ⟨e', he', rfl⟩ := Option.map_eq_some_iff.1 hi
      exact .inr rfl
    · exact .inl (List.mem_of_getElem? (by simpa using hi))
  have hsize : (t.setInfo id info).size = t.size := by simp [TypeTable.setInfo, size]
  constructor
  · intro e he id' hid
    rw [hsize]
    rcases hmem he with he | rfl
    · exact h.links e he id' hid
    · exact hlinks id' hid
  · intro e he size signed name hi
    rcases hmem he with he | rfl
    · exact h.integers e he hi
    · exact (hinteger size signed name hi).elim

end WellFormed

/-! ## Definitions -/

/-- All parts of a definition are pending. -/
theorem links_ofDefinition {d : TypeDefinition} {l : Deferred TypeId}
    (h : l ∈ (TypeInfo.ofDefinition d).links) : l = .pending := by
  cases d with
  | composite kind name members location =>
    simp only [TypeInfo.ofDefinition, TypeInfo.links, List.map_map, List.mem_map] at h
    obtain ⟨m, -, rfl⟩ := h
    rfl
  | typedef name real location => exact List.mem_singleton.1 h

/-- A definition keeps a table well-formed. -/
theorem WellFormed.define {d : TypeDefinition} (h : t.WellFormed)
    (hd : t.define d = .ok (t', id)) : t'.WellFormed := by
  obtain ⟨-, rfl, rfl⟩ := put_eq_ok_iff.1 hd
  refine h.append (fun id hid => ?_) fun size signed name hi => ?_
  · cases links_ofDefinition hid
  · cases d <;> cases hi

/-- The settled parts of members are those that were settled before, and the new ones. -/
theorem settleMembers_type {members : List Member} {ids : List TypeId} {m : Member}
    (h : m ∈ settleMembers members ids) :
    (∃ m' ∈ members, m.type = m'.type) ∨ ∃ id ∈ ids, m.type = .settled id := by
  fun_induction settleMembers members ids with
  | case1 => cases h
  | case2 ms => exact .inl ⟨m, h, rfl⟩
  | case3 m' ms id ids hset ih =>
    rcases List.mem_cons.1 h with rfl | h
    · exact .inl ⟨m, by simp, rfl⟩
    · rcases ih h with ⟨x, hx, hm⟩ | hm
      · exact .inl ⟨x, by simp [hx], hm⟩
      · exact .inr hm
  | case4 m' ms id ids hset ih =>
    rcases List.mem_cons.1 h with rfl | h
    · exact .inr ⟨id, by simp, rfl⟩
    · rcases ih h with ⟨x, hx, hm⟩ | ⟨x, hx, hm⟩
      · exact .inl ⟨x, by simp [hx], hm⟩
      · exact .inr ⟨x, by simp [hx], hm⟩

/-- With one new part for each pending member, none stays pending. -/
theorem settleMembers_settled {members : List Member} {ids : List TypeId}
    (hlength : ids.length = (pendingRefs members).length) {m : Member}
    (h : m ∈ settleMembers members ids) : m.type ≠ .pending := by
  fun_induction settleMembers members ids with
  | case1 => cases h
  | case2 ms =>
    intro hm
    have hp : m.ref ∈ pendingRefs ms :=
      List.mem_map.2 ⟨m, List.mem_filter.2 ⟨h, by simp [hm, Deferred.isSettled]⟩, rfl⟩
    rw [List.eq_nil_of_length_eq_zero hlength.symm] at hp
    cases hp
  | case3 m' ms id ids hset ih =>
    rcases List.mem_cons.1 h with rfl | h
    · rintro hm
      simp [hm, Deferred.isSettled] at hset
    · exact ih (by simpa [pendingRefs, hset] using hlength) h
  | case4 m' ms id ids hset ih =>
    rcases List.mem_cons.1 h with rfl | h
    · exact nofun
    · exact ih (by simpa [pendingRefs, hset] using hlength) h

/-! ## Settling -/

@[simp] theorem setInfo_size : (t.setInfo id info).size = t.size := by
  simp [setInfo, size]

@[simp] theorem setInfo_profile : (t.setInfo id info).profile = t.profile := rfl

/-- Information that was replaced is found. -/
theorem setInfo_info_self {info' : TypeInfo} (h : (t.setInfo id info).info id = .ok info') :
    info' = info := by
  obtain ⟨e, he, rfl⟩ := info_eq_ok_iff.1 h
  simp only [setInfo, List.getElem?_modify, if_pos] at he
  obtain ⟨e', -, rfl⟩ := Option.map_eq_some_iff.1 he
  rfl

theorem setInfo_info_of_ne {id' : TypeId} (h : id'.index ≠ id.index) :
    (t.setInfo id info).info id' = t.info id' := by
  have he : (t.setInfo id info).entries[id'.index]? = t.entries[id'.index]? := by
    simp [setInfo, Ne.symm h]
  rw [TypeTable.info, TypeTable.info, entry, entry, he]

/-- What settling one type does: nothing, where no part is pending, or else the pending parts are
looked up and put in their place. -/
theorem settleDefinition_cases (h : t.settleDefinition id = .ok t') :
    ∃ info, t.info id = .ok info ∧ (t' = t ∧ .pending ∉ info.links ∨
      ∃ t₁ info', t.Extends t₁ ∧ t' = t₁.setInfo id info' ∧ .pending ∉ info'.links ∧
        (∀ part, .settled part ∈ info'.links →
          .settled part ∈ info.links ∨ part.index < t₁.size) ∧
        ∀ size signed name, info' ≠ .integer size signed name) := by
  obtain ⟨info, hinfo, h⟩ := bind_eq_ok_iff.1 h
  refine ⟨info, hinfo, ?_⟩
  -- members and typedefs are settled; other types are complete as they are
  cases info with
  | composite c =>
    obtain ⟨⟨t₁, ids⟩, hids, h⟩ := bind_eq_ok_iff.1 h
    obtain ⟨hext, hlength, hlt⟩ := internAll_extends hids
    refine .inr ⟨t₁, _, hext, (Except.ok.inj h).symm, ?_, ?_, nofun⟩
    · intro hp
      obtain ⟨m, hm, hpending⟩ := List.mem_map.1 hp
      exact settleMembers_settled (by simp [hlength, pendingRefs]) hm hpending
    · intro part hpart
      obtain ⟨m, hm, htype⟩ := List.mem_map.1 hpart
      rcases settleMembers_type hm with ⟨m', hm', heq⟩ | ⟨part', hpart', heq⟩
      · exact .inl (List.mem_map.2 ⟨m', hm', heq.symm.trans htype⟩)
      · rw [htype] at heq
        exact .inr (Deferred.settled.inj heq ▸ hlt part' hpart')
  | typedef d =>
    dsimp only at h
    split at h
    · next hset =>
      refine .inl ⟨(Except.ok.inj h).symm, fun hp => ?_⟩
      simp [← List.mem_singleton.1 hp, Deferred.isSettled] at hset
    · obtain ⟨⟨t₁, real⟩, hreal, h⟩ := bind_eq_ok_iff.1 h
      obtain ⟨hext, hlt⟩ := intern_extends hreal
      refine .inr ⟨t₁, _, hext, (Except.ok.inj h).symm, by simp [TypeInfo.links], ?_, nofun⟩
      intro part hpart
      exact .inr (Deferred.settled.inj (List.mem_singleton.1 hpart) ▸ hlt)
  | _ => exact .inl ⟨(Except.ok.inj h).symm, by simp [TypeInfo.links]⟩

/-- Only types in a range of numbers have pending parts. -/
def PendingWithin (t : TypeTable) (lo hi : Nat) : Prop :=
  ∀ {id info}, t.info id = .ok info → .pending ∈ info.links → lo ≤ id.index ∧ id.index < hi

/-- Settling a type that may be the first one with pending parts. -/
theorem settleDefinition_spec {lo hi : Nat} (hw : t.WellFormed) (hp : t.PendingWithin lo hi)
    (h : t.settleDefinition ⟨lo⟩ = .ok t') :
    t'.WellFormed ∧ t'.profile = t.profile ∧ t'.PendingWithin (lo + 1) hi := by
  obtain ⟨info, hinfo, ⟨rfl, hdone⟩ | ⟨t₁, info', hext, rfl, hdone, hlinks, hinteger⟩⟩ :=
    settleDefinition_cases h
  · refine ⟨hw, rfl, fun {id info''} hi hpending => ?_⟩
    -- what is pending comes behind the one that was settled just now
    have hne : id.index ≠ lo := by
      rintro rfl
      obtain rfl := Except.ok.inj (hinfo.symm.trans hi)
      exact hdone hpending
    have := hp hi hpending
    omega
  · have hw₁ := hw.of_extends hext
    refine ⟨hw₁.setInfo (fun part hpart => ?_) hinteger, by simpa using hext.profile,
      fun {id info''} hi hpending => ?_⟩
    · rcases hlinks part hpart with hold | hlt
      · obtain ⟨e, he, rfl⟩ := mem_of_info hinfo
        exact (hw.links e he part hold).trans_le hext.size_le
      · exact hlt
    · by_cases hne : id.index = lo
      · obtain rfl : id = ⟨lo⟩ := by cases id; simp_all
        exact (hdone (setInfo_info_self hi ▸ hpending)).elim
      · rw [setInfo_info_of_ne hne] at hi
        have hlt : id.index < t.size := by
          by_contra hge
          obtain ⟨_, hl, -⟩ := (hext.derived (not_lt.1 hge) hi).link hpending
          cases hl
        have := hp (by rwa [hext.info_eq hlt] at hi) hpending
        omega

/-- Settling a range of definitions leaves none of them pending. -/
theorem settleRange_spec {n lo : Nat} (hw : t.WellFormed) (hp : t.PendingWithin lo (lo + n))
    (h : (List.range' lo n).foldlM (fun t i => t.settleDefinition ⟨i⟩) t = .ok t') :
    t'.WellFormed ∧ t'.profile = t.profile ∧ t'.PendingWithin (lo + n) (lo + n) := by
  induction n generalizing lo t with
  | zero =>
    obtain rfl := Except.ok.inj h
    exact ⟨hw, rfl, hp⟩
  | succ n ih =>
    rw [List.range'_succ, List.foldlM_cons] at h
    obtain ⟨t₁, h₁, h⟩ := bind_eq_ok_iff.1 h
    obtain ⟨hw₁, hprofile₁, hp₁⟩ := settleDefinition_spec hw hp h₁
    rw [Nat.add_comm n 1, ← Nat.add_assoc] at hp₁ ⊢
    obtain ⟨hw', hprofile, hp'⟩ := ih hw₁ hp₁ h
    exact ⟨hw', hprofile.trans hprofile₁, hp'⟩

/-- A well-formed table in which nothing is pending. -/
structure Complete (t : TypeTable) : Prop extends WellFormed t where
  settled : ∀ e ∈ t.entries, .pending ∉ e.info.links

/-- Settling the definitions leaves nothing pending. -/
theorem WellFormed.settle (hw : t.WellFormed) (h : t.settleDefinitions = .ok t') :
    t'.Complete ∧ t'.profile = t.profile := by
  rw [settleDefinitions, List.range_eq_range'] at h
  have hp : t.PendingWithin 0 (0 + t.size) := fun hi _ =>
    ⟨Nat.zero_le _, by rw [Nat.zero_add]; exact lt_of_info hi⟩
  obtain ⟨hw', hprofile, hp'⟩ := settleRange_spec hw hp h
  refine ⟨⟨hw', fun e he hpending => ?_⟩, hprofile⟩
  obtain ⟨i, hi⟩ := List.mem_iff_getElem?.1 he
  have hinfo : t'.info ⟨i⟩ = .ok e.info := info_eq_ok_iff.2 ⟨e, hi, rfl⟩
  have := hp' hinfo hpending
  omega

/-- A larger table is complete. -/
theorem Complete.of_extends (h : t.Complete) (hext : t.Extends t') : t'.Complete where
  toWellFormed := h.toWellFormed.of_extends hext
  settled := by
    intro e he hpending
    obtain ⟨i, hi⟩ := List.mem_iff_getElem?.1 he
    have hinfo : t'.info ⟨i⟩ = .ok e.info := info_eq_ok_iff.2 ⟨e, hi, rfl⟩
    by_cases hlt : i < t.size
    · rw [hext.info_eq hlt] at hinfo
      obtain ⟨e', he', heq⟩ := mem_of_info hinfo
      exact h.settled e' he' (heq ▸ hpending)
    · obtain ⟨_, hl, -⟩ := (hext.derived (not_lt.1 hlt) hinfo).link hpending
      cases hl

/-- The parts of the types of a complete table are types of it. -/
theorem Complete.link (h : t.Complete) (hi : t.info id = .ok info) {l : Deferred TypeId}
    (hl : l ∈ info.links) : ∃ part, l = .settled part ∧ part.index < t.size := by
  obtain ⟨e, he, rfl⟩ := mem_of_info hi
  cases l with
  | pending => exact (h.settled e he hl).elim
  | settled part => exact ⟨part, rfl, h.links e he part hl⟩

/-! ## Reachable tables -/

/-- The tables that definitions, lookups and rounds of settling lead to, in any order. -/
inductive Reachable (profile : WidthProfile) : TypeTable → Prop where
  | initial : Reachable profile (.initial profile)
  | define {t t' : TypeTable} {d : TypeDefinition} {id : TypeId} (h : Reachable profile t)
    (hd : t.define d = .ok (t', id)) : Reachable profile t'
  | intern {t t' : TypeTable} {ref : TypeRef} {id : TypeId} (h : Reachable profile t)
    (hi : t.intern ref = .ok (t', id)) : Reachable profile t'
  | settle {t t' : TypeTable} (h : Reachable profile t) (hs : t.settleDefinitions = .ok t') :
    Reachable profile t'

/-- The tables whose definitions are settled, perhaps with types that were looked up later. -/
inductive Settled (profile : WidthProfile) : TypeTable → Prop where
  | settle {t t' : TypeTable} (h : Reachable profile t) (hs : t.settleDefinitions = .ok t') :
    Settled profile t'
  | intern {t t' : TypeTable} {ref : TypeRef} {id : TypeId} (h : Settled profile t)
    (hi : t.intern ref = .ok (t', id)) : Settled profile t'

variable {profile : WidthProfile}

/-- A type is looked up. -/
def Interns (t t' : TypeTable) : Prop :=
  ∃ ref id, t.intern ref = .ok (t', id)

/-- Registering references only adds entries. -/
theorem extends_of_interns (h : Relation.ReflTransGen Interns t t') : t.Extends t' := by
  induction h with
  | refl => exact .refl
  | tail _ h ih =>
    obtain ⟨ref, id, hi⟩ := h
    exact ih.trans (intern_extends hi).1

/-- A table that is reached is well-formed, with the widths that it was started with. -/
theorem Reachable.wellFormed (h : Reachable profile t) :
    t.WellFormed ∧ t.profile = profile := by
  induction h with
  | initial => exact ⟨.initial profile, rfl⟩
  | define _ hd ih =>
    refine ⟨ih.1.define hd, ?_⟩
    obtain ⟨-, rfl, -⟩ := put_eq_ok_iff.1 hd
    exact ih.2
  | intern _ hi ih =>
    have hext := (intern_extends hi).1
    exact ⟨ih.1.of_extends hext, hext.profile.trans ih.2⟩
  | settle _ hs ih =>
    obtain ⟨hc, hprofile⟩ := ih.1.settle hs
    exact ⟨hc.toWellFormed, hprofile.trans ih.2⟩

/-- Definitions lead to tables that are reached. -/
theorem Reachable.defineAll {ds : List TypeDefinition} (ht : Reachable profile t)
    (h : t.defineAll ds = .ok t') : Reachable profile t' := by
  induction ds generalizing t with
  | nil =>
    obtain rfl := Except.ok.inj h
    exact ht
  | cons d ds ih =>
    rw [TypeTable.defineAll, List.foldlM_cons] at h
    obtain ⟨t₁, h₁, h⟩ := bind_eq_ok_iff.1 h
    obtain ⟨⟨t₂, id⟩, hd, heq⟩ := bind_eq_ok_iff.1 h₁
    obtain rfl : t₂ = t₁ := Except.ok.inj heq
    exact ih (ht.define hd) h

/-- A settled table is complete. -/
theorem Settled.complete (h : Settled profile t) : t.Complete ∧ t.profile = profile := by
  induction h with
  | settle h hs =>
    obtain ⟨hc, hprofile⟩ := h.wellFormed.1.settle hs
    exact ⟨hc, hprofile.trans h.wellFormed.2⟩
  | intern _ hi ih =>
    have hext := (intern_extends hi).1
    exact ⟨ih.1.of_extends hext, hext.profile.trans ih.2⟩

end TypeTable

end Backend386
