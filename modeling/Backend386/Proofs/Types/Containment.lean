import Mathlib.Data.List.Nodup
import Mathlib.Data.List.Perm.Subperm
import Mathlib.Logic.Relation
import Backend386.Proofs.Types.Table
import Backend386.Types.Check

/-!
# Types that contain types

A type contains its members, its elements and the type that a typedef names by value. In a finite
table where no type contains itself, the nesting is bounded by the size of the table, so everything
that follows it within that bound comes to an end.

* `TypeTable.Contains` — containment by value, and `TypeTable.Acyclic` — no type contains itself;
* `TypeTable.RealType` — what is left when typedefs are followed, however many;
* `TypeTable.Shallow` — the nesting below a type is bounded, as it is in an acyclic table by
  `TypeTable.Acyclic.shallow`;
* `TypeTable.Acyclic.of_extends` — derived types that are appended contain nothing that contains
  them.
-/

namespace Backend386.TypeTable

open Relation (TransGen ReflTransGen)

variable {t t' : TypeTable} {id part real : TypeId} {info : TypeInfo}

/-- A type contains another by value. -/
inductive Contains (t : TypeTable) (id : TypeId) : TypeId → Prop where
  | member {c : Composite} {m : Member} {part : TypeId} (h : t.info id = .ok (.composite c))
    (hm : m ∈ c.members) (ht : m.type = .settled part) : Contains t id part
  | element {base : TypeId} {length : Option UInt64} (h : t.info id = .ok (.array base length)) :
    Contains t id base
  | typedef {d : Typedef} {real : TypeId} (h : t.info id = .ok (.typedef d))
    (hr : d.real = .settled real) : Contains t id real

/-- No type contains itself by value. -/
def Acyclic (t : TypeTable) : Prop :=
  ∀ id, ¬ TransGen t.Contains id id

/-- The type that is left when typedefs are followed. -/
inductive RealType (t : TypeTable) : TypeId → TypeId → Prop where
  | self {id : TypeId} {info : TypeInfo} (h : t.info id = .ok info) (hn : ∀ d, info ≠ .typedef d) :
    RealType t id id
  | follow {id next real : TypeId} {d : Typedef} (h : t.info id = .ok (.typedef d))
    (hr : d.real = .settled next) (hf : RealType t next real) : RealType t id real

/-! ## Edges -/

/-- What a type contains is one of its parts. -/
theorem Contains.link (h : t.Contains id part) :
    ∃ info, t.info id = .ok info ∧ .settled part ∈ info.links := by
  cases h with
  | member h hm ht => exact ⟨_, h, List.mem_map.2 ⟨_, hm, ht⟩⟩
  | element h => exact ⟨_, h, List.mem_singleton.2 rfl⟩
  | typedef h hr => exact ⟨_, h, List.mem_singleton.2 hr.symm⟩

theorem Contains.lt (h : t.Contains id part) : id.index < t.size := by
  obtain ⟨_, hi, -⟩ := h.link
  exact lt_of_info hi

theorem Contains.part_lt (h : t.Contains id part) (hc : t.Complete) : part.index < t.size := by
  obtain ⟨info, hi, hl⟩ := h.link
  obtain ⟨e, he, rfl⟩ := mem_of_info hi
  exact hc.links e he part hl

theorem Complete.member_type (hc : t.Complete) {c : Composite}
    (h : t.info id = .ok (.composite c)) {m : Member} (hm : m ∈ c.members) :
    ∃ part, m.type = .settled part ∧ part.index < t.size :=
  hc.link h (List.mem_map.2 ⟨m, hm, rfl⟩)

theorem Complete.typedef_real (hc : t.Complete) {d : Typedef}
    (h : t.info id = .ok (.typedef d)) : ∃ real, d.real = .settled real ∧ real.index < t.size :=
  hc.link h (List.mem_singleton.2 rfl)

theorem Complete.element_lt (hc : t.Complete) {base : TypeId} {length : Option UInt64}
    (h : t.info id = .ok (.array base length)) : base.index < t.size :=
  (Contains.element h).part_lt hc

/-- The types of settled members are known. -/
theorem mapM_typeId (members : List Member)
    (h : ∀ m ∈ members, ∃ part, m.type = .settled part) :
    ∃ parts, members.mapM (·.typeId) = .ok parts ∧
      ∀ part, part ∈ parts ↔ ∃ m ∈ members, m.type = .settled part := by
  induction members with
  | nil => exact ⟨[], rfl, by simp⟩
  | cons m ms ih =>
    obtain ⟨first, hfirst⟩ := h m (by simp)
    obtain ⟨parts, hparts, hmem⟩ := ih fun m hm => h m (by simp [hm])
    refine ⟨first :: parts, ?_, fun part => ?_⟩
    · rw [List.mapM_cons, Member.typeId, hfirst, hparts]
      rfl
    · simp [hmem, hfirst, eq_comm]

/-- The by-value edges of a type are the types that it contains. -/
theorem Complete.valueEdges (hc : t.Complete) (hid : id.index < t.size) :
    ∃ parts, t.valueEdges id = .ok parts ∧ ∀ part, part ∈ parts ↔ t.Contains id part := by
  obtain ⟨info, hi⟩ := exists_info_iff.2 hid
  rw [TypeTable.valueEdges, hi]
  -- the edges are computed by the same cases as the relation has rules
  cases info with
  | composite c =>
    obtain ⟨parts, hparts, hmem⟩ := mapM_typeId c.members fun m hm =>
      (hc.member_type hi hm).imp fun _ h => h.1
    refine ⟨parts, hparts, fun part => (hmem part).trans ⟨?_, ?_⟩⟩
    · rintro ⟨m, hm, ht⟩
      exact .member hi hm ht
    · intro h
      cases h with
      | member h hm ht =>
        obtain rfl := TypeInfo.composite.inj (Except.ok.inj (hi.symm.trans h))
        exact ⟨_, hm, ht⟩
      | element h => cases hi.symm.trans h
      | typedef h => cases hi.symm.trans h
  | array base length =>
    refine ⟨[base], rfl, fun part => ⟨?_, ?_⟩⟩
    · rw [List.mem_singleton]
      rintro rfl
      exact .element hi
    · intro h
      cases h with
      | member h => cases hi.symm.trans h
      | element h =>
        obtain ⟨rfl, -⟩ := TypeInfo.array.inj (Except.ok.inj (hi.symm.trans h))
        exact List.mem_singleton.2 rfl
      | typedef h => cases hi.symm.trans h
  | typedef d =>
    obtain ⟨real, hr, -⟩ := hc.typedef_real hi
    refine ⟨[real], by simp [bind, Except.bind, Typedef.realId, hr]; rfl, fun part => ⟨?_, ?_⟩⟩
    · rw [List.mem_singleton]
      rintro rfl
      exact .typedef hi hr
    · intro h
      cases h with
      | member h => cases hi.symm.trans h
      | element h => cases hi.symm.trans h
      | typedef h hr' =>
        obtain rfl := TypeInfo.typedef.inj (Except.ok.inj (hi.symm.trans h))
        exact List.mem_singleton.2 (Deferred.settled.inj (hr'.symm.trans hr))
  | _ =>
    refine ⟨[], rfl, fun part => ⟨nofun, fun h => ?_⟩⟩
    cases h with
    | member h => cases hi.symm.trans h
    | element h => cases hi.symm.trans h
    | typedef h => cases hi.symm.trans h

/-- The edges of a type lead to what it contains. -/
theorem Complete.mem_valueEdges (hc : t.Complete) {parts : List TypeId}
    (h : t.valueEdges id = .ok parts) : part ∈ parts ↔ t.Contains id part := by
  obtain ⟨info, hi, -⟩ := bind_eq_ok_iff.1 h
  obtain ⟨parts', h', hmem⟩ := hc.valueEdges (lt_of_info hi)
  obtain rfl := Except.ok.inj (h.symm.trans h')
  exact hmem part

/-! ## Bounded nesting -/

/-- Fewer than `n` types are nested in each other below this one, itself included. -/
inductive Shallow (t : TypeTable) : Nat → TypeId → Prop where
  | mk {n : Nat} {id : TypeId} (h : ∀ part, t.Contains id part → Shallow t n part) :
    Shallow t (n + 1) id

theorem Shallow.succ {n : Nat} (h : t.Shallow n id) : t.Shallow (n + 1) id := by
  induction h with
  | mk _ ih => exact .mk ih

/-- There are no more distinct ids than entries. -/
theorem length_le_size {ids : List TypeId} (hn : ids.Nodup) (hlt : ∀ id ∈ ids, id.index < t.size) :
    ids.length ≤ t.size := by
  have hmap : (ids.map TypeId.index).Nodup := by
    refine hn.map fun a b h => ?_
    cases a
    cases b
    exact congrArg _ h
  have hsub : ids.map TypeId.index ⊆ List.range t.size := by
    intro i hi
    obtain ⟨id, hid, rfl⟩ := List.mem_map.1 hi
    exact List.mem_range.2 (hlt id hid)
  simpa using (List.subperm_of_subset hmap hsub).length_le

/-- A way through different types is no longer than the table. -/
theorem le_size_of_way {n : Nat} {way : Nat → TypeId} (hlt : ∀ k < n, (way k).index < t.size)
    (hinj : ∀ k < n, ∀ m < n, way k = way m → k = m) : n ≤ t.size := by
  have hnodup : ((List.range n).map way).Nodup :=
    List.nodup_range.map_on fun k hk m hm heq =>
      hinj k (List.mem_range.1 hk) m (List.mem_range.1 hm) heq
  have hle := length_le_size hnodup fun x hx => by
    obtain ⟨k, hk, rfl⟩ := List.mem_map.1 hx
    exact hlt k (List.mem_range.1 hk)
  rwa [List.length_map, List.length_range] at hle

/-- Where each type is some number of steps away from an end, and the next one is a step closer, the
types on the way are different, so that the steps are fewer than the types of the table. -/
theorem steps_lt_size {Away : Nat → TypeId → Prop} (hlt : ∀ n id, Away n id → id.index < t.size)
    (hunique : ∀ n m id, Away n id → Away m id → n = m)
    (hnext : ∀ n id, Away (n + 1) id → ∃ next, Away n next) {n : Nat} (h : Away n id) :
    n < t.size := by
  have hall : ∀ k < n + 1, ∃ x, Away k x := fun k hk =>
    Nat.decreasingInduction (fun m _ ⟨x, hx⟩ => hnext m x hx) ⟨id, h⟩ (Nat.le_of_lt_succ hk)
  choose! way hway using hall
  refine le_size_of_way (fun k hk => hlt k _ (hway k hk)) fun k hk m hm heq => ?_
  exact hunique k m _ (hway k hk) (heq ▸ hway m hm)

/-- The types that lead to a type are distinct, so there are fewer of them than types. -/
theorem Acyclic.shallow_below (ha : t.Acyclic) (hc : t.Complete) {n : Nat}
    {above : List TypeId} (hn : above.Nodup)
    (habove : ∀ x ∈ above, x.index < t.size ∧ TransGen t.Contains x id) (hid : id.index < t.size)
    (hlength : above.length + n = t.size) : t.Shallow n id := by
  -- no type above contains itself, so the new one is different from all of them
  have hnew : id ∉ above := fun h => ha id (habove id h).2
  have hn' : (id :: above).Nodup := List.nodup_cons.2 ⟨hnew, hn⟩
  induction n generalizing id above with
  | zero =>
    -- the types above are as many as the table has, so that there is none left
    have hle := length_le_size hn' fun x hx => by
      rcases List.mem_cons.1 hx with rfl | hx
      · exact hid
      · exact (habove x hx).1
    rw [List.length_cons] at hle
    omega
  | succ n ih =>
    refine .mk fun part hpart => ?_
    have habove' : ∀ x ∈ id :: above, x.index < t.size ∧ TransGen t.Contains x part := by
      intro x hx
      rcases List.mem_cons.1 hx with rfl | hx
      · exact ⟨hid, .single hpart⟩
      · exact ⟨(habove x hx).1, (habove x hx).2.tail hpart⟩
    have hpart' : part ∉ id :: above := fun h => ha part (habove' part h).2
    exact ih hn' habove' (hpart.part_lt hc) (by rw [List.length_cons]; omega) hpart'
      (List.nodup_cons.2 ⟨hpart', hn'⟩)

/-- In an acyclic table the nesting is bounded by the size of the table. -/
theorem Acyclic.shallow (ha : t.Acyclic) (hc : t.Complete) (hid : id.index < t.size) :
    t.Shallow t.size id :=
  ha.shallow_below hc .nil (by simp) hid (by simp)

/-! ## Well-founded containment -/

/-- Everything that is nested below a type comes to an end. -/
abbrev Grounded (t : TypeTable) (id : TypeId) : Prop :=
  Acc (fun part id => t.Contains id part) id

theorem Shallow.grounded {n : Nat} (h : t.Shallow n id) : t.Grounded id := by
  induction h with
  | mk _ ih => exact .intro _ fun part hpart => ih part hpart

/-- What is grounded does not contain itself. -/
theorem Grounded.not_transGen (h : t.Grounded id) : ¬ TransGen t.Contains id id := by
  induction h with
  | intro id _ ih =>
    intro hcycle
    obtain ⟨part, hpart, hback⟩ := Relation.TransGen.head'_iff.1 hcycle
    exact ih part hpart (.tail' hback hpart)

/-- Numbers beyond the table contain nothing. -/
theorem grounded_of_le (hid : t.size ≤ id.index) : t.Grounded id :=
  .intro _ fun _ h => absurd h.lt (not_lt.2 hid)

theorem Acyclic.grounded (ha : t.Acyclic) (hc : t.Complete) (id : TypeId) : t.Grounded id := by
  by_cases hid : id.index < t.size
  · exact (ha.shallow hc hid).grounded
  · exact grounded_of_le (not_lt.1 hid)

/-- Nothing contains itself where everything is grounded. -/
theorem acyclic_of_grounded (h : ∀ id : TypeId, id.index < t.size → t.Grounded id) :
    t.Acyclic := by
  intro id
  by_cases hid : id.index < t.size
  · exact (h id hid).not_transGen
  · exact (grounded_of_le (not_lt.1 hid)).not_transGen

/-! ## Appended types -/

/-- A type contains the same in a larger table. -/
theorem Extends.contains_iff (h : t.Extends t') (hid : id.index < t.size) :
    t'.Contains id part ↔ t.Contains id part := by
  have hinfo := h.info_eq hid
  constructor
  · intro hp
    cases hp with
    | member h hm ht => exact .member (hinfo ▸ h) hm ht
    | element h => exact .element (hinfo ▸ h)
    | typedef h hr => exact .typedef (hinfo ▸ h) hr
  · intro hp
    cases hp with
    | member h hm ht => exact .member (hinfo.trans h) hm ht
    | element h => exact .element (hinfo.trans h)
    | typedef h hr => exact .typedef (hinfo.trans h) hr

/-- Derived types contain only types in front of them. -/
theorem Extends.part_lt (h : t.Extends t') (hid : t.size ≤ id.index) (hp : t'.Contains id part) :
    part.index < id.index := by
  obtain ⟨info, hi, hl⟩ := hp.link
  obtain ⟨part', heq, hlt⟩ := (h.derived hid hi).link hl
  exact Deferred.settled.inj heq ▸ hlt

/-- What is grounded stays so in a larger table. -/
theorem Grounded.of_extends (hg : t.Grounded id) (h : t.Extends t') (hc : t.Complete)
    (hid : id.index < t.size) : t'.Grounded id := by
  induction hg with
  | intro id _ ih =>
    refine .intro _ fun part hpart => ?_
    have hpart' := (h.contains_iff hid).1 hpart
    exact ih part hpart' (hpart'.part_lt hc)

/-- Looking up types later makes no cycle. -/
theorem Acyclic.of_extends (ha : t.Acyclic) (h : t.Extends t') (hc : t.Complete) :
    t'.Acyclic := by
  refine acyclic_of_grounded fun id _ => ?_
  -- by induction on the number: a new type contains only types with smaller numbers
  induction hn : id.index using Nat.strong_induction_on generalizing id with
  | _ n ih =>
    subst hn
    by_cases hid : id.index < t.size
    · exact (ha.grounded hc id).of_extends h hc hid
    · refine .intro _ fun part hpart => ?_
      have hlt := h.part_lt (not_lt.1 hid) hpart
      exact ih part.index hlt part (hlt.trans (by assumption)) rfl

/-! ## Typedefs -/

/-- A real type is in the table, and no typedef. -/
theorem RealType.exists_info (h : t.RealType id real) :
    ∃ info, t.info real = .ok info ∧ ∀ d, info ≠ .typedef d := by
  induction h with
  | self h hn => exact ⟨_, h, hn⟩
  | follow _ _ _ ih => exact ih

/-- Following typedefs in a complete table meets no fault. -/
theorem Complete.followTypedefs (hc : t.Complete) (n : Nat) (hid : id.index < t.size) :
    ∃ found, t.followTypedefs n id = .ok found := by
  induction n generalizing id with
  | zero => exact ⟨none, rfl⟩
  | succ n ih =>
    obtain ⟨info, hi⟩ := exists_info_iff.2 hid
    rw [TypeTable.followTypedefs, hi]
    cases info with
    | typedef d =>
      obtain ⟨real, hr, hlt⟩ := hc.typedef_real hi
      obtain ⟨found, hf⟩ := ih hlt
      refine ⟨found, ?_⟩
      simp only [bind, Except.bind, Typedef.realId, hr, Deferred.get_settled]
      exact hf
    | _ => exact ⟨some id, rfl⟩

/-- What is found is the real type. -/
theorem realType_of_followTypedefs {n : Nat} (h : t.followTypedefs n id = .ok (some real)) :
    t.RealType id real := by
  induction n generalizing id with
  | zero => cases h
  | succ n ih =>
    obtain ⟨info, hi, h⟩ := bind_eq_ok_iff.1 h
    cases info with
    | typedef d =>
      obtain ⟨next, hr, h⟩ := bind_eq_ok_iff.1 h
      cases hd : d.real with
      | pending => simp [Typedef.realId, hd] at hr
      | settled next' =>
        obtain rfl : next' = next := by simpa [Typedef.realId, hd] using hr
        exact .follow hi hd (ih h)
    | _ =>
      obtain rfl := Option.some.inj (Except.ok.inj h)
      exact .self hi nofun

/-- The real type is found within the nesting. -/
theorem RealType.followTypedefs {n : Nat} (h : t.RealType id real) (hs : t.Shallow n id) :
    t.followTypedefs n id = .ok (some real) := by
  induction h generalizing n with
  | @self id info hi hn =>
    cases hs with
    | mk hs =>
      rw [TypeTable.followTypedefs, hi]
      cases info with
      | typedef d => exact (hn d rfl).elim
      | _ => rfl
  | @follow id next real d hi hr _ ih =>
    cases hs with
    | mk hs =>
      rw [TypeTable.followTypedefs, hi]
      simp only [bind, Except.bind, Typedef.realId, hr, Deferred.get_settled]
      exact ih (hs next (.typedef hi hr))

end Backend386.TypeTable
