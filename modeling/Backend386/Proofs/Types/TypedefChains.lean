import Mathlib.Order.Monotone.Basic
import Backend386.Proofs.Types.Growth
import Backend386.Proofs.Types.Widths

/-!
# Chains of typedefs

The typedefs that are followed on the way to a real type are all different, so there are fewer of
them than types, and the bounded search comes to the end of every chain that has one. The others go
round: among more typedefs than there are types, one comes twice. All this asks nothing of the
structs and unions of the table.

* `TypeTable.RealIn` — the real type, with the number of typedefs on the way;
* `TypeTable.TypedefsEnd` — every typedef is settled, and no chain of them is a circle;
* `TypeTable.TypedefsEnd.exists_realInfo` — every type has a real type;
* `TypeTable.EndlessTypedefs`, `TypeTable.LeadsIntoCircle` — chains without an end, and why;
* `TypeTable.Complete.realType?_eq_none_iff` — the search gives up where there is no end.
-/

namespace Backend386.TypeTable

open Relation (TransGen ReflTransGen)

variable {t t' : TypeTable} {id real real' : TypeId} {n m : Nat} {info : TypeInfo}

/-- The type that is left when so many typedefs are followed. -/
inductive RealIn (t : TypeTable) : Nat → TypeId → TypeId → Prop where
  | self {id : TypeId} {info : TypeInfo} (h : t.info id = .ok info) (hn : ∀ d, info ≠ .typedef d) :
    RealIn t 0 id id
  | follow {n : Nat} {id next real : TypeId} {d : Typedef} (h : t.info id = .ok (.typedef d))
    (hr : d.real = .settled next) (hf : RealIn t n next real) : RealIn t (n + 1) id real

/-- A real type is reached in a number of steps. -/
theorem RealType.exists_realIn (h : t.RealType id real) : ∃ n, t.RealIn n id real := by
  induction h with
  | self h hn => exact ⟨0, .self h hn⟩
  | follow h hr _ ih =>
    obtain ⟨n, hn⟩ := ih
    exact ⟨n + 1, .follow h hr hn⟩

namespace RealIn

/-- There is one way to follow typedefs. -/
theorem steps_eq (h : t.RealIn n id real) (h' : t.RealIn m id real') : n = m := by
  induction h generalizing m with
  | self hi hn =>
    cases h' with
    | self => rfl
    | follow hi' => exact (hn _ (Except.ok.inj (hi.symm.trans hi'))).elim
  | follow hi hr _ ih =>
    cases h' with
    | self hi' hn => exact (hn _ (Except.ok.inj (hi'.symm.trans hi))).elim
    | follow hi' hr' hf =>
      obtain rfl := TypeInfo.typedef.inj (Except.ok.inj (hi.symm.trans hi'))
      obtain rfl := Deferred.settled.inj (hr.symm.trans hr')
      rw [ih hf]

theorem lt (h : t.RealIn n id real) : id.index < t.size := by
  cases h with
  | self hi => exact lt_of_info hi
  | follow hi => exact lt_of_info hi

/-- The number of steps tells the types on the way apart. -/
theorem steps_lt (h : t.RealIn n id real) : n < t.size := by
  refine steps_lt_size (fun n id (h : t.RealIn n id real) => h.lt) (fun _ _ _ => steps_eq) ?_ h
  intro n id h
  cases h with
  | follow _ _ hf => exact ⟨_, hf⟩

/-- Following typedefs for one step more finds it. -/
theorem followTypedefs (h : t.RealIn n id real) :
    t.followTypedefs (n + 1) id = .ok (some real) := by
  induction h with
  | @self id info hi hn =>
    rw [TypeTable.followTypedefs, hi]
    cases info with
    | typedef d => exact (hn d rfl).elim
    | _ => rfl
  | @follow n id next real d hi hr _ ih =>
    refine bind_eq_ok_iff.2 ⟨_, hi, bind_eq_ok_iff.2 ⟨next, ?_, ih⟩⟩
    rw [Typedef.realId, hr, Deferred.get_settled]

end RealIn

/-- The search is long enough for every chain that has an end. -/
theorem realType?_eq_some_iff : t.realType? id = .ok (some real) ↔ t.RealType id real := by
  refine ⟨realType_of_followTypedefs, fun h => ?_⟩
  obtain ⟨n, hn⟩ := h.exists_realIn
  have hle : n + 1 ≤ t.size + 1 := Nat.succ_le_succ hn.steps_lt.le
  exact Extends.followTypedefs .refl hle hn.followTypedefs

theorem RealType.realType_eq (h : t.RealType id real) : t.realType id = .ok real := by
  rw [realType, realType?_eq_some_iff.2 h]
  rfl

/-- Every typedef is settled, and no chain of typedefs is a circle. -/
def TypedefsEnd (t : TypeTable) : Prop :=
  ∀ id : TypeId, id.index < t.size → ∃ real, t.RealType id real

theorem RealType.extended (h : t.RealType id real) (hext : t.Extends t') :
    t'.RealType id real := by
  induction h with
  | self h hn => exact .self (hext.lasts (·.info _) h) hn
  | follow h hr _ ih => exact .follow (hext.lasts (·.info _) h) hr ih

namespace TypedefsEnd

/-- Types that are looked up later are no typedefs. -/
theorem of_extends (h : t.TypedefsEnd) (hext : t.Extends t') : t'.TypedefsEnd := by
  intro id hid
  by_cases hold : id.index < t.size
  · obtain ⟨real, hreal⟩ := h id hold
    exact ⟨real, hreal.extended hext⟩
  · obtain ⟨info, hi⟩ := exists_info_iff.2 hid
    have hderived := hext.derived (not_lt.1 hold) hi
    refine ⟨id, .self hi ?_⟩
    rintro d rfl
    exact hderived

theorem of_measured (h : t.Measured) : t.TypedefsEnd := by
  intro id hid
  obtain ⟨real, hreal, -⟩ := h.acyclic.exists_realType h.complete hid
  exact ⟨real, realType_of_eq_ok hreal⟩

theorem exists_realInfo (h : t.TypedefsEnd) (hid : id.index < t.size) :
    ∃ info, t.realInfo id = .ok info := by
  obtain ⟨real, hreal⟩ := h id hid
  obtain ⟨info, hinfo, -⟩ := hreal.exists_info
  exact ⟨info, bind_eq_ok_iff.2 ⟨real, hreal.realType_eq, hinfo⟩⟩

end TypedefsEnd

/-! ## Chains without an end -/

/-- The first type is a typedef of the second one. -/
def Target (t : TypeTable) (id next : TypeId) : Prop :=
  ∃ d, t.info id = .ok (.typedef d) ∧ d.real = .settled next

/-- Typedefs lead from each of endlessly many types to the next one. -/
def EndlessTypedefs (t : TypeTable) (id : TypeId) : Prop :=
  ∃ way : Nat → TypeId, way 0 = id ∧ ∀ n, t.Target (way n) (way (n + 1))

/-- The typedefs that are followed lead to one that stands for itself in the end. -/
def LeadsIntoCircle (t : TypeTable) (id : TypeId) : Prop :=
  ∃ closing, ReflTransGen t.Target id closing ∧ TransGen t.Target closing closing

namespace Target

variable {next : TypeId}

theorem lt (h : t.Target id next) : id.index < t.size :=
  let ⟨_, hi, _⟩ := h
  lt_of_info hi

theorem contains (h : t.Target id next) : t.Contains id next :=
  let ⟨_, hi, hr⟩ := h
  .typedef hi hr

theorem followTypedefs (h : t.Target id next) (n : Nat) :
    t.followTypedefs (n + 1) id = t.followTypedefs n next := by
  obtain ⟨d, hi, hr⟩ := h
  rw [TypeTable.followTypedefs, hi]
  simp only [bind, Except.bind, Typedef.realId, hr, Deferred.get_settled]

end Target

namespace EndlessTypedefs

/-- Where each typedef of some kind stands for another one of that kind, there is no end. -/
theorem of_step {Kind : TypeId → Prop}
    (hstep : ∀ id, Kind id → ∃ next, t.Target id next ∧ Kind next)
    (h : Kind id) : t.EndlessTypedefs id := by
  choose! next htarget hkind using hstep
  have hall (n : Nat) : Kind (next^[n] id) := by
    induction n with
    | zero => exact h
    | succ n ih =>
      rw [Function.iterate_succ_apply']
      exact hkind _ ih
  refine ⟨fun n => next^[n] id, rfl, fun n => ?_⟩
  beta_reduce
  rw [Function.iterate_succ_apply']
  exact htarget _ (hall n)

theorem lt (h : t.EndlessTypedefs id) : id.index < t.size := by
  obtain ⟨way, rfl, hway⟩ := h
  exact (hway 0).lt

/-- No number of steps comes to an end. -/
theorem followTypedefs (h : t.EndlessTypedefs id) (n : Nat) :
    t.followTypedefs n id = .ok none := by
  obtain ⟨way, rfl, hway⟩ := h
  induction n generalizing way with
  | zero => rfl
  | succ n ih =>
    rw [(hway 0).followTypedefs]
    exact ih (fun k => way (k + 1)) fun k => hway (k + 1)

/-- Among more types on the way than the table has, two are the same. -/
theorem leadsIntoCircle (h : t.EndlessTypedefs id) : t.LeadsIntoCircle id := by
  obtain ⟨way, rfl, hway⟩ := h
  -- the way is endless and the table is not, so it comes to one type twice
  obtain ⟨i, j, hij, heq⟩ : ∃ i j, i < j ∧ way i = way j := by
    by_contra hdistinct
    have hinj : Function.Injective way := by
      intro i j heq
      rcases Nat.lt_trichotomy i j with hlt | heq' | hgt
      · exact (hdistinct ⟨i, j, hlt, heq⟩).elim
      · exact heq'
      · exact (hdistinct ⟨j, i, hgt, heq.symm⟩).elim
    have hle : t.size + 1 ≤ t.size :=
      le_size_of_way (fun k _ => (hway k).lt) fun _ _ _ _ heq => hinj heq
    omega
  refine ⟨way i, Nat.rel_of_forall_rel_succ_of_le _ (fun n => .single (hway n)) i.zero_le, ?_⟩
  have hround := Nat.rel_of_forall_rel_succ_of_lt (TransGen t.Target)
    (fun n => .single (hway n)) hij
  rwa [← heq] at hround

end EndlessTypedefs

/-- A circle has no end. -/
theorem LeadsIntoCircle.endlessTypedefs (h : t.LeadsIntoCircle id) : t.EndlessTypedefs id := by
  refine .of_step (fun id h => ?_) h
  obtain ⟨closing, hreach, hround⟩ := h
  rcases ReflTransGen.cases_head hreach with rfl | ⟨next, hnext, hrest⟩
  · obtain ⟨next, hnext, hback⟩ := TransGen.head'_iff.1 hround
    exact ⟨next, hnext, id, hback, hround⟩
  · exact ⟨next, hnext, closing, hrest, hround⟩

namespace Complete

/-- Typedefs come to an end, or they do not: none of them stands for nothing. -/
theorem endless_or_real (hc : t.Complete) (hid : id.index < t.size) :
    t.EndlessTypedefs id ∨ ∃ real, t.RealType id real := by
  refine or_iff_not_imp_right.2 fun hnone => ?_
  have hstuck : id.index < t.size ∧ ¬ ∃ real, t.RealType id real := ⟨hid, hnone⟩
  refine .of_step (fun id (h : id.index < t.size ∧ ¬ ∃ real, t.RealType id real) => ?_) hstuck
  obtain ⟨hid, hnone⟩ := h
  obtain ⟨info, hi⟩ := exists_info_iff.2 hid
  cases info with
  | typedef d =>
    obtain ⟨next, hr, hlt⟩ := hc.typedef_real hi
    exact ⟨next, ⟨d, hi, hr⟩, hlt, fun ⟨real, hreal⟩ => hnone ⟨real, .follow hi hr hreal⟩⟩
  | _ => exact (hnone ⟨id, .self hi nofun⟩).elim

/-- The search gives up only where there is no end. -/
theorem realType?_eq_none_iff (hc : t.Complete) :
    t.realType? id = .ok none ↔ t.EndlessTypedefs id := by
  refine ⟨fun h => ?_, fun h => h.followTypedefs _⟩
  obtain ⟨info, hi, -⟩ := bind_eq_ok_iff.1 h
  rcases hc.endless_or_real (lt_of_info hi) with hendless | ⟨real, hreal⟩
  · exact hendless
  · cases h.symm.trans (realType?_eq_some_iff.2 hreal)

/-- The only fault tells of a circle. -/
theorem realType_eq_error_iff (hc : t.Complete) (hid : id.index < t.size) {fault : Fault} :
    t.realType id = .error fault ↔
      fault = .cyclicTypedef (t.nameOf id) ∧ t.LeadsIntoCircle id := by
  rcases hc.endless_or_real hid with hendless | ⟨real, hreal⟩
  · have hcyclic : t.realType id = .error (.cyclicTypedef (t.nameOf id)) := by
      rw [realType, hc.realType?_eq_none_iff.2 hendless]
      rfl
    rw [hcyclic]
    exact ⟨fun h => ⟨(Except.error.inj h).symm, hendless.leadsIntoCircle⟩, fun h => h.1 ▸ rfl⟩
  · refine iff_of_false (fun h => ?_) fun h => ?_
    · cases hreal.realType_eq.symm.trans h
    · have hnone := hc.realType?_eq_none_iff.2 h.2.endlessTypedefs
      cases hnone.symm.trans (realType?_eq_some_iff.2 hreal)

end Complete

theorem Acyclic.not_leadsIntoCircle (ha : t.Acyclic) : ¬ t.LeadsIntoCircle id :=
  fun ⟨closing, _, hround⟩ => ha closing (TransGen.mono (fun _ _ => Target.contains) _ _ hround)

end Backend386.TypeTable
