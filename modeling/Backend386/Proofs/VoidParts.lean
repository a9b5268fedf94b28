import Backend386.Proofs.Stages
import Backend386.Proofs.Types.References

/-!
# Parts that are void

The check of the types runs when the definitions are settled. The types of entities and expressions
are looked up later, and what is looked up then is not checked any more: no struct or union comes
in this way, but an array may.

* `TypeTable.ArraysFrom` — a table grows, and each new array is part of a reference that is
  mentioned;
* `Source.ProgramUnit.void_element_mentioned` — where the elements of an array can be void.
-/

namespace Backend386

namespace TypeTable

variable {t t' t₁ t₂ : TypeTable} {id base : TypeId} {ref elem : TypeRef} {info : TypeInfo}
  {length : Option UInt64} {mentioned mentioned' : TypeRef → Prop}

/-! ## New arrays -/

/-- A table grows by derived types, and the arrays among them are mentioned. -/
structure ArraysFrom (mentioned : TypeRef → Prop) (t t' : TypeTable) : Prop where
  grows : t.Extends t'
  arrays {id base : TypeId} {length : Option UInt64} : t.size ≤ id.index →
    t'.info id = .ok (.array base length) → ∃ elem, t'.refOf id = .ok (.array elem length) ∧
      t'.refOf base = .ok elem ∧ mentioned (.array elem length)

namespace ArraysFrom

theorem refl (t : TypeTable) : ArraysFrom mentioned t t where
  grows := .refl
  arrays := fun hle hi => absurd (lt_of_info hi) (not_lt.2 hle)

/-- Arrays may come from more references. -/
theorem mono (h : ArraysFrom mentioned t t')
    (hm : ∀ elem length, mentioned (.array elem length) → mentioned' (.array elem length)) :
    ArraysFrom mentioned' t t' where
  grows := h.grows
  arrays := by
    intro id base length hle hi
    obtain ⟨elem, hid, hbase, hmentioned⟩ := h.arrays hle hi
    exact ⟨elem, hid, hbase, hm _ _ hmentioned⟩

/-- Arrays come from the references of one step or of the other. -/
theorem trans (h : ArraysFrom mentioned t t₁) (h' : ArraysFrom mentioned t₁ t₂) :
    ArraysFrom mentioned t t₂ where
  grows := h.grows.trans h'.grows
  arrays := by
    intro id base length hle hi
    by_cases hlt : id.index < t₁.size
    · rw [h'.grows.info_eq hlt] at hi
      obtain ⟨elem, hid, hbase, hmentioned⟩ := h.arrays hle hi
      exact ⟨elem, h'.grows.refOf hid, h'.grows.refOf hbase, hmentioned⟩
    · exact h'.arrays (not_lt.1 hlt) hi

/-- One more derived type, which is mentioned if it is an array. -/
theorem put (h : ArraysFrom mentioned t t₁) (hp : t₁.put ref info = .ok (t', id))
    (hd : info.IsDerived t₁.size)
    (ha : ∀ base length, info = .array base length → ∃ elem, ref = .array elem length ∧
      t₁.refOf base = .ok elem ∧ mentioned ref) : ArraysFrom mentioned t t' := by
  obtain ⟨hnew, rfl, rfl⟩ := put_eq_ok_iff.1 hp
  have hgrows : t₁.Extends (t₁.append ref info) := .put .refl hnew hd
  refine h.trans ⟨hgrows, fun {id base length} hle hi => ?_⟩
  obtain rfl : id = ⟨t₁.size⟩ := by
    have hlt := lt_of_info hi
    rw [append_size] at hlt
    cases id
    simp only [TypeId.mk.injEq]
    simp only at hle hlt
    omega
  rw [append_info_last] at hi
  obtain ⟨elem, rfl, hbase, hmentioned⟩ := ha base length (Except.ok.inj hi)
  exact ⟨elem, refOf_append_last, hgrows.refOf hbase, hmentioned⟩

end ArraysFrom

mutual

/-- The arrays that a lookup appends are parts of the reference. -/
theorem intern_arrays : ∀ {ref : TypeRef} {t t' : TypeTable} {id : TypeId},
    t.intern ref = .ok (t', id) → ArraysFrom (· ∈ ref.parts) t t' := by
  intro ref t t' id h
  rw [intern.eq_def] at h
  cases hl : t.lookup? ref with
  -- what is there already registers nothing
  | some found =>
    rw [hl] at h
    obtain ⟨rfl, -⟩ := Prod.mk.inj (Except.ok.inj h)
    exact .refl _
  | none =>
    rw [hl] at h
    -- the parts are registered first, then the type itself; only the latter may be an array of its
    -- own
    cases ref with
    | pointer base =>
      obtain ⟨⟨t₁, b⟩, hb, hp⟩ := bind_eq_ok_iff.1 h
      have hbase : ArraysFrom (· ∈ (TypeRef.pointer base).parts) t t₁ :=
        (intern_arrays hb).mono fun _ _ hr => by simp [TypeRef.parts, hr]
      exact hbase.put hp (intern_extends hb).2 nofun
    | array base length =>
      obtain ⟨⟨t₁, b⟩, hb, hp⟩ := bind_eq_ok_iff.1 h
      have hbase : ArraysFrom (· ∈ (TypeRef.array base length).parts) t t₁ :=
        (intern_arrays hb).mono fun _ _ hr => by simp [TypeRef.parts, hr]
      refine hbase.put hp (intern_extends hb).2 fun b' length' heq => ?_
      obtain ⟨rfl, rfl⟩ := TypeInfo.array.inj heq
      exact ⟨base, rfl, intern_refOf hb, by simp [TypeRef.parts]⟩
    | function ret params vararg =>
      obtain ⟨⟨t₁, r⟩, hr, h⟩ := bind_eq_ok_iff.1 h
      obtain ⟨⟨t₂, ps⟩, hps, hp⟩ := bind_eq_ok_iff.1 h
      have hret : ArraysFrom (· ∈ (TypeRef.function ret params vararg).parts) t t₁ :=
        (intern_arrays hr).mono fun _ _ hr => by simp [TypeRef.parts, hr]
      have hparams : ArraysFrom (· ∈ (TypeRef.function ret params vararg).parts) t₁ t₂ :=
        (internParams_arrays hps).mono fun _ _ hr => by simp [TypeRef.parts, hr]
      obtain ⟨hext, hlt⟩ := intern_extends hr
      obtain ⟨hext', hlt'⟩ := internParams_extends hps
      exact (hret.trans hparams).put hp ⟨hlt.trans_le hext'.size_le, hlt'⟩ nofun
    | _ => cases h

/-- The arrays among parameters come from their references. -/
theorem internParams_arrays : ∀ {refs : List TypeRef} {t t' : TypeTable} {ids : List TypeId},
    t.internParams refs = .ok (t', ids) → ArraysFrom (· ∈ partsOfRefs refs) t t' := by
  intro refs t t' ids h
  cases refs with
  | nil =>
    obtain ⟨rfl, -⟩ := Prod.mk.inj (Except.ok.inj h)
    exact .refl _
  | cons ref refs =>
    rw [internParams_cons] at h
    obtain ⟨⟨t₁, id⟩, hid, h⟩ := bind_eq_ok_iff.1 h
    obtain ⟨⟨t₂, ids⟩, hids, h⟩ := bind_eq_ok_iff.1 h
    obtain ⟨rfl, -⟩ := Prod.mk.inj (Except.ok.inj h)
    have hrest : ArraysFrom (· ∈ partsOfRefs (ref :: refs)) t₁ t₂ :=
      (internParams_arrays hids).mono fun _ _ hr => by simp [partsOfRefs, hr]
    suffices hfirst : ArraysFrom (· ∈ ref.parts) t t₁ from
      (hfirst.mono fun _ _ hr => by simp [partsOfRefs, hr]).trans hrest
    cases ref with
    | array base length =>
      -- a pointer to the elements is looked up instead of the array
      rw [internParam, intern.eq_def] at hid
      cases hl : t.lookup? (.pointer base) with
      | some found =>
        rw [hl] at hid
        obtain ⟨rfl, -⟩ := Prod.mk.inj (Except.ok.inj hid)
        exact .refl _
      | none =>
        rw [hl] at hid
        obtain ⟨⟨t₁, b⟩, hb, hp⟩ := bind_eq_ok_iff.1 hid
        have hbase : ArraysFrom (· ∈ (TypeRef.array base length).parts) t t₁ :=
          (intern_arrays hb).mono fun _ _ hr => by simp [TypeRef.parts, hr]
        exact hbase.put hp (intern_extends hb).2 nofun
    | _ => exact intern_arrays hid

end

/-- A pointer to a type of the table brings no array with it. -/
theorem pointerTo_arrays (h : t.pointerTo base = .ok (t', id)) : ArraysFrom mentioned t t' := by
  obtain ⟨ref, hrefs, h⟩ := bind_eq_ok_iff.1 h
  obtain ⟨base', hlookup⟩ := exists_lookup?_of_refOf hrefs
  rw [intern.eq_def] at h
  cases hl : t.lookup? (.pointer ref) with
  | some found =>
    rw [hl] at h
    obtain ⟨rfl, -⟩ := Prod.mk.inj (Except.ok.inj h)
    exact .refl _
  | none =>
    rw [hl] at h
    obtain ⟨⟨t₁, b⟩, hb, hp⟩ := bind_eq_ok_iff.1 h
    rw [intern.eq_def, hlookup] at hb
    obtain ⟨rfl, rfl⟩ := Prod.mk.inj (Except.ok.inj hb)
    exact (ArraysFrom.refl _).put hp (lt_of_lookup? hlookup) nofun

end TypeTable

/-! ## References that a program mentions -/

/-- The references that a program mentions: those of its entities, and those of the expressions in
their definitions. -/
inductive Source.Program.Mentions (p : Source.Program) : TypeRef → Prop where
  | entity {id : EntityId} {e : Entity} (h : p.entities.get id = .ok e) : Mentions p e.ref
  | expr {ref : TypeRef}
    (h : ((Part.ofTable p.entities).closure p.entities).Mentions ref) : Mentions p ref

/-- A reference inside one that a program mentions. -/
def Source.Program.MentionsPart (p : Source.Program) (part : TypeRef) : Prop :=
  ∃ ref, p.Mentions ref ∧ part ∈ ref.parts

namespace Lower

open TypeTable (ArraysFrom)

variable {s s' : LowerState} {part : Source.Part} {mentioned : TypeRef → Prop}

/-- A step adds the arrays that the part mentions. -/
theorem Step.arrays (h : Step part s s')
    (hm : ∀ ref, part.Mentions ref → ∀ r ∈ ref.parts, mentioned r) :
    ArraysFrom mentioned s.types s'.types := by
  cases h with
  | typeId hr h => exact (TypeTable.intern_arrays h).mono fun _ _ => hm _ hr _
  | pointerTo h => exact TypeTable.pointerTo_arrays h
  | _ => exact .refl _

/-- The arrays that the lowering brings in are mentioned by what is lowered. -/
theorem UnitSteps.arrays {w : Walk} (h : UnitSteps w s s')
    (hm : ∀ ref, w.part.Mentions ref → ∀ r ∈ ref.parts, mentioned r) :
    ArraysFrom mentioned s.types s'.types := by
  induction h with
  | refl => exact .refl _
  | tail _ h ih =>
    refine ih.trans ?_
    cases h with
    | inner h => exact h.step.arrays hm
    | _ => exact .refl _

end Lower

/-- The arrays that the types of entities bring in are parts of them. -/
theorem EntityTable.settleTypesOf_arrays {types types' : TypeTable} {es es' : List Entity}
    {mentioned : TypeRef → Prop} (h : settleTypesOf types es = .ok (types', es'))
    (hm : ∀ e ∈ es, ∀ r ∈ e.ref.parts, mentioned r) :
    TypeTable.ArraysFrom mentioned types types' := by
  induction es generalizing types es' with
  | nil =>
    obtain ⟨rfl, -⟩ := Prod.mk.inj (Except.ok.inj h)
    exact .refl _
  | cons e es ih =>
    obtain ⟨⟨types₁, e₁⟩, he, h⟩ := bind_eq_ok_iff.1 h
    obtain ⟨⟨types₂, es₁⟩, hes, h⟩ := bind_eq_ok_iff.1 h
    obtain ⟨rfl, rfl⟩ := Prod.mk.inj (Except.ok.inj h)
    have hrest := ih hes fun e he => hm e (List.mem_cons_of_mem _ he)
    rcases settleType_eq_ok he with ⟨rfl, -⟩ | ⟨ref, type, hlooks, hintern, -⟩
    · exact hrest
    · refine .trans ((TypeTable.intern_arrays hintern).mono fun elem length hr => ?_) hrest
      refine hm e List.mem_cons_self _ ?_
      cases hlooks with
      | ref => exact hr
      | pointer heq =>
        rw [heq]
        simp only [TypeRef.parts, List.mem_cons, reduceCtorEq, false_or] at hr ⊢
        exact .inr hr

namespace Lowering

variable {p : Source.Program} {types : TypeTable} {ds : Diagnostics} {lowered : Lowered}

/-- The program whose entities have types has the expressions of the program that was given. -/
theorem covers (l : Lowering p types ds lowered) :
    ((Source.Part.ofTable p.entities).closure p.entities).Covers l.program.entities where
  operand := .operand
  defined := by
    intro id d e hd he
    obtain ⟨hpasses, hsize, -⟩ := l.entities_typed
    obtain ⟨d₀, hd₀⟩ := EntityTable.exists_get (hsize ▸ EntityTable.lt_of_get hd)
    obtain ⟨d', hd', type, uses, rfl⟩ := hpasses hd₀
    obtain rfl := Except.ok.inj (hd'.symm.trans hd)
    exact .root ⟨id, d₀, hd₀, he⟩
  vars := fun _ => trivial

/-- The arrays that come in behind the check are mentioned by the program. -/
theorem arrays (l : Lowering p types ds lowered) :
    TypeTable.ArraysFrom p.MentionsPart types lowered.types := by
  rw [l.types_eq]
  have hsteps : Lower.UnitSteps (.along _) l.start l.final := l.steps l.covers
  refine .trans ?_ (hsteps.arrays fun ref hr r hpart => ⟨ref, .expr hr, hpart⟩)
  obtain ⟨entities, hsettle, -⟩ := l.settle
  obtain ⟨⟨types₁, es⟩, hes, h⟩ := bind_eq_ok_iff.1 hsettle
  obtain ⟨rfl, -⟩ := Prod.mk.inj (Except.ok.inj h)
  refine EntityTable.settleTypesOf_arrays hes fun e he r hr => ?_
  obtain ⟨i, hi⟩ := List.mem_iff_getElem?.1 he
  have hget : p.entities.get ⟨i⟩ = .ok e := EntityTable.get_eq_ok_iff.2 hi
  exact ⟨e.ref, .entity hget, hr⟩

end Lowering

/-! ## Void parts -/

namespace TypeTable

variable {t t' : TypeTable} {id part real : TypeId}

/-- Typedefs of the table lead where they led before. -/
theorem RealType.of_extends (h : t'.RealType id real) (hext : t.Extends t') (hc : t.Complete)
    (hid : id.index < t.size) : t.RealType id real := by
  induction h with
  | self h hn => exact .self (hext.info_eq hid ▸ h) hn
  | follow h hr _ ih =>
    rw [hext.info_eq hid] at h
    obtain ⟨next, hnext, hlt⟩ := hc.typedef_real h
    obtain rfl := Deferred.settled.inj (hr.symm.trans hnext)
    exact .follow h hr (ih hlt)

/-- A part of a sound table is not void, however the table has grown since. -/
theorem Sound.not_isVoid (hs : t.Sound) (hc : t.Complete) (hext : t.Extends t')
    (hid : id.index < t.size) (hp : t'.Holds id part) : ¬ t'.IsVoid part := by
  have hp' : t.Holds id part := by
    cases hp with
    | member h hm ht => exact .member (hext.info_eq hid ▸ h) hm ht
    | element h => exact .element (hext.info_eq hid ▸ h)
  rintro ⟨real, hreal, hi⟩
  have hreal' := hreal.of_extends hext hc (hp'.contains.part_lt hc)
  obtain ⟨info, hinfo, -⟩ := hreal'.exists_info
  refine hs.parts id part real hp' hreal' ?_
  rwa [← hext.info_eq (lt_of_info hinfo)]

end TypeTable

/-- Whenever a unit gives intermediate code or a listing: in the types that are left at the end, no
member of a struct or union is void, and an array whose elements are void was looked up behind the
check, so that the program mentions it in the type of an entity or of an expression. -/
theorem Source.ProgramUnit.void_element_mentioned {unit : Source.ProgramUnit} {options : Options}
    {compiled : Compiled} {output : Output} (h : compile unit options = .ok compiled)
    (hok : compiled.result = .ok output) (hemit : options.emit ≠ .types) :
    ∃ types ds lowered, checkedTypes options.profile unit.types = .ok (types, ds) ∧
      lowerProgram unit.program types ds = .ok lowered ∧
      (∀ id c, lowered.types.info id = .ok (.composite c) → ∀ m ∈ c.members, ∀ part,
        m.type = .settled part → ¬ lowered.types.IsVoid part) ∧
      ∀ id base length, lowered.types.info id = .ok (.array base length) →
        lowered.types.IsVoid base → types.size ≤ id.index ∧
          ∃ elem, lowered.types.refOf id = .ok (.array elem length) ∧
            lowered.types.refOf base = .ok elem ∧
            unit.program.MentionsPart (.array elem length) := by
  obtain ⟨types, ds, lowered, htypes, hquiet, hlower, -⟩ := compile_stages h hok hemit
  obtain ⟨hcomplete, hsound, -⟩ := checkedTypes_sound htypes hquiet
  obtain ⟨l⟩ := lowering_of_ok hlower
  have hext := l.types_extends
  refine ⟨types, ds, lowered, htypes, hlower, ?_, ?_⟩
  · intro id c hi m hm part ht
    -- only derived types come in behind the check
    have hid : id.index < types.size := by
      by_contra hge
      exact hext.derived (not_lt.1 hge) hi
    exact hsound.not_isVoid hcomplete hext hid (.member hi hm ht)
  · intro id base length hi hvoid
    have hid : types.size ≤ id.index := by
      by_contra hlt
      exact hsound.not_isVoid hcomplete hext (not_le.1 hlt) (.element hi) hvoid
    exact ⟨hid, l.arrays.arrays hid hi⟩

/-- The global variable `void g[3]`. -/
def voidElements : Source.ProgramUnit where
  program := {
    entities := ⟨[{ name := "g", ref := .array .void (some 3), kind := .definedVariable none }]⟩
    declarations := [⟨0⟩] }

/-- The array is looked up for the variable, which mentions it. -/
theorem Source.ProgramUnit.void_element_mentioned_global :
    ∃ compiled output, compile voidElements {} = .ok compiled ∧ compiled.result = .ok output ∧
      voidElements.program.MentionsPart (.array .void (some 3)) := by
  refine ⟨_, _, rfl, rfl, ?_⟩
  have hcompile : compile voidElements {} = .ok _ := rfl
  obtain ⟨types, ds, lowered, htypes, hlower, -, harrays⟩ :=
    void_element_mentioned hcompile rfl (by decide)
  have hchecked : checkedTypes .ilp32 voidElements.types = .ok (_, _) := rfl
  obtain ⟨rfl, rfl⟩ := Prod.mk.inj (Except.ok.inj (hchecked.symm.trans htypes))
  obtain rfl := Except.ok.inj hlower
  obtain ⟨-, elem, hid, -, hmentions⟩ :=
    harrays ⟨9⟩ ⟨0⟩ (some 3) rfl ⟨⟨0⟩, .self rfl nofun, rfl⟩
  obtain ⟨rfl, -⟩ := TypeRef.array.inj (Except.ok.inj hid)
  exact hmentions

/-- A variable whose elements are void gets through to a listing, and its type is in the table at
the end. -/
theorem Source.ProgramUnit.void_element_accepted :
    ∃ compiled code types ds lowered,
      compile voidElements {} = .ok compiled ∧ compiled.result = .ok (.asm code) ∧
      checkedTypes .ilp32 voidElements.types = .ok (types, ds) ∧
      lowerProgram voidElements.program types ds = .ok lowered ∧
      ∃ id base, lowered.types.info id = .ok (.array base (some 3)) ∧
        lowered.types.IsVoid base :=
  ⟨_, _, _, _, _, rfl, rfl, rfl, rfl, ⟨9⟩, ⟨0⟩, rfl, ⟨0⟩, .self rfl nofun, rfl⟩

end Backend386
