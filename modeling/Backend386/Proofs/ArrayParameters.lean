import Backend386.Proofs.AccessWidths
import Backend386.Proofs.Lowering.Pointers
import Backend386.Proofs.Types.Circles
import Backend386.Proofs.Types.TypedefChains

/-!
# Parameters that are declared as arrays

A parameter that is written as an array is a pointer to the element, in function types and in the
entities of parameters. What it is written as decides: a typedef that stands for an array hides it,
and the parameter stays an array in place.

* `TypeTable.HidesArray` — the typedefs that stand for arrays;
* `TypeTable.ParamType` — the type that a parameter gets, and that it is an array only behind such a
  typedef;
* `TypeTable.Canonical.paramType` — how it is looked up;
* `TypeTable.parameters_decay` — function types, entities and the expressions that read parameters.
-/

namespace Backend386

namespace TypeTable

variable {t t' t₁ t₂ : TypeTable} {id i base : TypeId} {ref elem : TypeRef} {info : TypeInfo}
  {profile : WidthProfile}

/-- The reference is a typedef that stands for an array, perhaps through other typedefs. -/
def HidesArray (t : TypeTable) (ref : TypeRef) : Prop :=
  ∃ name id base length, ref = .typedef name ∧ t.lookup? ref = some id ∧
    t.realInfo id = .ok (.array base length)

/-- The type of a parameter that is declared by a reference. It is an array only if a typedef hides
one, and what is written as an array is a pointer to the element. -/
structure ParamType (t : TypeTable) (ref : TypeRef) (id : TypeId) : Prop where
  isArray : ∃ b, t.isArray id = .ok b ∧ (b = true ↔ t.HidesArray ref)
  pointer : ∀ {elem : TypeRef} {length : Option UInt64}, ref = .array elem length →
    ∃ base, t.lookup? elem = some base ∧ t.info id = .ok (.pointer base)

/-! ## Looking up -/

theorem realInfo_of_info (hi : t.info id = .ok info) (hn : ∀ d, info ≠ .typedef d) :
    t.realInfo id = .ok info :=
  bind_eq_ok_iff.2 ⟨id, (RealType.self hi hn).realType_eq, hi⟩

theorem isArray_of_realInfo (hi : t.realInfo id = .ok info) :
    t.isArray id = .ok (info matches .array ..) := by
  simp only [isArray, hi]
  cases info <;> rfl

/-- What is said to be an array has elements. -/
theorem exists_realInfo_of_isArray (h : t.isArray id = .ok true) :
    ∃ base length, t.realInfo id = .ok (.array base length) := by
  obtain ⟨info, hinfo, h⟩ := bind_eq_ok_iff.1 h
  cases info with
  | array base length => exact ⟨base, length, hinfo⟩
  | _ => cases h

theorem not_hidesArray (h : ∀ name, ref ≠ .typedef name) : ¬ t.HidesArray ref :=
  fun ⟨name, _, _, _, heq, _⟩ => h name heq

/-- What is written as something else stands for no array. -/
theorem Canonical.isArray_eq_false (h : t.Canonical) (hl : t.lookup? ref = some id)
    (hn : ∀ name, ref ≠ .typedef name) (ha : ∀ elem length, ref ≠ .array elem length) :
    t.isArray id = .ok false := by
  obtain ⟨info, hi, hm⟩ := h.mirrors_of_refOf (refOf_of_lookup? hl)
  cases hm with
  | typedef => exact (hn _ rfl).elim
  | array => exact (ha _ _ rfl).elim
  | _ => exact isArray_of_realInfo (realInfo_of_info hi nofun)

/-- The type under which a parameter is looked up. -/
theorem Canonical.paramType (h : t.Canonical) (hend : t.TypedefsEnd)
    (hl : t.lookup? ref.asParam = some id) : t.ParamType ref id := by
  cases ref with
  | array elem length =>
    refine ⟨⟨false, h.isArray_eq_false hl nofun nofun, ?_⟩, ?_⟩
    · exact iff_of_false nofun (not_hidesArray nofun)
    · rintro _ _ ⟨⟩
      obtain ⟨info, hi, hm⟩ := h.mirrors_of_refOf (refOf_of_lookup? hl)
      cases hm with
      | pointer hbase => exact ⟨_, hbase, hi⟩
  -- only a typedef can hide an array: whatever it leads to decides
  | typedef name =>
    obtain ⟨info, hi⟩ := hend.exists_realInfo (lt_of_lookup? hl)
    refine ⟨⟨_, isArray_of_realInfo hi, ?_⟩, nofun⟩
    constructor
    · intro harray
      cases info with
      | array base length => exact ⟨name, id, base, length, rfl, hl, hi⟩
      | _ => cases harray
    · rintro ⟨_, id', base, length, -, hl', hi'⟩
      obtain rfl : id = id' := Option.some.inj (hl.symm.trans hl')
      obtain rfl := Except.ok.inj (hi.symm.trans hi')
      rfl
  | _ =>
    refine ⟨⟨false, h.isArray_eq_false hl nofun nofun, ?_⟩, nofun⟩
    exact iff_of_false nofun (not_hidesArray nofun)

/-- The types of the parameters of a function type. -/
theorem Canonical.functionParams (h : t.Canonical) (hend : t.TypedefsEnd) {f : FunctionType}
    (hi : t.info id = .ok (.function f)) : ∃ ret params vararg,
      t.refOf id = .ok (.function ret params vararg) ∧
        List.Forall₂ t.ParamType params f.params := by
  obtain ⟨e, he, hinfo⟩ := info_eq_ok_iff.1 hi
  have hm := h.mirrors e (List.mem_of_getElem? he)
  rw [hinfo] at hm
  have href : t.refOf id = .ok e.ref := refOf_eq_ok_iff.2 ⟨e, he, rfl⟩
  generalize e.ref = ref at hm href
  cases hm with
  | function hr hp => exact ⟨_, _, _, href, hp.imp fun _ _ hl => h.paramType hend hl⟩

/-- The element of a pointer or an array is found as it is on its own, whether or not the whole is
there already. -/
theorem Canonical.intern_elem (h : t.Canonical) (hi : t.intern ref = .ok (t', id))
    (hpart : ref = .pointer elem ∨ ∃ length, ref = .array elem length) :
    ∃ t₁ base, t.intern elem = .ok (t₁, base) ∧ t'.lookup? elem = some base := by
  rw [intern.eq_def] at hi
  cases hl : t.lookup? ref with
  -- the type was there before: what mirrors it has its element registered
  | some found =>
    rw [hl] at hi
    obtain ⟨rfl, -⟩ := Prod.mk.inj (Except.ok.inj hi)
    obtain ⟨info, -, hm⟩ := h.mirrors_of_refOf (refOf_of_lookup? hl)
    have hreg : t.Registered elem := by
      rcases hpart with rfl | ⟨length, rfl⟩ <;> exact hm.parts
    obtain ⟨base, hbase⟩ := hreg
    exact ⟨t, base, by rw [intern.eq_def, hbase], hbase⟩
  -- the type is new: its element was registered right before it
  | none =>
    rw [hl] at hi
    have hput {t₁ base info} (hb : t.intern elem = .ok (t₁, base))
        (hp : t₁.put ref info = .ok (t', id)) : t'.lookup? elem = some base := by
      obtain ⟨-, rfl, -⟩ := put_eq_ok_iff.1 hp
      rw [lookup?_append, intern_lookup? hb]
      rfl
    rcases hpart with rfl | ⟨length, rfl⟩
    · obtain ⟨⟨t₁, base⟩, hb, hp⟩ := bind_eq_ok_iff.1 hi
      exact ⟨t₁, base, hb, hput hb hp⟩
    · obtain ⟨⟨t₁, base⟩, hb, hp⟩ := bind_eq_ok_iff.1 hi
      exact ⟨t₁, base, hb, hput hb hp⟩

/-- Where a type is found, a parameter that is declared by it has a type. -/
theorem Canonical.exists_internParam (h : t.Canonical) (hi : t.intern ref = .ok (t₁, i)) :
    ∃ t₂ id, t.internParam ref = .ok (t₂, id) := by
  rw [internParam_eq]
  rcases h.finds ref.asParam with ⟨part, hocc, hn, hmissing, -⟩ | ⟨t₂, id, hid, -⟩
  · refine (hmissing ((h.intern hi).named part ?_ hn)).elim
    cases ref with
    | array elem length =>
      rcases TypeRef.occurs_pointer_iff.1 hocc with hocc | rfl
      · exact .array hocc
      · cases hn
    | _ => exact hocc
  · exact ⟨t₂, id, hid⟩

/-- A parameter whose type is an array that no typedef hides is a pointer to the same element. -/
theorem Canonical.internParam_of_array (h : t.Canonical) {length : Option UInt64}
    (hi : t.intern ref = .ok (t₁, i)) (hp : t.internParam ref = .ok (t₂, id))
    (harray : t₁.realInfo i = .ok (.array base length)) (hn : ¬ t₁.HidesArray ref) :
    t₂.realInfo id = .ok (.pointer base) := by
  have hl := intern_lookup? hi
  have hisArray : t₁.isArray i = .ok true := isArray_of_realInfo harray
  -- what is neither a typedef nor an array is none, although it is found to be one
  have hfalse (hname : ∀ name, ref ≠ .typedef name) (ha : ∀ elem length, ref ≠ .array elem length) :
      t₂.realInfo id = .ok (.pointer base) := by
    have hnot := (h.intern hi).canonical.isArray_eq_false hl hname ha
    cases hisArray.symm.trans hnot
  cases ref with
  | typedef name => exact (hn ⟨name, i, base, length, rfl, hl, harray⟩).elim
  | array elem n =>
    rw [internParam_eq] at hp
    -- the array and the pointer are registered from the same table, so they have the same element
    obtain ⟨ta, ba, hba, hbase⟩ := h.intern_elem hi (.inr ⟨n, rfl⟩)
    obtain ⟨tb, bb, hbb, hbase'⟩ := h.intern_elem hp (.inl rfl)
    obtain ⟨rfl, rfl⟩ := Prod.mk.inj (Except.ok.inj (hba.symm.trans hbb))
    obtain ⟨info, hinfo, hm⟩ := (h.intern hi).canonical.mirrors_of_refOf (refOf_of_lookup? hl)
    obtain ⟨info', hinfo', hm'⟩ :=
      (h.intern hp).canonical.mirrors_of_refOf (refOf_of_lookup? (intern_lookup? hp))
    cases hm with
    | array hb =>
      cases hm' with
      | pointer hb' =>
        obtain rfl := Option.some.inj (hb.symm.trans hbase)
        obtain rfl := Option.some.inj (hb'.symm.trans hbase')
        have hreal := realInfo_of_info hinfo nofun
        obtain ⟨rfl, -⟩ := TypeInfo.array.inj (Except.ok.inj (hreal.symm.trans harray))
        exact realInfo_of_info hinfo' nofun
  | _ => exact hfalse nofun nofun

/-! ## Reading parameters -/

/-- Wherever an expression names a parameter of the type, it becomes the word of the parameter and
not its address. -/
def ReadsWord (t : TypeTable) (id : TypeId) (w : Width) : Prop :=
  ∀ {inline : Entity → Source.Expr → Lower Ir.Expr} {d : Demand} {n : Source.Note} {v : EntityId}
    {s : LowerState} {e : Entity} {t₁ : TypeTable} {i : TypeId}, s.entities.get v = .ok e →
    e.isParameter = true → e.type = .settled id → t.Extends s.types →
    s.types.intern n.type = .ok (t₁, i) →
    Source.Expr.lowerUsing inline d (.var n v) s = .ok (some (.var w v), { s with types := t₁ })

/-- A value of a type that is not kept by address is read as wide as a register holds it. -/
theorem readsWord {w : Width} (hb : t.isByAddress id = .ok false)
    (hw : t.registerWidth id = .ok w) : t.ReadsWord id w := by
  intro inline d n v s e t₁ i he hparam htype hext hi
  have hext₁ := hext.trans (intern_extends hi).1
  obtain ⟨s₁, hs₁⟩ : ∃ s₁, s₁ = { s with types := t₁ } := ⟨_, rfl⟩
  have htypes : s₁.types = t₁ := by rw [hs₁]
  have hnote : Lower.typeId n.type s = .ok (i, s₁) := by
    rw [Lower.typeId, Lower.bind_ok (Lower.ask_ok hi), hs₁]
    rfl
  have hentity : Lower.entity v s₁ = .ok (e, s₁) := by
    rw [Lower.entity, Lower.bind_ok (x := s₁) rfl]
    exact Lower.lift_ok (by rw [hs₁]; exact he)
  -- parameters are variables, so the name is not replaced by the value of a constant
  have hconstant : e.constantValue? = none := by
    cases hkind : e.kind <;> simp [Entity.isParameter, Entity.constantValue?, hkind] at hparam ⊢
  have hid : e.typeId = .ok id := by rw [Entity.typeId, htype, Deferred.get_settled]
  have hdesignated : Lower.designated id v s₁ = .ok (.var w v, s₁) := by
    rw [← htypes] at hext₁
    rw [Lower.designated, Lower.bind_ok (Lower.isByAddress_of (hext₁.lasts (·.isByAddress id) hb)),
      if_neg Bool.false_ne_true,
      Lower.bind_ok (Lower.width_of (hext₁.lasts (·.registerWidth id) hw))]
    rfl
  rw [Source.Expr.lowerUsing, Lower.bind_ok hnote, Lower.bind_ok hentity, hconstant, ← hs₁]
  dsimp only
  rw [Lower.bind_ok (Lower.lift_ok hid), Lower.bind_ok hdesignated]
  rfl

theorem isByAddress_eq_false (harray : t.isArray id = .ok false)
    (hcomposite : t.isComposite id = .ok false) (hfunction : t.isFunction id = .ok false) :
    t.isByAddress id = .ok false := by
  rw [isByAddress, isAggregate, hcomposite, harray, hfunction]
  rfl

/-- A pointer is as wide as pointers are, whatever it points to. -/
theorem registerWidth_of_pointer (hi : t.info id = .ok (.pointer base)) :
    t.registerWidth id = t.pointerWidth := by
  obtain ⟨hbyAddress, -, -, hvoid, -⟩ := kinds_of_realInfo (realInfo_of_info hi nofun)
  have hsize : t.sizeOf id = .ok t.profile.pointerSize := by
    obtain ⟨n, hn⟩ := Nat.exists_eq_succ_of_ne_zero (Nat.ne_zero_of_lt (lt_of_info hi))
    rw [sizeOf, layout, hn, layoutWithin, hi]
    rfl
  rw [registerWidth, hbyAddress, hvoid, hsize]
  rfl

end TypeTable

/-! ## Entities -/

/-- The type of a parameter, if it is settled, was looked up as that of a parameter. -/
def Entity.LookedUp (types : TypeTable) (e : Entity) : Prop :=
  e.isParameter = true → ∀ id, e.type = .settled id → types.lookup? e.ref.asParam = some id

namespace EntityTable

variable {types types' : TypeTable} {e e' : Entity}

/-- The reference under which the type of an entity is looked up. -/
theorem settleType_eq (h : e.type = .pending) : settleType types e =
    types.intern (if e.isParameter then e.ref.asParam else e.ref) >>= fun r =>
      (do return (r.1, ← e.setType r.2)) := by
  rw [settleType, h, if_neg (by simp [Deferred.isSettled])]
  split <;> simp only [TypeTable.internParam_eq]

/-- The type of an entity is settled once, and looks up what the entity refers to from then on. -/
theorem settleType_lookedUp (h : settleType types e = .ok (types', e')) (he : e.LookedUp types) :
    types.Extends types' ∧ e'.LookedUp types' ∧ ∃ id, e'.type = .settled id := by
  cases htype : e.type with
  | settled id =>
    have hsame : settleType types e = .ok (types, e) := by rw [settleType, htype]; rfl
    obtain ⟨rfl, rfl⟩ := Prod.mk.inj (Except.ok.inj (hsame.symm.trans h))
    exact ⟨.refl, he, id, htype⟩
  | pending =>
    rw [settleType_eq htype] at h
    obtain ⟨⟨t₁, id⟩, hid, h⟩ := bind_eq_ok_iff.1 h
    obtain ⟨e₁, hset, h⟩ := bind_eq_ok_iff.1 h
    obtain ⟨rfl, rfl⟩ := Prod.mk.inj (Except.ok.inj h)
    obtain ⟨type, hsettle, hset⟩ := bind_eq_ok_iff.1 hset
    obtain ⟨-, rfl⟩ := Deferred.settle_eq_ok_iff.1 hsettle
    obtain rfl := Except.ok.inj hset
    refine ⟨(TypeTable.intern_extends hid).1, fun hparam id' hid' => ?_, id, rfl⟩
    obtain rfl := Deferred.settled.inj hid'
    have hisParam : e.isParameter = true := hparam
    rw [if_pos hisParam] at hid
    exact TypeTable.intern_lookup? hid

/-- Types that are settled later leave what was looked up before. -/
theorem settleTypesOf_lookedUp {es es' : List Entity}
    (h : settleTypesOf types es = .ok (types', es')) (hes : ∀ e ∈ es, e.LookedUp types) :
    types.Extends types' ∧ ∀ e ∈ es', e.LookedUp types' ∧ ∃ id, e.type = .settled id := by
  induction es generalizing types es' with
  | nil =>
    obtain ⟨rfl, rfl⟩ := Prod.mk.inj (Except.ok.inj h)
    exact ⟨.refl, by simp⟩
  | cons e es ih =>
    obtain ⟨⟨types₁, e₁⟩, he, h⟩ := bind_eq_ok_iff.1 h
    obtain ⟨⟨types₂, es₁⟩, hrest, h⟩ := bind_eq_ok_iff.1 h
    obtain ⟨rfl, rfl⟩ := Prod.mk.inj (Except.ok.inj h)
    obtain ⟨hext, hlooked, hsettled⟩ := settleType_lookedUp he (hes e List.mem_cons_self)
    obtain ⟨hext', hall⟩ := ih hrest fun e he hparam id hid =>
      hext.lookup? (hes e (List.mem_cons_of_mem _ he) hparam id hid)
    refine ⟨hext.trans hext', fun e he => ?_⟩
    rcases List.mem_cons.1 he with rfl | he
    · exact ⟨fun hparam id hid => hext'.lookup? (hlooked hparam id hid), hsettled⟩
    · exact hall e he

end EntityTable

/-! ## Parameters decay -/

namespace TypeTable

variable {profile : WidthProfile}

/-- Where every typedef has an end, a parameter has an array as its type only if it is declared with
a typedef that stands for one: when its type is looked up, in the function types and in the entities
of the unit. One whose type is an array without such a typedef is a pointer to the element. What
reads a parameter reads its word, unless it is an array, a struct or a function. -/
theorem parameters_decay {t : TypeTable} (h : Reachable profile t) (hend : t.TypedefsEnd) :
    (∀ ref t₁ i, t.intern ref = .ok (t₁, i) → ∃ t₂ id, t.internParam ref = .ok (t₂, id) ∧
      t₂.ParamType ref id ∧
      ∀ base length, t₁.realInfo i = .ok (.array base length) → ¬ t₁.HidesArray ref →
        t₂.realInfo id = .ok (.pointer base)) ∧
    ∀ (es es' : EntityTable) (t' : TypeTable), es.settleTypes t = .ok (t', es') →
      (∀ e ∈ es.entries, e.LookedUp t) →
      (∀ id f, t'.info id = .ok (.function f) → ∃ ret params vararg,
        t'.refOf id = .ok (.function ret params vararg) ∧
        List.Forall₂ t'.ParamType params f.params) ∧
      ∀ e ∈ es'.entries, e.isParameter = true → ∃ id, e.type = .settled id ∧
        t'.ParamType e.ref id ∧
        (∀ elem length, e.ref = .array elem length → t'.registerWidth id = t'.pointerWidth) ∧
        ∀ w, t'.registerWidth id = .ok w → t'.isComposite id = .ok false →
          t'.isFunction id = .ok false → ¬ t'.HidesArray e.ref → t'.ReadsWord id w := by
  have hc := h.canonical
  refine ⟨fun ref t₁ i hi => ?_, fun es es' t' hs hes => ?_⟩
  · obtain ⟨t₂, id, hp⟩ := hc.exists_internParam hi
    -- the parameter is registered as the type that it is adjusted to
    have hp' := hp
    rw [internParam_eq] at hp'
    have hparam := (hc.intern hp').canonical.paramType
      (hend.of_extends (intern_extends hp').1) (intern_lookup? hp')
    exact ⟨t₂, id, hp, hparam, fun base length harray hn =>
      hc.internParam_of_array hi hp harray hn⟩
  · obtain ⟨⟨t₁, entries⟩, hentries, hs⟩ := bind_eq_ok_iff.1 hs
    obtain ⟨rfl, rfl⟩ := Prod.mk.inj (Except.ok.inj hs)
    -- settling the types keeps what was looked up, and the table is canonical at the end
    obtain ⟨hext, hall⟩ := EntityTable.settleTypesOf_lookedUp hentries hes
    have hc' := (EntityTable.settleTypesOf_reachable h hentries).canonical
    have hend' := hend.of_extends hext
    refine ⟨fun id f hi => hc'.functionParams hend' hi, fun e he hparam => ?_⟩
    obtain ⟨hlooked, id, hid⟩ := hall e he
    have htype := hc'.paramType hend' (hlooked hparam id hid)
    refine ⟨id, hid, htype, fun elem length href => ?_, fun w hw hcomposite hfunction hn => ?_⟩
    · obtain ⟨base, -, hi⟩ := htype.pointer href
      exact registerWidth_of_pointer hi
    -- a parameter that is an array in the end must have hidden it
    · obtain ⟨b, harray, hb⟩ := htype.isArray
      obtain rfl : b = false := Bool.eq_false_iff.2 fun hb' => hn (hb.1 hb')
      exact readsWord (isByAddress_eq_false harray hcomposite hfunction) hw

/-- An array of pointers behind a typedef is passed as a pointer to such pointers. -/
theorem parameters_decay_rows :
    ∃ row t ds t₁ i t₂ id base length,
      checkedTypes .ilp32 [.typedef row (.pointer (.integer .int true)) none] = .ok (t, ds) ∧
      t.intern (.array (.typedef row) (some 3)) = .ok (t₁, i) ∧
      t₁.realInfo i = .ok (.array base length) ∧
      t.internParam (.array (.typedef row) (some 3)) = .ok (t₂, id) ∧
      t₂.realInfo id = .ok (.pointer base) := by
  obtain ⟨row, hok⟩ : ∃ row, (do
      let r ← checkedTypes .ilp32 [.typedef row (.pointer (.integer .int true)) none]
      let p ← r.1.intern (.array (.typedef row) (some 3))
      return (r.2.hasErrors, ← p.1.isArray p.2)) = .ok (false, true) := ⟨"row", rfl⟩
  obtain ⟨⟨t, ds⟩, hchecked, hok⟩ := bind_eq_ok_iff.1 hok
  obtain ⟨⟨t₁, i⟩, hi, hok⟩ := bind_eq_ok_iff.1 hok
  obtain ⟨b, harray, hok⟩ := bind_eq_ok_iff.1 hok
  obtain ⟨hquiet, rfl⟩ := Prod.mk.inj (Except.ok.inj hok)
  have hend := TypedefsEnd.of_measured (checkedTypes_measured (by decide) hchecked hquiet)
  obtain ⟨t₂, id, hp, -, hpointer⟩ :=
    (parameters_decay (checkedTypes_reachable hchecked) hend).1 _ t₁ i hi
  obtain ⟨base, length, hinfo⟩ := exists_realInfo_of_isArray harray
  exact ⟨row, t, ds, t₁, i, t₂, id, base, length, hchecked, hi, hinfo, hp,
    hpointer base length hinfo (not_hidesArray nofun)⟩

/-- A parameter that is declared with a typedef of an array of integers is an array in place, of
which expressions take the address. -/
theorem typedef_stays_array :
    ∃ a t ds t₂ id, checkedTypes .ilp32 [.typedef a (.array (.integer .int true) (some 3)) none] =
        .ok (t, ds) ∧ t.TypedefsEnd ∧ t.internParam (.typedef a) = .ok (t₂, id) ∧
      t₂.isArray id = .ok true ∧ t₂.isByAddress id = .ok true := by
  obtain ⟨a, hok⟩ : ∃ a, (do
      let r ← checkedTypes .ilp32 [.typedef a (.array (.integer .int true) (some 3)) none]
      let p ← r.1.internParam (.typedef a)
      return (r.2.hasErrors, ← p.1.isArray p.2)) = .ok (false, true) := ⟨"A", rfl⟩
  obtain ⟨⟨t, ds⟩, hchecked, hok⟩ := bind_eq_ok_iff.1 hok
  obtain ⟨⟨t₂, id⟩, hp, hok⟩ := bind_eq_ok_iff.1 hok
  obtain ⟨b, harray, hok⟩ := bind_eq_ok_iff.1 hok
  obtain ⟨hquiet, rfl⟩ := Prod.mk.inj (Except.ok.inj hok)
  have hend := TypedefsEnd.of_measured (checkedTypes_measured (by decide) hchecked hquiet)
  exact ⟨a, t, ds, t₂, id, hchecked, hend, hp, harray,
    isByAddress_of_isAggregate (isAggregate_of_isArray harray)⟩

end TypeTable

end Backend386
