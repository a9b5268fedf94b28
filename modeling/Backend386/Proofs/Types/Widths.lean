import Backend386.Proofs.Types.Growth
import Backend386.Proofs.Types.Parts

/-!
# Widths of types

How wide the values of a type are, and where the parts of an object lie in it, in a table that
passed the check.

* `TypeTable.Coherent`, `TypeTable.Reachable.coherent` — what is registered as a pointer is one;
* `TypeTable.Measured` — the tables in which types can be measured;
* `TypeTable.sizeOf_eq_bytes` — a value that is held in a register is as wide as its object;
* `TypeTable.SameType` — two types that differ in typedefs only;
* `TypeTable.Measured.member_inside` — a member is inside the object that it belongs to.
-/

namespace Backend386.TypeTable

variable {t t' t₁ : TypeTable} {id base real : TypeId} {ref : TypeRef} {info : TypeInfo} {w : Width}
  {profile : WidthProfile}

/-! ## Pointers -/

/-- What is registered as a pointer is one. -/
def Coherent (t : TypeTable) : Prop :=
  ∀ e ∈ t.entries, ∀ r, e.ref = .pointer r → ∃ base, e.info = .pointer base

namespace Coherent

theorem initial (profile : WidthProfile) : (TypeTable.initial profile).Coherent := by
  intro e he r hr
  simp only [TypeTable.initial, basicEntries, List.mem_cons, List.mem_flatMap, List.mem_map] at he
  rcases he with rfl | ⟨rank, -, signed, -, rfl⟩ <;> cases hr

/-- A pointer is entered as one. -/
theorem put (h : t.Coherent) (hp : t.put ref info = .ok (t', id))
    (hr : ∀ r, ref = .pointer r → ∃ base, info = .pointer base) : t'.Coherent := by
  obtain ⟨-, rfl, -⟩ := put_eq_ok_iff.1 hp
  intro e he
  rcases mem_append.1 he with he | rfl
  · exact h e he
  · exact hr

/-- Definitions are no pointers. -/
theorem define (h : t.Coherent) {d : TypeDefinition} (hd : t.define d = .ok (t', id)) :
    t'.Coherent := by
  refine h.put hd fun r hr => ?_
  cases d with
  | composite kind name members location => cases kind <;> cases hr
  | typedef name real location => cases hr

mutual

/-- Registering a reference enters pointers as such. -/
theorem intern : ∀ {ref : TypeRef} {t t' : TypeTable} {id : TypeId}, t.Coherent →
    t.intern ref = .ok (t', id) → t'.Coherent := by
  intro ref t t' id ht h
  rw [intern.eq_def] at h
  cases hl : t.lookup? ref with
  | some found =>
    rw [hl] at h
    obtain ⟨rfl, -⟩ := Prod.mk.inj (Except.ok.inj h)
    exact ht
  | none =>
    rw [hl] at h
    cases ref with
    | pointer base =>
      obtain ⟨⟨t₁, b⟩, hb, hp⟩ := bind_eq_ok_iff.1 h
      exact (intern ht hb).put hp fun _ _ => ⟨b, rfl⟩
    | array base length =>
      obtain ⟨⟨t₁, b⟩, hb, hp⟩ := bind_eq_ok_iff.1 h
      exact (intern ht hb).put hp nofun
    | function ret params vararg =>
      obtain ⟨⟨t₁, r⟩, hr, h⟩ := bind_eq_ok_iff.1 h
      obtain ⟨⟨t₂, ps⟩, hps, hp⟩ := bind_eq_ok_iff.1 h
      exact (internParams (intern ht hr) hps).put hp nofun
    | _ => cases h

/-- So does registering parameters. -/
theorem internParams : ∀ {refs : List TypeRef} {t t' : TypeTable} {ids : List TypeId}, t.Coherent →
    t.internParams refs = .ok (t', ids) → t'.Coherent := by
  intro refs t t' ids ht h
  cases refs with
  | nil =>
    obtain ⟨rfl, -⟩ := Prod.mk.inj (Except.ok.inj h)
    exact ht
  | cons ref refs =>
    rw [internParams_cons] at h
    obtain ⟨⟨t₁, id⟩, hid, h⟩ := bind_eq_ok_iff.1 h
    obtain ⟨⟨t₂, ids⟩, hids, h⟩ := bind_eq_ok_iff.1 h
    obtain ⟨rfl, -⟩ := Prod.mk.inj (Except.ok.inj h)
    refine internParams ?_ hids
    cases ref with
    | array base length =>
      -- a pointer to the elements is looked up instead of the array
      rw [internParam, intern.eq_def] at hid
      cases hl : t.lookup? (.pointer base) with
      | some found =>
        rw [hl] at hid
        obtain ⟨rfl, -⟩ := Prod.mk.inj (Except.ok.inj hid)
        exact ht
      | none =>
        rw [hl] at hid
        obtain ⟨⟨t₁, b⟩, hb, hp⟩ := bind_eq_ok_iff.1 hid
        exact (intern ht hb).put hp fun _ _ => ⟨b, rfl⟩
    | _ => exact intern ht hid

end

/-- So does registering several references. -/
theorem internAll (h : t.Coherent) {refs : List TypeRef} {ids : List TypeId}
    (hi : t.internAll refs = .ok (t', ids)) : t'.Coherent := by
  induction refs generalizing t ids with
  | nil =>
    obtain ⟨rfl, -⟩ := Prod.mk.inj (Except.ok.inj hi)
    exact h
  | cons ref refs ih =>
    obtain ⟨⟨t₁, id⟩, hid, hi⟩ := bind_eq_ok_iff.1 hi
    obtain ⟨⟨t₂, ids⟩, hids, hi⟩ := bind_eq_ok_iff.1 hi
    obtain ⟨rfl, -⟩ := Prod.mk.inj (Except.ok.inj hi)
    exact ih (h.intern hid) hids

/-- Definitions are not registered as pointers. -/
theorem setInfo (h : t.Coherent) (hi : t.info id = .ok info) (hn : ∀ base, info ≠ .pointer base)
    (info' : TypeInfo) : (t.setInfo id info').Coherent := by
  intro e he r hr
  obtain ⟨i, hlt, rfl⟩ := List.mem_iff_getElem.1 he
  simp only [TypeTable.setInfo, List.getElem_modify] at hr ⊢
  simp only [TypeTable.setInfo, List.length_modify] at hlt
  split at hr
  · next heq =>
    -- the entry would have been a pointer before
    obtain ⟨base, hbase⟩ := h _ (List.getElem_mem hlt) r hr
    subst heq
    rw [info_eq_ok_iff] at hi
    obtain ⟨e, he, rfl⟩ := hi
    obtain rfl := Option.some.inj ((List.getElem?_eq_getElem hlt).symm.trans he)
    exact absurd hbase (hn base)
  · next hne =>
    rw [if_neg hne]
    exact h _ (List.getElem_mem hlt) r hr

/-- Settling a definition keeps pointers as they are. -/
theorem settleDefinition (h : t.Coherent) (hs : t.settleDefinition id = .ok t') : t'.Coherent := by
  obtain ⟨info, hinfo, hs⟩ := bind_eq_ok_iff.1 hs
  cases info with
  | composite c =>
    obtain ⟨⟨t₁, ids⟩, hids, hs⟩ := bind_eq_ok_iff.1 hs
    obtain rfl := Except.ok.inj hs
    exact (h.internAll hids).setInfo ((internAll_extends hids).1.lasts (·.info id) hinfo) nofun _
  | typedef d =>
    dsimp only at hs
    split at hs
    · obtain rfl := Except.ok.inj hs
      exact h
    · obtain ⟨⟨t₁, real⟩, hreal, hs⟩ := bind_eq_ok_iff.1 hs
      obtain rfl := Except.ok.inj hs
      exact (h.intern hreal).setInfo ((intern_extends hreal).1.lasts (·.info id) hinfo) nofun _
  | _ =>
    obtain rfl := Except.ok.inj hs
    exact h

/-- So does settling all definitions. -/
theorem settleAll (h : t.Coherent) {l : List Nat}
    (hs : l.foldlM (fun t i => t.settleDefinition ⟨i⟩) t = .ok t') : t'.Coherent := by
  induction l generalizing t with
  | nil =>
    obtain rfl := Except.ok.inj hs
    exact h
  | cons i l ih =>
    rw [List.foldlM_cons] at hs
    obtain ⟨t₁, h₁, hs⟩ := bind_eq_ok_iff.1 hs
    exact ih (h.settleDefinition h₁) hs

end Coherent

/-- A table that is reached is coherent. -/
theorem Reachable.coherent (h : Reachable profile t) : t.Coherent := by
  induction h with
  | initial => exact .initial profile
  | define _ hd ih => exact ih.define hd
  | intern _ hi ih => exact ih.intern hi
  | settle _ hs ih => exact ih.settleAll hs

/-- What is registered for a pointer is a pointer. -/
theorem Coherent.info_of_lookup? (h : t.Coherent) (hl : t.lookup? (.pointer ref) = some id) :
    ∃ base, t.info id = .ok (.pointer base) := by
  obtain ⟨i, hi, rfl⟩ := Option.map_eq_some_iff.1 hl
  obtain ⟨hlt, hentry, -⟩ := List.findIdx?_eq_some_iff_getElem.1 hi
  obtain ⟨base, hbase⟩ := h _ (List.getElem_mem hlt) ref (of_decide_eq_true hentry)
  exact ⟨base, info_eq_ok_iff.2 ⟨_, List.getElem?_eq_getElem hlt, hbase⟩⟩

/-! ## Kinds of types -/

/-- What the table knows of the real type when a question about it was answered. -/
theorem realInfo_of_isByAddress {b : Bool} (h : t.isByAddress id = .ok b) :
    ∃ info, t.realInfo id = .ok info := by
  obtain ⟨aggregate, haggregate, -⟩ := bind_eq_ok_iff.1 h
  obtain ⟨composite, hcomposite, -⟩ := bind_eq_ok_iff.1 haggregate
  exact (bind_eq_ok_iff.1 hcomposite).imp fun info h => h.1

/-- The questions about kinds, answered for what the table knows. -/
theorem kinds_of_realInfo (h : t.realInfo id = .ok info) :
    t.isByAddress id = .ok (info matches .composite _ | .array .. | .function _) ∧
    t.isAggregate id = .ok (info matches .composite _ | .array ..) ∧
    t.isFunction id = .ok (info matches .function _) ∧
    t.isVoid id = .ok (info matches .void) ∧
    t.isScalar id = .ok (info matches .integer .. | .pointer _) ∧
    t.isPointerLike id = .ok (info matches .pointer _ | .array ..) := by
  simp only [isByAddress, isAggregate, isComposite, isArray, isFunction, isVoid, isScalar,
    isInteger,
    isPointer, isPointerLike, h]
  cases info <;> exact ⟨rfl, rfl, rfl, rfl, rfl, rfl⟩

/-- Aggregates are handled by their address. -/
theorem isByAddress_of_isAggregate (h : t.isAggregate id = .ok true) :
    t.isByAddress id = .ok true := by
  obtain ⟨composite, hcomposite, -⟩ := bind_eq_ok_iff.1 h
  obtain ⟨info, hinfo, -⟩ := bind_eq_ok_iff.1 hcomposite
  obtain ⟨hbyAddress, haggregate, -⟩ := kinds_of_realInfo hinfo
  rw [haggregate] at h
  rw [hbyAddress]
  cases info <;> simp_all

theorem isAggregate_of_isArray (h : t.isArray id = .ok true) : t.isAggregate id = .ok true := by
  obtain ⟨info, hinfo, h⟩ := bind_eq_ok_iff.1 h
  obtain ⟨-, haggregate, -⟩ := kinds_of_realInfo hinfo
  rw [haggregate]
  cases info <;> first | rfl | cases h

/-- So are functions. -/
theorem isByAddress_of_isFunction (h : t.isFunction id = .ok true) :
    t.isByAddress id = .ok true := by
  obtain ⟨info, hinfo, -⟩ := bind_eq_ok_iff.1 h
  obtain ⟨hbyAddress, -, hfunction, -⟩ := kinds_of_realInfo hinfo
  rw [hfunction] at h
  rw [hbyAddress]
  cases info <;> simp_all

/-- Values of the type are held in a register as they are. -/
def InRegister (t : TypeTable) (id : TypeId) : Prop :=
  t.isByAddress id = .ok false ∧ t.isVoid id = .ok false

/-- Scalars are kept in registers. -/
theorem inRegister_of_isScalar (h : t.isScalar id = .ok true) : t.InRegister id := by
  obtain ⟨integer, hinteger, -⟩ := bind_eq_ok_iff.1 h
  obtain ⟨info, hinfo, -⟩ := bind_eq_ok_iff.1 hinteger
  obtain ⟨hbyAddress, -, -, hvoid, hscalar, -⟩ := kinds_of_realInfo hinfo
  rw [hscalar] at h
  rw [InRegister, hbyAddress, hvoid]
  cases info <;> simp_all

/-- So are integers. -/
theorem inRegister_of_isInteger (h : t.isInteger id = .ok true) : t.InRegister id := by
  refine inRegister_of_isScalar ?_
  obtain ⟨info, hinfo, h⟩ := bind_eq_ok_iff.1 h
  obtain ⟨-, -, -, -, hscalar, -⟩ := kinds_of_realInfo hinfo
  rw [hscalar]
  cases info <;> first | rfl | cases h

/-- So is whatever is no aggregate, no function and not void. -/
theorem inRegister_of_not (haggregate : t.isAggregate id = .ok false)
    (hfunction : t.isFunction id = .ok false) (hvoid : t.isVoid id = .ok false) :
    t.InRegister id := by
  refine ⟨?_, hvoid⟩
  rw [isByAddress, haggregate, hfunction]
  rfl

/-! ## Widths -/

/-- An address is as wide as a pointer. -/
theorem registerWidth_of_isByAddress (h : t.isByAddress id = .ok true) :
    t.registerWidth id = t.pointerWidth := by
  obtain ⟨info, hinfo⟩ := realInfo_of_isByAddress h
  obtain ⟨-, -, -, hvoid, -⟩ := kinds_of_realInfo hinfo
  rw [registerWidth, h, hvoid]
  rfl

theorem registerWidth_of_inRegister (h : t.InRegister id) :
    t.registerWidth id = t.sizeOf id >>= Width.ofBytes := by
  rw [registerWidth, h.1, h.2]
  rfl

/-- A value that is held in a register is as wide as its object. -/
theorem sizeOf_eq_bytes (h : t.InRegister id) (hw : t.registerWidth id = .ok w) :
    t.sizeOf id = .ok w.bytes := by
  rw [registerWidth_of_inRegister h] at hw
  obtain ⟨size, hsize, hw⟩ := bind_eq_ok_iff.1 hw
  rw [hsize, Width.ofBytes_eq_ok_iff.1 hw]

/-! ## Real types -/

/-- The type that typedefs lead to is the real one. -/
theorem realType_of_eq_ok (h : t.realType id = .ok real) : t.RealType id real := by
  obtain ⟨found, hfound, h⟩ := bind_eq_ok_iff.1 h
  cases found with
  | none => cases h
  | some found =>
    obtain rfl := Except.ok.inj h
    exact realType_of_followTypedefs hfound

/-- The real type, with what the table knows of it. -/
theorem exists_realType (h : t.realInfo id = .ok info) :
    ∃ real, t.RealType id real ∧ t.info real = .ok info := by
  obtain ⟨real, hreal, hinfo⟩ := bind_eq_ok_iff.1 h
  exact ⟨real, realType_of_eq_ok hreal, hinfo⟩

/-! ## Measured tables -/

/-- The tables in which types can be measured. -/
structure Measured (t : TypeTable) : Prop where
  acyclic : t.Acyclic
  complete : t.Complete
  sizes : ScalarSizes IsAlignment t.profile
  coherent : t.Coherent

namespace Measured

/-- Types that are looked up can be measured as well. -/
theorem of_extends (h : t.Measured) (hext : t.Extends t') (hcoherent : t'.Coherent) :
    t'.Measured where
  acyclic := h.acyclic.of_extends hext h.complete
  complete := h.complete.of_extends hext
  sizes := hext.profile ▸ h.sizes
  coherent := hcoherent

/-- A type has the layout of its real type. -/
theorem layout_eq (h : t.Measured) (hi : t.realInfo id = .ok info) :
    t.layout id = t.layoutBy t.layout info := by
  obtain ⟨real, hreal, hinfo⟩ := exists_realType hi
  rw [hreal.layout_eq h.complete, h.complete.layout_eq hinfo]

/-- A pointer is kept in a register of its width. -/
theorem registerWidth_pointer (h : t.Measured) (hi : t.realInfo id = .ok (.pointer base)) :
    t.InRegister id ∧ t.registerWidth id = t.pointerWidth := by
  obtain ⟨hbyAddress, -, -, hvoid, -⟩ := kinds_of_realInfo hi
  have hin : t.InRegister id := ⟨hbyAddress, hvoid⟩
  refine ⟨hin, ?_⟩
  rw [registerWidth_of_inRegister hin, sizeOf, h.layout_eq hi]
  rfl

/-- Pointers are as wide as pointers, and arrays stand for their address. -/
theorem registerWidth_of_baseType (h : t.Measured) (hb : t.baseType id = .ok base) :
    t.registerWidth id = t.pointerWidth := by
  obtain ⟨info, hi, hb⟩ := bind_eq_ok_iff.1 hb
  cases info with
  | pointer => exact (h.registerWidth_pointer hi).2
  | array => exact registerWidth_of_isByAddress (kinds_of_realInfo hi).1
  | _ => cases hb

/-- What is registered as a pointer. -/
theorem registerWidth_of_lookup? (h : t.Measured) (hl : t.lookup? (.pointer ref) = some id) :
    t.InRegister id ∧ t.registerWidth id = t.pointerWidth := by
  obtain ⟨base, hinfo⟩ := h.coherent.info_of_lookup? hl
  have hi : t.realInfo id = .ok (.pointer base) := by
    rw [realInfo, realType, realType?, followTypedefs, hinfo]
    exact hinfo
  exact h.registerWidth_pointer hi

end Measured

/-! ## Types that differ in typedefs only -/

/-- The two types have the same real type. -/
def SameType (t : TypeTable) (a b : TypeId) : Prop :=
  ∃ real, t.realType a = .ok real ∧ t.realType b = .ok real

namespace SameType

variable {a b : TypeId}

theorem realInfo_eq (h : t.SameType a b) : t.realInfo a = t.realInfo b := by
  obtain ⟨real, ha, hb⟩ := h
  rw [realInfo, realInfo, ha, hb]

theorem isByAddress_eq (h : t.SameType a b) : t.isByAddress a = t.isByAddress b := by
  simp only [isByAddress, isAggregate, isComposite, isArray, isFunction, h.realInfo_eq]

theorem isVoid_eq (h : t.SameType a b) : t.isVoid a = t.isVoid b := by
  simp only [isVoid, h.realInfo_eq]

theorem exists_realInfo (h : t.SameType a b) : ∃ info, t.realInfo a = .ok info := by
  obtain ⟨real, ha, -⟩ := h
  obtain ⟨info, hinfo, -⟩ := (realType_of_eq_ok ha).exists_info
  exact ⟨info, bind_eq_ok_iff.2 ⟨real, ha, hinfo⟩⟩

theorem layout_eq (h : t.SameType a b) (ht : t.Measured) : t.layout a = t.layout b := by
  obtain ⟨info, hinfo⟩ := h.exists_realInfo
  rw [ht.layout_eq hinfo, ht.layout_eq (h.realInfo_eq ▸ hinfo)]

theorem sizeOf_eq (h : t.SameType a b) (ht : t.Measured) : t.sizeOf a = t.sizeOf b := by
  rw [sizeOf, sizeOf, h.layout_eq ht]

theorem registerWidth_eq (h : t.SameType a b) (ht : t.Measured) :
    t.registerWidth a = t.registerWidth b := by
  rw [registerWidth, registerWidth, h.isByAddress_eq, h.isVoid_eq, h.sizeOf_eq ht]

end SameType

/-! ## Members -/

/-- Members are found in structs and unions. -/
theorem realInfo_of_member? {name : String} {found : TypeId × Nat}
    (h : t.member? id name = .ok (some found)) : ∃ c, t.realInfo id = .ok (.composite c) := by
  obtain ⟨c, hc, -⟩ := bind_eq_ok_iff.1 h
  obtain ⟨info, hinfo, hc⟩ := bind_eq_ok_iff.1 hc
  cases info with
  | composite c' => exact ⟨c', hinfo⟩
  | _ => cases hc

/-- Structs and unions stand for their address. -/
theorem isByAddress_of_member? {name : String} {found : TypeId × Nat}
    (h : t.member? id name = .ok (some found)) : t.isByAddress id = .ok true := by
  obtain ⟨c, hc⟩ := realInfo_of_member? h
  exact (kinds_of_realInfo hc).1

/-- The offset of a member is known when the size of the object is. -/
theorem sizeOf_of_member? {name : String} {found : TypeId × Nat}
    (h : t.member? id name = .ok (some found)) : ∃ size, t.sizeOf id = .ok size := by
  obtain ⟨c, hc, h⟩ := bind_eq_ok_iff.1 h
  cases hindex : c.memberIndex? name with
  | none =>
    rw [hindex] at h
    cases h
  | some i =>
    rw [hindex] at h
    obtain ⟨l, hl, -⟩ := bind_eq_ok_iff.1 h
    exact ⟨l.size, bind_eq_ok_iff.2 ⟨l, hl, rfl⟩⟩

/-- What a name selects in a struct or a union. -/
theorem member?_eq_some {name : String} {part : TypeId} {offset : Nat}
    (h : t.member? id name = .ok (some (part, offset))) :
    ∃ c i m l, t.composite id = .ok c ∧ c.memberIndex? name = some i ∧ c.members[i]? = some m ∧
      m.type = .settled part ∧ t.layout id = .ok l ∧ l.offsets[i]? = some offset := by
  obtain ⟨c, hc, h⟩ := bind_eq_ok_iff.1 h
  cases hindex : c.memberIndex? name with
  | none =>
    rw [hindex] at h
    cases h
  | some i =>
    rw [hindex] at h
    obtain ⟨l, hl, h⟩ := bind_eq_ok_iff.1 h
    dsimp only at h
    split at h
    · next m start hm hs =>
      obtain ⟨type, htype, h⟩ := bind_eq_ok_iff.1 h
      obtain ⟨rfl, rfl⟩ := Prod.mk.inj (Option.some.inj (Except.ok.inj h))
      have hsettled : m.type = .settled type := by
        cases hm : m.type <;> simp_all [Member.typeId]
      exact ⟨c, i, m, l, hc, hindex, hm, hsettled, hl, hs⟩
    · cases h

/-- A member is inside the object that it belongs to. -/
theorem Measured.member_inside (h : t.Measured) {name : String} {part : TypeId}
    {offset size sub : Nat} (hm : t.member? id name = .ok (some (part, offset)))
    (hsize : t.sizeOf id = .ok size) (hsub : t.sizeOf part = .ok sub) : offset + sub ≤ size := by
  obtain ⟨l, hl, heq⟩ := bind_eq_ok_iff.1 hsize
  obtain rfl := Except.ok.inj heq
  obtain ⟨l', hl', heq⟩ := bind_eq_ok_iff.1 hsub
  obtain rfl := Except.ok.inj heq
  obtain ⟨c, hinfo⟩ := realInfo_of_member? hm
  obtain ⟨c', i, m, l₀, hc, -, hmember, htype, hl₀, hoffset⟩ := member?_eq_some hm
  obtain rfl := Except.ok.inj (hl.symm.trans hl₀)
  rw [composite, hinfo] at hc
  obtain rfl : c = c' := Except.ok.inj hc
  obtain ⟨real, hreal, hinfo'⟩ := bind_eq_ok_iff.1 hinfo
  have hlayout : t.layout real = .ok l := by
    rw [h.complete.layout_eq hinfo', ← h.layout_eq hinfo, hl]
  have hsound := h.acyclic.layoutSound h.complete h.sizes (lt_of_info hinfo') hlayout
  exact (hsound.member c i l' offset hinfo' ⟨m, part, hmember, htype, hl', hoffset⟩).2.1

end Backend386.TypeTable
