import Backend386.Proofs.Types.TableSteps
import Backend386.Proofs.Types.Widths

/-!
# Types that are looked up along the way

While a unit is lowered its types are looked up where they are used, so that the table grows between
one use of a type and the next. What is known of a type does not depend on when it was looked up.

* `TypeTable.Measured.of_interns` — types can be measured in the tables that lookups lead to;
* `TypeTable.Measured.baseType_of_extends` — what is said of a type was said before;
* `TypeTable.HasWidth`, `TypeTable.HasElements`, `TypeTable.IsPlain` — what is known of the type
  that is registered for a reference;
* `TypeTable.Resolves` — what is known of a reference wherever it is looked up later;
* `TypeTable.Canonical.resolves_pointer` — pointers need not have been looked up before.
-/

namespace Backend386.TypeTable

open Relation (ReflTransGen)

variable {t t' : TypeTable} {id base : TypeId} {ref : TypeRef} {info : TypeInfo} {w : Width}
  {size : Nat} {P Q : TypeTable → Prop}

/-! ## Tables that lookups lead to -/

/-- Registering references keeps a table coherent. -/
theorem Coherent.of_interns (h : t.Coherent) (hi : ReflTransGen Interns t t') : t'.Coherent := by
  induction hi with
  | refl => exact h
  | tail _ hstep ih =>
    obtain ⟨ref, id, hi⟩ := hstep
    exact ih.intern hi

/-- It keeps it canonical, too. -/
theorem Canonical.of_interns (h : t.Canonical) (hi : ReflTransGen Interns t t') :
    t'.Canonical := by
  induction hi with
  | refl => exact h
  | tail _ hstep ih =>
    obtain ⟨ref, id, hi⟩ := hstep
    exact (ih.intern hi).canonical

namespace Measured

theorem of_interns (h : t.Measured) (hi : ReflTransGen Interns t t') : t'.Measured :=
  h.of_extends (extends_of_interns hi) (h.coherent.of_interns hi)

/-- Every type of the table has a real type. -/
theorem exists_realInfo (h : t.Measured) (hid : id.index < t.size) :
    ∃ info, t.realInfo id = .ok info := by
  obtain ⟨real, hreal, -⟩ := h.acyclic.exists_realType h.complete hid
  obtain ⟨info, hinfo, -⟩ := (realType_of_eq_ok hreal).exists_info
  exact ⟨info, bind_eq_ok_iff.2 ⟨real, hreal, hinfo⟩⟩

/-- What a later table says of the elements of a type, the table said when the type was there. -/
theorem baseType_of_extends (h : t.Measured) (hext : t.Extends t') (hid : id.index < t.size)
    (hb : t'.baseType id = .ok base) : t.baseType id = .ok base := by
  obtain ⟨info, hinfo⟩ := h.exists_realInfo hid
  rw [baseType, hext.lasts (·.realInfo id) hinfo] at hb
  rw [baseType, hinfo]
  cases info <;> first | exact hb | cases hb

end Measured

/-! ## Kinds of registered types -/

/-- Values of the type that is registered for a reference have a width. -/
def HasWidth (t : TypeTable) (ref : TypeRef) (w : Width) : Prop :=
  ∃ id, t.lookup? ref = some id ∧ t.registerWidth id = .ok w

/-- The type that is registered for a reference is a pointer or an array, with elements of a size.
-/
def HasElements (t : TypeTable) (ref : TypeRef) (size : Nat) : Prop :=
  ∃ id, t.lookup? ref = some id ∧ t.isPointerLike id = .ok true ∧ t.elementSize id = .ok size

/-- The type that is registered for a reference is neither a pointer nor an array. -/
def IsPlain (t : TypeTable) (ref : TypeRef) : Prop :=
  ∃ id, t.lookup? ref = some id ∧ t.isPointerLike id = .ok false

theorem HasWidth.mono (h : t.Extends t') (hw : t.HasWidth ref w) : t'.HasWidth ref w :=
  let ⟨id, hid, hwidth⟩ := hw
  ⟨id, h.lookup? hid, h.lasts (·.registerWidth id) hwidth⟩

theorem HasElements.mono (h : t.Extends t') (hs : t.HasElements ref size) :
    t'.HasElements ref size :=
  let ⟨id, hid, hlike, hsize⟩ := hs
  ⟨id, h.lookup? hid, h.lasts (·.isPointerLike id) hlike, h.lasts (·.elementSize id) hsize⟩

theorem IsPlain.mono (h : t.Extends t') (hp : t.IsPlain ref) : t'.IsPlain ref :=
  let ⟨id, hid, hlike⟩ := hp
  ⟨id, h.lookup? hid, h.lasts (·.isPointerLike id) hlike⟩

/-! ## References that are looked up later -/

/-- Wherever the reference is looked up later, it is found, and the table is as it should be from
then on. -/
def Resolves (t : TypeTable) (ref : TypeRef) (P : TypeTable → Prop) : Prop :=
  ∀ t₁, ReflTransGen Interns t t₁ →
    ∃ t₂ id, t₁.intern ref = .ok (t₂, id) ∧ ∀ t₃, t₂.Extends t₃ → P t₃

namespace Resolves

theorem later (h : t.Resolves ref P) (hi : ReflTransGen Interns t t') : t'.Resolves ref P :=
  fun t₁ h₁ => h t₁ (hi.trans h₁)

theorem imp (h : t.Resolves ref P) (hpq : ∀ t', P t' → Q t') : t.Resolves ref Q := fun t₁ h₁ =>
  let ⟨t₂, id, hid, hp⟩ := h t₁ h₁
  ⟨t₂, id, hid, fun t₃ h₃ => hpq t₃ (hp t₃ h₃)⟩

/-- What was looked up before is found again. -/
theorem of_lookup? (hl : t.lookup? ref = some id) (hp : ∀ t', t.Extends t' → P t') :
    t.Resolves ref P := by
  intro t₁ h₁
  have hext := extends_of_interns h₁
  refine ⟨t₁, id, ?_, fun t₂ h₂ => hp t₂ (hext.trans h₂)⟩
  rw [intern.eq_def, hext.lookup? hl]

end Resolves

/-- A type that has a base is like a pointer. -/
theorem isPointerLike_of_baseType (hb : t.baseType id = .ok base) :
    t.isPointerLike id = .ok true := by
  obtain ⟨info, hinfo, hb⟩ := bind_eq_ok_iff.1 hb
  obtain ⟨-, -, -, -, -, hlike⟩ := kinds_of_realInfo hinfo
  rw [hlike]
  cases info <;> first | rfl | cases hb

/-- A pointer to a type of the table is as wide as a pointer and has elements of the size of the
type, whether or not it was looked up before. -/
theorem Canonical.resolves_pointer (h : t.Canonical) (hm : t.Measured)
    (hl : t.lookup? ref = some id) (hsize : t.sizeOf id = .ok size)
    (hptr : t.pointerWidth = .ok w) :
    t.Resolves (.pointer ref) fun t => t.HasElements (.pointer ref) size ∧
      t.HasWidth (.pointer ref) w := by
  intro t₁ h₁
  have hext := extends_of_interns h₁
  -- the pointer that is found leads back to the type, under the number that it had before
  obtain ⟨t₂, ptr, hpointer, hbase⟩ :=
    (h.of_interns h₁).pointerTo ((lt_of_lookup? hl).trans_le hext.size_le)
  have href : t₁.refOf id = .ok ref := refOf_of_lookup? (hext.lookup? hl)
  rw [TypeTable.pointerTo, href] at hpointer
  have hintern : t₁.intern (.pointer ref) = .ok (t₂, ptr) := hpointer
  have hext₂ := hext.trans (intern_extends hintern).1
  have hm₂ := hm.of_interns (h₁.tail ⟨_, _, hintern⟩)
  have hlookup := intern_lookup? hintern
  have helements : t₂.HasElements (.pointer ref) size :=
    ⟨ptr, hlookup, isPointerLike_of_baseType hbase,
      bind_eq_ok_iff.2 ⟨id, hbase, hext₂.lasts (·.sizeOf id) hsize⟩⟩
  have hwidth : t₂.HasWidth (.pointer ref) w := by
    refine ⟨ptr, hlookup, ?_⟩
    rw [hm₂.registerWidth_of_baseType hbase]
    exact hext₂.lasts pointerWidth hptr
  exact ⟨t₂, ptr, hintern, fun t₃ h₃ => ⟨helements.mono h₃, hwidth.mono h₃⟩⟩

end Backend386.TypeTable
