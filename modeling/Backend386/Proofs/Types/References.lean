import Backend386.Proofs.Types.Growth

/-!
# References and the types they name

A reference is taken apart in two ways: into everything that is written in it, and into what a
lookup of it meets, where a parameter that is declared as an array counts as a pointer. Both meet
the same structs, unions and typedefs.

* `TypeRef.parts` — the references inside a reference;
* `TypeRef.Occurs` — what a lookup meets;
* `TypeTable.refOf_eq_ok_iff`, `TypeTable.intern_refOf` — the reference under which a type is
  registered.
-/

namespace Backend386

/-! ## References inside references -/

mutual

/-- A reference and the references inside it. -/
def TypeRef.parts : TypeRef → List TypeRef
  | .pointer base => .pointer base :: base.parts
  | .array base length => .array base length :: base.parts
  | .function ret params vararg => .function ret params vararg :: (ret.parts ++ partsOfRefs params)
  | ref => [ref]

/-- The references inside a list of references. -/
def partsOfRefs : List TypeRef → List TypeRef
  | [] => []
  | ref :: refs => ref.parts ++ partsOfRefs refs

end

namespace TypeRef

/-- How a parameter is looked up: an array as a pointer to its element. -/
def asParam : TypeRef → TypeRef
  | .array base _ => .pointer base
  | ref => ref

/-- The references that a lookup of a reference meets. -/
inductive Occurs (part : TypeRef) : TypeRef → Prop where
  | self : Occurs part part
  | pointer {base : TypeRef} (h : Occurs part base) : Occurs part (.pointer base)
  | array {base : TypeRef} {length : Option UInt64} (h : Occurs part base) :
    Occurs part (.array base length)
  | ret {ret : TypeRef} {params : List TypeRef} {vararg : Bool} (h : Occurs part ret) :
    Occurs part (.function ret params vararg)
  | param {ret param : TypeRef} {params : List TypeRef} {vararg : Bool} (hp : param ∈ params)
    (h : Occurs part param.asParam) : Occurs part (.function ret params vararg)

variable {part ref base : TypeRef}

theorem mem_partsOfRefs {refs : List TypeRef} :
    part ∈ partsOfRefs refs ↔ ∃ ref ∈ refs, part ∈ ref.parts := by
  induction refs with
  | nil => simp [partsOfRefs]
  | cons ref refs ih => simp [partsOfRefs, ih]

theorem sizeOf_asParam_le (ref : TypeRef) : sizeOf ref.asParam ≤ sizeOf ref := by
  cases ref <;> simp [asParam]

/-- What occurs in a pointer occurs in its base, or is the pointer. -/
theorem occurs_pointer_iff :
    part.Occurs (.pointer base) ↔ part.Occurs base ∨ part = .pointer base := by
  constructor
  · intro h
    cases h with
    | self => exact .inr rfl
    | pointer h => exact .inl h
  · rintro (h | rfl)
    · exact .pointer h
    · exact .self

/-- What occurs in an array occurs in its element, or is the array. -/
theorem occurs_array_iff {length : Option UInt64} :
    part.Occurs (.array base length) ↔ part.Occurs base ∨ part = .array base length := by
  constructor
  · intro h
    cases h with
    | self => exact .inr rfl
    | array h => exact .inl h
  · rintro (h | rfl)
    · exact .array h
    · exact .self

/-- What occurs in a function type occurs in its result or in a parameter, or is the type. -/
theorem occurs_function_iff {ret : TypeRef} {params : List TypeRef} {vararg : Bool} :
    part.Occurs (.function ret params vararg) ↔
      (part.Occurs ret ∨ ∃ p ∈ params.map asParam, part.Occurs p) ∨
        part = .function ret params vararg := by
  constructor
  · intro h
    cases h with
    | self => exact .inr rfl
    | ret h => exact .inl (.inl h)
    | param hp h => exact .inl (.inr ⟨_, List.mem_map_of_mem hp, h⟩)
  · rintro ((h | ⟨_, hp, h⟩) | rfl)
    · exact .ret h
    · obtain ⟨param, hparam, rfl⟩ := List.mem_map.1 hp
      exact .param hparam h
    · exact .self

/-- What a lookup meets is no larger than what is looked up. -/
theorem Occurs.sizeOf_le (h : part.Occurs ref) : sizeOf part ≤ sizeOf ref := by
  induction h with
  | self => exact le_rfl
  | pointer _ ih | array _ ih | ret _ ih =>
    simp only [pointer.sizeOf_spec, array.sizeOf_spec, function.sizeOf_spec]
    omega
  | @param ret param params vararg hp _ ih =>
    have := sizeOf_asParam_le param
    have := List.sizeOf_lt_of_mem hp
    simp only [function.sizeOf_spec]
    omega

theorem not_occurs_of_lt (h : sizeOf ref < sizeOf part) : ¬ part.Occurs ref :=
  fun hocc => absurd hocc.sizeOf_le (not_le.2 h)

/-- A parameter is smaller than its function type. -/
theorem sizeOf_param_lt {ret param : TypeRef} {params : List TypeRef} {vararg : Bool}
    (h : param ∈ params.map asParam) : sizeOf param < sizeOf (function ret params vararg) := by
  obtain ⟨p, hp, rfl⟩ := List.mem_map.1 h
  have hle := sizeOf_asParam_le p
  have hlt := List.sizeOf_lt_of_mem hp
  simp only [function.sizeOf_spec]
  omega

/-- Neither the result nor the parameters of a function hold the function, which is larger. -/
theorem not_occurs_function {ret : TypeRef} {params : List TypeRef} {vararg : Bool} :
    ¬ ((function ret params vararg).Occurs ret ∨
      ∃ p ∈ params.map asParam, (function ret params vararg).Occurs p) := by
  rintro (hocc | ⟨p, hp, hocc⟩)
  · exact not_occurs_of_lt (by simp only [function.sizeOf_spec]; omega) hocc
  · exact not_occurs_of_lt (sizeOf_param_lt hp) hocc

/-- A struct, a union or a typedef that is written in a reference is met by a lookup of it. -/
theorem occurs_of_mem_parts (hn : part.isNamed = true) :
    ∀ {ref : TypeRef}, part ∈ ref.parts → part.Occurs ref
  | .pointer base, h => by
    rcases List.mem_cons.1 h with rfl | h
    · cases hn
    · exact .pointer (occurs_of_mem_parts hn h)
  | .array base length, h => by
    rcases List.mem_cons.1 h with rfl | h
    · cases hn
    · exact .array (occurs_of_mem_parts hn h)
  | .function ret params vararg, h => by
    rcases List.mem_cons.1 h with rfl | h
    · cases hn
    · rcases List.mem_append.1 h with h | h
      · exact .ret (occurs_of_mem_parts hn h)
      · obtain ⟨param, hparam, h⟩ := mem_partsOfRefs.1 h
        have hsize := List.sizeOf_lt_of_mem hparam
        refine .param hparam ?_
        have hparts := occurs_of_mem_parts hn h
        -- of an array, the element is met behind the pointer
        cases param with
        | array base length =>
          cases hparts with
          | self => cases hn
          | array hbase => exact .pointer hbase
        | _ => exact hparts
  | .void, h | .integer _ _, h | .struct _, h | .union _, h | .typedef _, h => by
    obtain rfl := List.mem_singleton.1 h
    exact .self
termination_by ref => sizeOf ref

theorem mem_parts_self (ref : TypeRef) : ref ∈ ref.parts := by
  cases ref <;> simp [parts]

/-- Both ways of taking a reference apart meet the same structs, unions and typedefs. -/
theorem mem_parts_iff_occurs (hn : part.isNamed = true) : part ∈ ref.parts ↔ part.Occurs ref := by
  refine ⟨occurs_of_mem_parts hn, fun h => ?_⟩
  induction h with
  | self => exact mem_parts_self _
  | pointer _ ih | array _ ih => exact List.mem_cons_of_mem _ ih
  | ret _ ih => exact List.mem_cons_of_mem _ (List.mem_append_left _ ih)
  | @param ret param params vararg hp _ ih =>
    refine List.mem_cons_of_mem _ (List.mem_append_right _ (mem_partsOfRefs.2 ⟨param, hp, ?_⟩))
    cases param with
    | array base length =>
      rcases List.mem_cons.1 ih with rfl | ih
      · cases hn
      · exact List.mem_cons_of_mem _ ih
    | _ => exact ih

end TypeRef

namespace TypeTable

variable {t t' t₁ t₂ : TypeTable} {id : TypeId} {ref : TypeRef} {info : TypeInfo}

theorem internParam_eq (t : TypeTable) (ref : TypeRef) :
    t.internParam ref = t.intern ref.asParam := by
  cases ref <;> rfl

theorem internParams_eq (t : TypeTable) (refs : List TypeRef) :
    t.internParams refs = t.internAll (refs.map TypeRef.asParam) := by
  induction refs generalizing t with
  | nil => rfl
  | cons ref refs ih => simp only [internParams_cons, internParam_eq, ih, List.map_cons, internAll]

/-! ## References of types -/

/-- The reference of an id is that of its entry. -/
theorem refOf_eq_ok_iff :
    t.refOf id = .ok ref ↔ ∃ e, t.entries[id.index]? = some e ∧ e.ref = ref := by
  constructor
  · intro h
    obtain ⟨e, he, hr⟩ := bind_eq_ok_iff.1 h
    exact ⟨e, entry_eq_ok_iff.1 he, Except.ok.inj hr⟩
  · rintro ⟨e, he, rfl⟩
    rw [refOf, entry_eq_ok_iff.2 he]
    rfl

/-- What was registered stays registered under its reference. -/
theorem Extends.refOf (h : t.Extends t') (hr : t.refOf id = .ok ref) : t'.refOf id = .ok ref := by
  induction h with
  | refl => exact hr
  | put _ _ _ ih =>
    rw [refOf_eq_ok_iff] at ih ⊢
    obtain ⟨e, he, heq⟩ := ih
    exact ⟨e, List.getElem?_append_left (List.getElem?_eq_some_iff.1 he).1 ▸ he, heq⟩

theorem refOf_append_last : (t.append ref info).refOf ⟨t.size⟩ = .ok ref := by
  refine refOf_eq_ok_iff.2 ⟨⟨ref, info⟩, ?_, rfl⟩
  simp [append, size]

theorem refOf_of_lookup? (h : t.lookup? ref = some id) : t.refOf id = .ok ref := by
  obtain ⟨i, hi, rfl⟩ := Option.map_eq_some_iff.1 h
  obtain ⟨hlt, hentry, -⟩ := List.findIdx?_eq_some_iff_getElem.1 hi
  exact refOf_eq_ok_iff.2 ⟨_, List.getElem?_eq_getElem hlt, of_decide_eq_true hentry⟩

/-- A reference under which a type is registered is found. -/
theorem exists_lookup?_of_refOf (h : t.refOf id = .ok ref) : ∃ id', t.lookup? ref = some id' := by
  obtain ⟨e, he, rfl⟩ := refOf_eq_ok_iff.1 h
  cases hfind : t.lookup? e.ref with
  | some id' => exact ⟨id', rfl⟩
  | none =>
    have hnone := List.findIdx?_eq_none_iff.1 (Option.map_eq_none_iff.1 hfind) e
      (List.mem_of_getElem? he)
    simp at hnone

/-- The type that is looked up is registered under the reference. -/
theorem intern_refOf (h : t.intern ref = .ok (t', id)) : t'.refOf id = .ok ref := by
  have hput {t₁ : TypeTable} {info : TypeInfo} (hp : t₁.put ref info = .ok (t', id)) :
      t'.refOf id = .ok ref := by
    obtain ⟨-, rfl, rfl⟩ := put_eq_ok_iff.1 hp
    exact refOf_append_last
  rw [intern.eq_def] at h
  cases hl : t.lookup? ref with
  | some found =>
    rw [hl] at h
    obtain ⟨rfl, rfl⟩ := Prod.mk.inj (Except.ok.inj h)
    exact refOf_of_lookup? hl
  | none =>
    rw [hl] at h
    cases ref with
    | pointer base | array base length =>
      obtain ⟨⟨t₁, b⟩, -, hp⟩ := bind_eq_ok_iff.1 h
      exact hput hp
    | function ret params vararg =>
      obtain ⟨⟨t₁, r⟩, -, h⟩ := bind_eq_ok_iff.1 h
      obtain ⟨⟨t₂, ps⟩, -, hp⟩ := bind_eq_ok_iff.1 h
      exact hput hp
    | _ => cases h

end TypeTable

end Backend386
