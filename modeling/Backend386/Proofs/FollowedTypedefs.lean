import Backend386.Proofs.Types.TypedefChains

/-!
# Typedefs are followed to the end

What is asked of a type is asked of its real type. So a typedef answers as the type that it stands
for in the end, and a question goes round only where types do; the check finds every such circle,
and what is looked up after the check closes none.

* `AnswersAlike` — the same value, or the same fault with the name of another type in it;
* `TypeTable.IsKind` — a question that is decided by what is known of the real type;
* `TypeTable.SameAnswers` — a typedef answers as its real type does;
* `TypeTable.NoCircles` — no question about a type goes round;
* `TypeTable.typedefs_followed` — how far typedefs are followed, and what is found there.
-/

namespace Backend386

/-! ## Answers -/

/-- The same fault, except for the name of the type that was asked. -/
inductive Fault.SameCause (name name' : String) : Fault → Fault → Prop where
  | refl (fault : Fault) : SameCause name name' fault fault
  | noBaseType : SameCause name name' (.noBaseType name) (.noBaseType name')
  | notComposite : SameCause name name' (.notComposite name) (.notComposite name')
  | notCallable : SameCause name name' (.notCallable name) (.notCallable name')

/-- The same value, or the same fault except for the name of the type that was asked. -/
inductive AnswersAlike (name name' : String) {α : Type} :
    Except Fault α → Except Fault α → Prop where
  | ok (a : α) : AnswersAlike name name' (.ok a) (.ok a)
  | error {fault fault' : Fault} (h : fault.SameCause name name' fault') :
    AnswersAlike name name' (.error fault) (.error fault')

namespace AnswersAlike

variable {α β : Type} {name name' : String} {x y : Except Fault α}

theorem refl (x : Except Fault α) : AnswersAlike name name' x x := by
  cases x with
  | ok a => exact .ok a
  | error fault => exact .error (.refl fault)

/-- Questions that are asked one after another are answered alike if each of them is. -/
theorem bind {f g : α → Except Fault β} (hx : AnswersAlike name name' x y)
    (hf : ∀ a, AnswersAlike name name' (f a) (g a)) :
    AnswersAlike name name' (x >>= f) (y >>= g) := by
  cases hx with
  | ok a => exact hf a
  | error h => exact .error h

end AnswersAlike

theorem Deferred.get_faults {α : Type} {faults : Fault → Prop} (d : Deferred α) {what : String}
    (h : faults (.readEarly what)) : FaultsIn faults (d.get what) := by
  cases d with
  | pending => exact .error h
  | settled a => exact .ok a

namespace TypeTable

variable {t t' : TypeTable} {id real : TypeId}

/-! ## Kinds -/

/-- The questions about the kind of a type. -/
def kindQueries : List (TypeTable → TypeId → Except Fault Bool) :=
  [isVoid, isInteger, isSigned, isPointer, isArray, isComposite, isFunction, isScalar, isAggregate,
    isPointerLike]

/-- A question that is decided by what is known of the real type. -/
def IsKind (ask : TypeTable → TypeId → Except Fault Bool) : Prop :=
  ∃ kind : TypeInfo → Bool, ∀ t id, ask t id = t.realInfo id >>= fun info => .ok (kind info)

namespace IsKind

variable {ask ask' : TypeTable → TypeId → Except Fault Bool}

theorem of_match {answer : TypeInfo → Except Fault Bool} (h : ∀ info, ∃ b, answer info = .ok b) :
    IsKind fun t id => t.realInfo id >>= answer := by
  choose kind hkind using h
  exact ⟨kind, fun _ _ => bind_congr hkind⟩

/-- A question about two kinds is one about their union. -/
theorem or (h : IsKind ask) (h' : IsKind ask') :
    IsKind fun t id => do return (← ask t id) || (← ask' t id) := by
  obtain ⟨kind, hkind⟩ := h
  obtain ⟨kind', hkind'⟩ := h'
  refine ⟨fun info => kind info || kind' info, fun t id => ?_⟩
  beta_reduce
  rw [hkind, hkind']
  cases t.realInfo id <;> rfl

end IsKind

/-- Three of the kinds are put together from two others each. -/
theorem isKind_of_mem : ∀ ask ∈ kindQueries, IsKind ask := by
  have hvoid : IsKind isVoid := .of_match fun info => by cases info <;> exact ⟨_, rfl⟩
  have hinteger : IsKind isInteger := .of_match fun info => by cases info <;> exact ⟨_, rfl⟩
  have hsigned : IsKind isSigned := .of_match fun info => by cases info <;> exact ⟨_, rfl⟩
  have hpointer : IsKind isPointer := .of_match fun info => by cases info <;> exact ⟨_, rfl⟩
  have harray : IsKind isArray := .of_match fun info => by cases info <;> exact ⟨_, rfl⟩
  have hcomposite : IsKind isComposite := .of_match fun info => by cases info <;> exact ⟨_, rfl⟩
  have hfunction : IsKind isFunction := .of_match fun info => by cases info <;> exact ⟨_, rfl⟩
  simp only [kindQueries, List.forall_mem_cons]
  exact ⟨hvoid, hinteger, hsigned, hpointer, harray, hcomposite, hfunction, hinteger.or hpointer,
    hcomposite.or harray, hpointer.or harray, nofun⟩

/-! ## The answers of a typedef -/

/-- Every question has the same answer for the two types. -/
structure SameAnswers (t : TypeTable) (id real : TypeId) : Prop where
  /-- the kind is known of both -/
  kinds : ∀ ask ∈ kindQueries, ∃ b, ask t id = .ok b ∧ ask t real = .ok b
  baseType : AnswersAlike (t.nameOf id) (t.nameOf real) (t.baseType id) (t.baseType real)
  composite : AnswersAlike (t.nameOf id) (t.nameOf real) (t.composite id) (t.composite real)
  function : AnswersAlike (t.nameOf id) (t.nameOf real) (t.function id) (t.function real)
  member : ∀ name,
    AnswersAlike (t.nameOf id) (t.nameOf real) (t.member? id name) (t.member? real name)

theorem RealType.sameType (h : t.RealType id real) : t.SameType id real := by
  obtain ⟨info, hi, hn⟩ := h.exists_info
  exact ⟨real, h.realType_eq, (RealType.self hi hn).realType_eq⟩

/-- Both are asked of the real type, which is its own real type. -/
theorem RealType.sameAnswers (h : t.RealType id real) (hc : t.Complete) :
    t.SameAnswers id real := by
  have hinfo := h.sameType.realInfo_eq
  have hcomposite : AnswersAlike (t.nameOf id) (t.nameOf real)
      (t.composite id) (t.composite real) := by
    rw [TypeTable.composite, TypeTable.composite, hinfo]
    refine (AnswersAlike.refl _).bind fun info => ?_
    cases info with
    | composite c => exact .ok c
    | _ => exact .error .notComposite
  constructor
  case kinds =>
    intro ask hask
    obtain ⟨kind, hkind⟩ := isKind_of_mem ask hask
    obtain ⟨info, hi⟩ := h.sameType.exists_realInfo
    refine ⟨kind info, ?_, ?_⟩
    · rw [hkind, hi]
      rfl
    · rw [hkind, ← hinfo, hi]
      rfl
  case baseType =>
    rw [TypeTable.baseType, TypeTable.baseType, hinfo]
    refine (AnswersAlike.refl _).bind fun info => ?_
    cases info with
    | pointer base | array base => exact .ok base
    | _ => exact .error .noBaseType
  case composite => exact hcomposite
  case function =>
    rw [TypeTable.function, TypeTable.function, hinfo]
    refine (AnswersAlike.refl _).bind fun info => ?_
    cases info with
    | function f => exact .ok f
    | pointer base =>
      -- what is pointed to is the same type, whichever of the two is asked
      refine (AnswersAlike.refl (t.realInfo base)).bind fun info => ?_
      cases info with
      | function f => exact .ok f
      | _ => exact .error .notCallable
    | _ => exact .error .notCallable
  case member =>
    intro name
    refine hcomposite.bind fun c => ?_
    rw [h.layout_eq hc]
    exact .refl _

/-! ## Questions that come to an end -/

theorem info_faults (t : TypeTable) (id : TypeId) : FaultsIn (¬ ·.IsCircle) (t.info id) := by
  rw [info, entry]
  split
  · exact .ok _
  · exact .error not_false

/-- The bounded search itself has no fault for a circle. -/
theorem followTypedefs_faults (n : Nat) : FaultsIn (¬ ·.IsCircle) (t.followTypedefs n id) := by
  induction n generalizing id with
  | zero => exact .ok _
  | succ n ih =>
    refine (t.info_faults id).bind fun info _ => ?_
    cases info with
    | typedef d => exact (d.real.get_faults not_false).bind fun _ _ => ih
    | _ => exact .ok _

/-- No question about the type tells of a circle. -/
structure NoCircles (t : TypeTable) (id : TypeId) : Prop where
  realType : FaultsIn (¬ ·.IsCircle) (t.realType id)
  kinds : ∀ ask ∈ kindQueries, FaultsIn (¬ ·.IsCircle) (ask t id)
  baseType : FaultsIn (¬ ·.IsCircle) (t.baseType id)
  composite : FaultsIn (¬ ·.IsCircle) (t.composite id)
  function : FaultsIn (¬ ·.IsCircle) (t.function id)
  member : ∀ name, FaultsIn (¬ ·.IsCircle) (t.member? id name)

namespace Acyclic

/-- Where no type contains itself, the faults of following typedefs are circles only. -/
theorem realType_faults (ha : t.Acyclic) (hc : t.Complete) :
    FaultsIn (¬ ·.IsCircle) (t.realType id) := by
  refine (followTypedefs_faults _).bind fun found hfound => ?_
  cases found with
  | some real => exact .ok _
  | none => exact (ha.not_leadsIntoCircle (hc.realType?_eq_none_iff.1 hfound).leadsIntoCircle).elim

theorem realInfo_faults (ha : t.Acyclic) (hc : t.Complete) :
    FaultsIn (¬ ·.IsCircle) (t.realInfo id) :=
  (ha.realType_faults hc).bind fun real _ => t.info_faults real

/-- The same for the members of a struct or a union. -/
theorem composite_faults (ha : t.Acyclic) (hc : t.Complete) :
    FaultsIn (¬ ·.IsCircle) (t.composite id) := by
  refine (ha.realInfo_faults hc).bind fun info _ => ?_
  cases info with
  | composite c => exact .ok _
  | _ => exact .error not_false

/-- The offsets of members are those of a layout, which comes to an end as well. -/
theorem member_faults (ha : t.Acyclic) (hc : t.Complete) (name : String) :
    FaultsIn (¬ ·.IsCircle) (t.member? id name) := by
  refine (ha.composite_faults hc).bind fun c hcomposite => ?_
  have hid : id.index < t.size := by
    obtain ⟨info, hinfo, -⟩ := bind_eq_ok_iff.1 hcomposite
    obtain ⟨real, hreal, -⟩ := bind_eq_ok_iff.1 hinfo
    obtain ⟨n, hn⟩ := (realType_of_eq_ok hreal).exists_realIn
    exact hn.lt
  split
  · exact .ok _
  · refine ((ha.grounded hc id).layout_faults hc hid).bind fun l _ => ?_
    dsimp only
    split
    · exact (Deferred.get_faults _ not_false).bind fun _ _ => .ok _
    · exact .ok _

/-- Where no type contains itself, every question comes to an end. -/
theorem noCircles (ha : t.Acyclic) (hc : t.Complete) (id : TypeId) : t.NoCircles id where
  realType := ha.realType_faults hc
  kinds := by
    intro ask hask
    obtain ⟨kind, hkind⟩ := isKind_of_mem ask hask
    rw [hkind]
    exact (ha.realInfo_faults hc).bind fun _ _ => .ok _
  baseType := by
    refine (ha.realInfo_faults hc).bind fun info _ => ?_
    cases info with
    | pointer base | array base => exact .ok _
    | _ => exact .error not_false
  composite := ha.composite_faults hc
  function := by
    refine (ha.realInfo_faults hc).bind fun info _ => ?_
    cases info with
    | function f => exact .ok _
    | pointer base =>
      refine (ha.realInfo_faults hc).bind fun info _ => ?_
      cases info with
      | function f => exact .ok _
      | _ => exact .error not_false
    | _ => exact .error not_false
  member := ha.member_faults hc

end Acyclic

/-! ## Following typedefs -/

/-- In a table in which nothing is pending, the search for the real type gives up exactly where
typedefs lead on without an end, and it finds the first type that is no typedef wherever there is
one. To ask for a real type that there is not is the only fault, and it tells of typedefs that stand
for themselves. A typedef answers every question as its real type does. Once the check has found no
error, no question about a type ends in a circle, also not when more types are looked up. -/
theorem typedefs_followed (hc : t.Complete) :
    (∀ id, (t.realType? id = .ok none ↔ t.EndlessTypedefs id) ∧
      (∀ real, t.realType? id = .ok (some real) ↔ t.RealType id real) ∧
      (id.index < t.size → t.EndlessTypedefs id ∨ ∃ real, t.RealType id real)) ∧
    (∀ id fault, id.index < t.size → (t.realType id = .error fault ↔
      fault = .cyclicTypedef (t.nameOf id) ∧ t.LeadsIntoCircle id)) ∧
    (∀ id real, t.RealType id real → t.realType id = .ok real ∧ t.SameAnswers id real) ∧
    ∀ ds ds', t.check ds = .ok ds' → ds'.errorCount = ds.errorCount → ∀ t', t.Extends t' →
      ∀ id, t'.NoCircles id ∧ (id.index < t'.size → ∃ real, t'.realType id = .ok real) := by
  refine ⟨fun id => ⟨hc.realType?_eq_none_iff, fun _ => realType?_eq_some_iff,
    hc.endless_or_real⟩, fun id fault hid => hc.realType_eq_error_iff hid,
    fun id real h => ⟨h.realType_eq, h.sameAnswers hc⟩, ?_⟩
  intro ds ds' hcheck hquiet t' hext id
  have hc' : t'.Complete := hc.of_extends hext
  have ha' : t'.Acyclic := (hc.sound_of_check hcheck hquiet).acyclic.of_extends hext hc
  refine ⟨ha'.noCircles hc' id, fun hid => ?_⟩
  obtain ⟨real, hreal, -⟩ := ha'.exists_realType hc' hid
  exact ⟨real, hreal⟩

/-- A struct, a name for it and a name for that name. -/
def namedTwice (link head : String) : List TypeDefinition :=
  [.composite .struct "node" [{ name := "value", type := .integer .int true }] none,
    .typedef link (.struct "node") none, .typedef head (.typedef link) none]

/-- Two names for each other, and a name for the first of them. -/
def namedInCircle (here there way : String) : List TypeDefinition :=
  [.typedef here (.typedef there) none, .typedef there (.typedef here) none,
    .typedef way (.typedef here) none]

/-- A name of a name answers as the struct does, and a name that leads into a circle has no real
type. -/
theorem typedefs_followed_chains :
    (∃ t₀ t id real, (initial .ilp32).defineAll (namedTwice "link" "head") = .ok t₀ ∧
      t₀.settleDefinitions = .ok t ∧ t.nameOf id = "head" ∧ t.nameOf real = "struct node" ∧
      t.RealType id real ∧ t.SameAnswers id real ∧ t.check [] = .ok [] ∧ t.NoCircles id) ∧
    ∃ t₀ t id, (initial .ilp32).defineAll (namedInCircle "here" "there" "way") = .ok t₀ ∧
      t₀.settleDefinitions = .ok t ∧ t.nameOf id = "way" ∧ t.EndlessTypedefs id ∧
      t.realType id = .error (.cyclicTypedef (t.nameOf id)) ∧ t.LeadsIntoCircle id := by
  constructor
  -- the table is computed once; what is asked of it comes out along with it
  · have hok : (do
        let t₀ ← (initial .ilp32).defineAll (namedTwice "link" "head")
        let t ← t₀.settleDefinitions
        let found ← t.check []
        let real ← t.realType? ⟨11⟩
        return (found, real, t.nameOf ⟨11⟩, t.nameOf ⟨9⟩)) =
        .ok ([], some ⟨9⟩, "head", "struct node") := rfl
    obtain ⟨t₀, hd, hok⟩ := bind_eq_ok_iff.1 hok
    obtain ⟨t, hs, hok⟩ := bind_eq_ok_iff.1 hok
    obtain ⟨found, hcheck, hok⟩ := bind_eq_ok_iff.1 hok
    obtain ⟨real, hreal, hok⟩ := bind_eq_ok_iff.1 hok
    simp only [pure, Except.pure, Except.ok.injEq, Prod.mk.injEq] at hok
    obtain ⟨rfl, rfl, hhead, hnode⟩ := hok
    have hsettled : Settled .ilp32 t := .settle (Reachable.initial.defineAll hd) hs
    obtain ⟨hsearch, -, hsame, hquiet⟩ := typedefs_followed hsettled.complete.1
    have hreal : t.RealType ⟨11⟩ ⟨9⟩ := ((hsearch _).2.1 _).1 hreal
    exact ⟨t₀, t, ⟨11⟩, ⟨9⟩, hd, hs, hhead, hnode, hreal, (hsame _ _ hreal).2, hcheck,
      (hquiet [] [] hcheck rfl t .refl ⟨11⟩).1⟩
  · have hok : (do
        let t₀ ← (initial .ilp32).defineAll (namedInCircle "here" "there" "way")
        let t ← t₀.settleDefinitions
        let real ← t.realType? ⟨11⟩
        return (real, t.nameOf ⟨11⟩)) = .ok (none, "way") := rfl
    obtain ⟨t₀, hd, hok⟩ := bind_eq_ok_iff.1 hok
    obtain ⟨t, hs, hok⟩ := bind_eq_ok_iff.1 hok
    obtain ⟨real, hnone, hok⟩ := bind_eq_ok_iff.1 hok
    simp only [pure, Except.pure, Except.ok.injEq, Prod.mk.injEq] at hok
    obtain ⟨rfl, hway⟩ := hok
    have hsettled : Settled .ilp32 t := .settle (Reachable.initial.defineAll hd) hs
    obtain ⟨hsearch, hfault, -⟩ := typedefs_followed hsettled.complete.1
    have hcyclic : t.realType ⟨11⟩ = .error (.cyclicTypedef (t.nameOf ⟨11⟩)) := by
      rw [realType, hnone]
      rfl
    have hendless : t.EndlessTypedefs ⟨11⟩ := (hsearch _).1.1 hnone
    obtain ⟨-, hcircle⟩ := (hfault _ _ hendless.lt).1 hcyclic
    exact ⟨t₀, t, ⟨11⟩, hd, hs, hway, hendless, hcyclic, hcircle⟩

end TypeTable

end Backend386
