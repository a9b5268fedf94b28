import Backend386.Proofs.Types.TableSteps

/-!
# The names of types

The table names a type by following the numbers of its parts, which are in front of it, and a
reference is rendered by recursion over what is written. What the table comes to is a spelling of
the reference of its own: a parameter that is declared as an array is spelled as a pointer, and the
ellipsis of a variadic function is the last of its parameters, so that no comma stands in front of
it where there are no others.

* `TypeTable.InOrder` — types are behind the types they are built from;
* `TypeRef.spelling` — the name under which a reference is registered;
* `TypeTable.nameOf_eq_spelling` — what a number is called;
* `TypeRef.spelling_eq_render_iff` — where that is what the reference is rendered as;
* `TypeTable.nameOf_intern` — the two together.
-/

namespace Backend386

/-! ## Order -/

/-- A type that is built from other types has them in front of a position. -/
def TypeInfo.InOrder (n : Nat) : TypeInfo → Prop
  | pointer base | array base _ => base.index < n
  | function f => f.ret.index < n ∧ ∀ p ∈ f.params, p.index < n
  | _ => True

theorem TypeInfo.IsDerived.inOrder {n : Nat} {info : TypeInfo} (h : info.IsDerived n) :
    info.InOrder n := by
  cases info <;> first | exact h | trivial

namespace TypeTable

variable {t t' : TypeTable} {id : TypeId} {ref : TypeRef} {info : TypeInfo} {n : Nat}

/-- Every type is behind the types it is built from. -/
def InOrder (t : TypeTable) : Prop :=
  ∀ id info, t.info id = .ok info → info.InOrder id.index

namespace InOrder

theorem initial (profile : WidthProfile) : (TypeTable.initial profile).InOrder := by
  intro id info hi
  obtain ⟨e, he, rfl⟩ := mem_of_info hi
  simp only [TypeTable.initial, basicEntries, List.mem_cons, List.mem_flatMap, List.mem_map] at he
  rcases he with rfl | ⟨rank, -, signed, -, rfl⟩ <;> trivial

theorem of_extends (h : t.InOrder) (hext : t.Extends t') : t'.InOrder := by
  intro id info hi
  by_cases hid : id.index < t.size
  · exact h id info (hext.info_eq hid ▸ hi)
  · exact (hext.derived (not_lt.1 hid) hi).inOrder

/-- What is put in the place of a type may be anything that is not built from other types. -/
theorem setInfo (h : t.InOrder) (hinfo : ∀ n, info.InOrder n) : (t.setInfo id info).InOrder := by
  intro id' info' hi
  by_cases heq : id'.index = id.index
  · obtain rfl : id' = id := by cases id'; cases id; cases heq; rfl
    exact setInfo_info_self hi ▸ hinfo _
  · exact h id' info' (setInfo_info_of_ne heq ▸ hi)

/-- A definition is entered behind the types that it is built from. -/
theorem define {d : TypeDefinition} (h : t.InOrder) (hd : t.define d = .ok (t', id)) :
    t'.InOrder := by
  obtain ⟨-, rfl, rfl⟩ := put_eq_ok_iff.1 hd
  intro id info hi
  by_cases hid : id.index < t.size
  · exact h id info (append_info hid ▸ hi)
  · have hlast : id = ⟨t.size⟩ := by
      have hlt := lt_of_info hi
      rw [append_size] at hlt
      cases id
      simp only [TypeId.mk.injEq] at *
      omega
    rw [hlast, append_info_last] at hi
    cases d <;> cases hi <;> trivial

/-- Settling a definition keeps types in order. -/
theorem settleDefinition (h : t.InOrder) (hs : t.settleDefinition id = .ok t') : t'.InOrder := by
  obtain ⟨info, -, hs⟩ := bind_eq_ok_iff.1 hs
  cases info with
  | composite c =>
    obtain ⟨⟨t₁, ids⟩, hids, hs⟩ := bind_eq_ok_iff.1 hs
    cases hs
    exact (h.of_extends (internAll_extends hids).1).setInfo fun _ => trivial
  | typedef d =>
    dsimp only at hs
    split at hs
    · cases hs
      exact h
    · obtain ⟨⟨t₁, real⟩, hreal, hs⟩ := bind_eq_ok_iff.1 hs
      cases hs
      exact (h.of_extends (intern_extends hreal).1).setInfo fun _ => trivial
  | _ =>
    cases hs
    exact h

/-- So does settling all of them. -/
theorem settleDefinitions {is : List Nat} (h : t.InOrder)
    (hs : is.foldlM (fun t i => t.settleDefinition ⟨i⟩) t = .ok t') : t'.InOrder := by
  induction is generalizing t with
  | nil =>
    cases hs
    exact h
  | cons i is ih =>
    rw [List.foldlM_cons] at hs
    obtain ⟨t₁, h₁, hs⟩ := bind_eq_ok_iff.1 hs
    exact ih (h.settleDefinition h₁) hs

theorem step (h : t.InOrder) (hs : Step t t') : t'.InOrder := by
  rcases hs.cases with ⟨d, id, hd⟩ | ⟨ref, id, hi⟩ | hs
  · exact h.define hd
  · exact h.of_extends (intern_extends hi).1
  · exact h.settleDefinitions hs

theorem of_steps {profile : WidthProfile}
    (h : Relation.ReflTransGen Step (TypeTable.initial profile) t) : t.InOrder := by
  induction h with
  | refl => exact .initial profile
  | tail _ hs ih => exact ih.step hs

end InOrder

end TypeTable

/-! ## Spelling -/

namespace TypeRef

mutual

/-- The name under which a reference is registered. -/
def spelling : TypeRef → String
  | pointer base => base.spelling ++ "*"
  | array base (some n) => base.spelling ++ "[" ++ n.toNat.repr ++ "]"
  | array base none => base.spelling ++ "[]"
  | function ret params vararg =>
    ret.spelling ++ "(" ++
      ", ".intercalate (paramSpellings params ++ if vararg then ["..."] else []) ++ ")"
  | void => "void"
  | integer rank signed => (integer rank signed).render
  | struct name => "struct " ++ name
  | union name => "union " ++ name
  | typedef name => name

/-- The names of parameters: one that is declared as an array is a pointer to the element. -/
def paramSpellings : List TypeRef → List String
  | [] => []
  | array base _ :: params => (base.spelling ++ "*") :: paramSpellings params
  | param :: params => param.spelling :: paramSpellings params

end

theorem paramSpellings_eq_map (params : List TypeRef) :
    paramSpellings params = params.map (·.asParam.spelling) := by
  induction params with
  | nil => rfl
  | cons param params ih => cases param <;> simp [paramSpellings, asParam, spelling, ih]

/-! ## Where the texts differ -/

/-- The name is what is rendered: no function type has a parameter that is declared as an array, or
is variadic without parameters. -/
def SpelledAlike (ref : TypeRef) : Prop :=
  ∀ ret params vararg, function ret params vararg ∈ ref.parts →
    (∀ base length, array base length ∉ params) ∧ ¬ (params = [] ∧ vararg = true)

variable {ref base ret : TypeRef} {params : List TypeRef} {length : Option UInt64} {vararg : Bool}

theorem spelledAlike_pointer_iff : (pointer base).SpelledAlike ↔ base.SpelledAlike := by
  simp [SpelledAlike, parts]

theorem spelledAlike_array_iff : (array base length).SpelledAlike ↔ base.SpelledAlike := by
  simp [SpelledAlike, parts]

/-- A function type is spelled alike if its parts are, no parameter is an array, and dots follow a
parameter. -/
theorem spelledAlike_function_iff : (function ret params vararg).SpelledAlike ↔
    ret.SpelledAlike ∧ (∀ p ∈ params, p.SpelledAlike ∧ ∀ base length, p ≠ array base length) ∧
      ¬ (params = [] ∧ vararg = true) := by
  constructor
  · intro h
    obtain ⟨harray, hbare⟩ := h ret params vararg (mem_parts_self _)
    refine ⟨fun r ps v hmem => ?_, fun p hp => ⟨fun r ps v hmem => ?_, ?_⟩, hbare⟩
    · exact h r ps v (List.mem_cons_of_mem _ (List.mem_append_left _ hmem))
    · exact h r ps v (List.mem_cons_of_mem _ (List.mem_append_right _
        (mem_partsOfRefs.2 ⟨p, hp, hmem⟩)))
    · rintro base length rfl
      exact harray base length hp
  · rintro ⟨hret, hparams, hbare⟩ r ps v hmem
    rcases List.mem_cons.1 hmem with heq | hmem
    · cases heq
      exact ⟨fun base length hp => (hparams _ hp).2 base length rfl, hbare⟩
    · rcases List.mem_append.1 hmem with hmem | hmem
      · exact hret r ps v hmem
      · obtain ⟨p, hp, hmem⟩ := mem_partsOfRefs.1 hmem
        exact (hparams p hp).1 r ps v hmem

/-- How long texts are together. -/
def totalLength : List String → Nat
  | [] => 0
  | text :: texts => text.length + totalLength texts

theorem totalLength_append (texts texts' : List String) :
    totalLength (texts ++ texts') = totalLength texts + totalLength texts' := by
  induction texts with
  | nil => simp [totalLength]
  | cons text texts ih => simp only [List.cons_append, totalLength, ih, Nat.add_assoc]

/-- A joined text has two characters more for each separator. -/
theorem length_intercalate (texts : List String) :
    (", ".intercalate texts).length = totalLength texts + 2 * (texts.length - 1) := by
  induction texts with
  | nil => rfl
  | cons text texts ih =>
    cases texts with
    | nil => simp [totalLength]
    | cons next texts =>
      rw [String.intercalate_cons_cons, String.length_append, String.length_append, ih]
      simp only [totalLength, List.length_cons]
      have hsep : ", ".length = 2 := rfl
      omega

/-- The name of a reference is what is rendered, or shorter. -/
structure Shortens (ref : TypeRef) : Prop where
  alike : ref.SpelledAlike → ref.spelling = ref.render
  shorter : ¬ ref.SpelledAlike → ref.spelling.length < ref.render.length

theorem Shortens.length_le (h : ref.Shortens) : ref.spelling.length ≤ ref.render.length := by
  by_cases halike : ref.SpelledAlike
  · rw [h.alike halike]
  · exact (h.shorter halike).le

/-- Both texts go on in the same way. -/
theorem Shortens.append (h : base.Shortens) {text : String}
    (halike : ref.SpelledAlike ↔ base.SpelledAlike)
    (hspelling : ref.spelling = base.spelling ++ text)
    (hrender : ref.render = base.render ++ text) : ref.Shortens where
  alike := fun href => by rw [hspelling, hrender, h.alike (halike.1 href)]
  shorter := fun href => by
    rw [hspelling, hrender, String.length_append, String.length_append]
    exact Nat.add_lt_add_right (h.shorter fun hbase => href (halike.2 hbase)) _

/-- What stands between the brackets of an array. -/
theorem exists_brackets (base : TypeRef) (length : Option UInt64) : ∃ text : String,
    2 ≤ text.length ∧ (array base length).spelling = base.spelling ++ text ∧
      (array base length).render = base.render ++ text := by
  cases length with
  | none => exact ⟨"[]", le_rfl, rfl, rfl⟩
  | some n =>
    refine ⟨"[" ++ (n.toNat.repr ++ "]"), ?_, ?_, ?_⟩
    · have hopen : "[".length = 1 := rfl
      have hclose : "]".length = 1 := rfl
      rw [String.length_append, String.length_append]
      omega
    · simp only [spelling, String.append_assoc]
    · simp only [render, String.append_assoc]

/-- The name of a parameter is what is rendered, unless it is declared as an array. -/
def ParamAlike (param : TypeRef) : Prop :=
  param.SpelledAlike ∧ ∀ base length, param ≠ array base length

/-- A parameter is spelled as it is rendered, or shorter. -/
theorem Shortens.asParam {param : TypeRef} (h : param.Shortens) :
    (param.ParamAlike → param.asParam.spelling = param.render) ∧
      (¬ param.ParamAlike → param.asParam.spelling.length < param.render.length) := by
  cases param with
  | array base length =>
    refine ⟨fun halike => (halike.2 base length rfl).elim, fun _ => ?_⟩
    obtain ⟨text, htext, hspelling, hrender⟩ := exists_brackets base length
    have hle := h.length_le
    have hstar : "*".length = 1 := rfl
    rw [hspelling, hrender, String.length_append, String.length_append] at hle
    rw [TypeRef.asParam, spelling, hrender, String.length_append, String.length_append]
    omega
  | _ => exact ⟨fun halike => h.alike halike.1, fun hnot => h.shorter fun hp => hnot ⟨hp, by simp⟩⟩

/-- So are all parameters together. -/
theorem paramSpellings_shortens (h : ∀ p ∈ params, p.Shortens) :
    ((∀ p ∈ params, p.ParamAlike) → paramSpellings params = renderAll params) ∧
      (¬ (∀ p ∈ params, p.ParamAlike) →
        totalLength (paramSpellings params) < totalLength (renderAll params)) := by
  rw [paramSpellings_eq_map, renderAll_eq_map]
  induction params with
  | nil => exact ⟨fun _ => rfl, fun hnot => (hnot (by simp)).elim⟩
  | cons param params ih =>
    obtain ⟨heq, hlt⟩ := (h param List.mem_cons_self).asParam
    obtain ⟨heqs, hlts⟩ := ih fun p hp => h p (List.mem_cons_of_mem _ hp)
    simp only [List.map_cons, List.forall_mem_cons, totalLength] at heqs hlts ⊢
    refine ⟨fun ⟨hp, hps⟩ => by rw [heq hp, heqs hps], fun hnot => ?_⟩
    by_cases hp : param.ParamAlike
    · rw [heq hp]
      exact Nat.add_lt_add_left (hlts fun hps => hnot ⟨hp, hps⟩) _
    · by_cases hps : ∀ p ∈ params, p.ParamAlike
      · rw [heqs hps]
        exact Nat.add_lt_add_right (hlt hp) _
      · exact Nat.add_lt_add (hlt hp) (hlts hps)

/-- Behind the parameters, an ellipsis is one more, and rendered with a comma. -/
theorem intercalate_ellipsis (texts : List String) (vararg : Bool)
    (hbare : ¬ (texts = [] ∧ vararg = true)) :
    ", ".intercalate (texts ++ if vararg then ["..."] else []) =
      ", ".intercalate texts ++ if vararg then ", ..." else "" := by
  cases vararg with
  | false => simp
  | true =>
    have htexts : texts ≠ [] := fun hnil => hbare ⟨hnil, rfl⟩
    rw [if_pos rfl, if_pos rfl, String.intercalate_append_of_ne_nil htexts (by simp),
      String.intercalate_singleton, String.append_assoc]
    rfl

/-- So is a function type. -/
theorem shortens_function (hret : ret.Shortens) (hparams : ∀ p ∈ params, p.Shortens) :
    (function ret params vararg).Shortens := by
  obtain ⟨heq, hlt⟩ := paramSpellings_shortens hparams
  -- alike, all parts are spelled in full; else one of them is shorter, and none is longer
  refine ⟨fun halike => ?_, fun hnot => ?_⟩
  · obtain ⟨hret', hparams', hbare⟩ := spelledAlike_function_iff.1 halike
    have hbare' : ¬ (renderAll params = [] ∧ vararg = true) := by
      rwa [renderAll_eq_map, List.map_eq_nil_iff]
    rw [spelling, render, hret.alike hret', heq hparams', intercalate_ellipsis _ _ hbare']
    simp only [String.append_assoc]
  · have hle : totalLength (paramSpellings params) ≤ totalLength (renderAll params) := by
      by_cases hps : ∀ p ∈ params, p.ParamAlike
      · rw [heq hps]
      · exact (hlt hps).le
    have hwhere : ret.spelling.length < ret.render.length ∨
        totalLength (paramSpellings params) < totalLength (renderAll params) ∨
        params.length = 0 ∧ vararg = true := by
      rw [spelledAlike_function_iff, not_and_or, not_and_or, not_not] at hnot
      exact hnot.imp hret.shorter (Or.imp hlt (And.imp_left List.length_eq_zero_iff.2))
    have hret' := hret.length_le
    have hlength : (paramSpellings params).length = params.length := by
      rw [paramSpellings_eq_map, List.length_map]
    have hlength' : (renderAll params).length = params.length := by
      rw [renderAll_eq_map, List.length_map]
    have hellipsis : "...".length = 3 := rfl
    have hcomma : ", ...".length = 5 := rfl
    rw [spelling, render]
    simp only [String.length_append, length_intercalate, hlength']
    -- the list is longer by its ellipsis, and the comma in front of it stands even without
    -- parameters
    cases vararg with
    | false =>
      simp only [Bool.false_eq_true, if_false, List.append_nil, hlength, and_false, or_false,
        String.length_empty] at hwhere ⊢
      omega
    | true =>
      simp only [if_true, totalLength_append, totalLength, List.length_append, List.length_cons,
        List.length_nil, hlength, and_true] at hwhere hle ⊢
      omega

/-- Whatever is written, the name is what is rendered, or shorter. -/
theorem shortens (ref : TypeRef) : ref.Shortens := by
  cases ref with
  | void | integer | struct | union | typedef =>
    exact ⟨fun _ => rfl, fun hnot => (hnot (by simp [SpelledAlike, parts])).elim⟩
  | pointer base => exact (shortens base).append spelledAlike_pointer_iff rfl rfl
  | array base length =>
    obtain ⟨_, _, hspelling, hrender⟩ := exists_brackets base length
    exact (shortens base).append spelledAlike_array_iff hspelling hrender
  | function ret params vararg =>
    refine shortens_function (shortens ret) fun p hp => ?_
    have := List.sizeOf_lt_of_mem hp
    exact shortens p
termination_by sizeOf ref

theorem spelling_eq_render_iff (ref : TypeRef) : ref.spelling = ref.render ↔ ref.SpelledAlike := by
  refine ⟨fun heq => ?_, ref.shortens.alike⟩
  by_contra hnot
  exact (ref.shortens.shorter hnot).ne (congrArg String.length heq)

end TypeRef

namespace TypeTable

variable {t t' : TypeTable} {id : TypeId} {ref : TypeRef} {info : TypeInfo} {n : Nat}

/-- The names of parameters, where each type is called by its reference. -/
theorem map_nameWithin {params : List TypeRef} {ids : List TypeId}
    (hp : List.Forall₂ (fun p id => t.lookup? p.asParam = some id) params ids)
    (hname : ∀ ref, ∀ id ∈ ids, t.lookup? ref = some id → t.nameWithin n id = ref.spelling) :
    ids.map (t.nameWithin n) = TypeRef.paramSpellings params := by
  rw [TypeRef.paramSpellings_eq_map]
  induction hp with
  | nil => rfl
  | cons hid _ ih =>
    rw [List.map_cons, List.map_cons, hname _ _ List.mem_cons_self hid,
      ih fun ref id hmem => hname ref id (List.mem_cons_of_mem _ hmem)]

/-- A type is called by its reference, if the name is followed far enough. -/
theorem nameWithin_eq_spelling (hc : t.Canonical) (ho : t.InOrder) (hl : t.lookup? ref = some id)
    (hlt : id.index < n) : t.nameWithin n id = ref.spelling := by
  -- the parts of a type are in front of it, so the number of steps decreases with the position
  induction n generalizing id ref with
  | zero => cases hlt
  | succ n ih =>
    obtain ⟨info, hi, hm⟩ := hc.mirrors_of_refOf (refOf_of_lookup? hl)
    have horder := ho id info hi
    have hle : id.index ≤ n := Nat.le_of_lt_succ hlt
    obtain ⟨e, he, rfl⟩ := info_eq_ok_iff.1 hi
    rw [nameWithin, he]
    dsimp only
    generalize e.info = info at hm horder
    cases hm with
    | void | integer | typedef => rfl
    | struct hk | union hk => simp [Composite.render, hk, CompositeKind.render, TypeRef.spelling]
    | pointer hbase => simp only [TypeRef.spelling, ih hbase (horder.trans_le hle)]
    | @array ref base length hbase =>
      cases length <;> simp only [TypeRef.spelling, ih hbase (horder.trans_le hle)]
    | @function ret params vararg r ids hr hp =>
      have hparams := map_nameWithin hp fun ref id hmem hid =>
        ih hid ((horder.2 id hmem).trans_le hle)
      simp only [TypeRef.spelling, ih hr (horder.1.trans_le hle), hparams]

/-- A type is called by the reference under which it is registered. -/
theorem nameOf_eq_spelling (hc : t.Canonical) (ho : t.InOrder) (hl : t.lookup? ref = some id) :
    t.nameOf id = ref.spelling :=
  nameWithin_eq_spelling hc ho hl (lt_of_lookup? hl)

/-- In a table that operations lead to, a reference whose structs, unions and typedefs are
registered has a number, and the number is called by the spelling of the reference. That is what the
reference is rendered as exactly if no function type in it has a parameter that is declared as an
array or is variadic without parameters. -/
theorem nameOf_intern {profile : WidthProfile}
    (h : Relation.ReflTransGen Step (initial profile) t)
    (hnamed : ∀ part ∈ ref.parts, part.isNamed = true → t.Registered part) :
    ∃ t' id, t.intern ref = .ok (t', id) ∧ t'.nameOf id = ref.spelling ∧
      (t'.nameOf id = ref.render ↔ ref.SpelledAlike) := by
  have hc := Canonical.of_steps h
  rcases hc.finds ref with ⟨part, hocc, hn, hmissing, -⟩ | ⟨t', id, hid, hgrows⟩
  · exact (hmissing (hnamed part ((TypeRef.mem_parts_iff_occurs hn).2 hocc) hn)).elim
  · have hname := nameOf_eq_spelling hgrows.canonical
      ((InOrder.of_steps h).of_extends hgrows.grows) (intern_lookup? hid)
    exact ⟨t', id, hid, hname, hname ▸ ref.spelling_eq_render_iff⟩

/-- Where a list and a number stand in front of the ellipsis, the name is what is rendered. -/
theorem nameOf_intern_list :
    let ref := TypeRef.function .void [.pointer (.struct "list"), .integer .int false] true
    ∃ t t' id, Relation.ReflTransGen Step (initial .ilp32) t ∧ t.intern ref = .ok (t', id) ∧
      t'.nameOf id = ref.render ∧ ref.render = "void(struct list*, unsigned int, ...)" := by
  intro ref
  have hsteps : Relation.ReflTransGen Step (initial .ilp32) _ :=
    .single (@Step.define _ _ fillList _ rfl)
  have hparts : ref.parts =
      [ref, .void, .pointer (.struct "list"), .struct "list", .integer .int false] := rfl
  obtain ⟨t', id, hid, -, halike⟩ := @nameOf_intern _ ref _ hsteps (by
    simp only [hparts, List.forall_mem_cons, List.not_mem_nil, false_imp_iff, implies_true,
      and_true]
    refine ⟨?_, ?_, ?_, fun _ => ⟨_, rfl⟩, ?_⟩
    all_goals
      intro h
      cases h)
  refine ⟨_, t', id, hsteps, hid, halike.2 fun ret params vararg hmem => ?_, rfl⟩
  simp only [hparts, List.mem_cons, reduceCtorEq, List.not_mem_nil, or_false] at hmem
  obtain ⟨-, rfl, -⟩ := TypeRef.function.inj hmem
  simp

/-- A function that is variadic without parameters is rendered with a comma that its name has not.
-/
theorem nameOf_bare_variadic : ∃ t' id,
    (initial .ilp32).intern (.function .void [] true) = .ok (t', id) ∧
      t'.nameOf id = "void(...)" ∧ (TypeRef.function .void [] true).render = "void(, ...)" ∧
      t'.nameOf id ≠ (TypeRef.function .void [] true).render :=
  ⟨_, _, rfl, rfl, rfl, by decide⟩

end TypeTable

end Backend386
