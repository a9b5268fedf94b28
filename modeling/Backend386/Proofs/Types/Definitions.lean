import Mathlib.Data.List.Nodup
import Backend386.Proofs.Types.TableSteps

/-!
# The definitions of a table

Whether definitions are accepted, and what they make of the table, does not depend on their order:
they have to define different names, and each name that they mention has to be defined by one of
them. Then the table holds the basic types, what is defined and what lookups of the mentioned
references meet, and nothing else.

* `TypeDefinition.mentions` — the references in a definition;
* `TypeTable.defineAll_eq_ok_iff` — when definitions are registered, and as what;
* `TypeTable.Defining` — the structs, unions and typedefs of a table are those defined;
* `TypeTable.Defining.exists_settle`, `TypeTable.Defining.closed` — when they are settled;
* `TypeTable.Defining.registered_iff` — what is in the table then.
-/

namespace Backend386

/-- The references by which a definition names the types of its members or its real type. -/
def TypeDefinition.mentions : TypeDefinition → List TypeRef
  | composite _ _ members _ => members.map (·.type)
  | typedef _ real _ => [real]

/-- A definition mentions what its information mentions. -/
theorem TypeInfo.mentions_ofDefinition (d : TypeDefinition) :
    (TypeInfo.ofDefinition d).mentions = d.mentions := by
  cases d with
  | composite kind name members location =>
    simp [ofDefinition, mentions, TypeDefinition.mentions, Function.comp_def]
  | typedef name real location => rfl

/-- Definitions that mention no struct, union or typedef but those they define. -/
def ClosedDefinitions (ds : List TypeDefinition) : Prop :=
  ∀ d ∈ ds, ∀ m ∈ d.mentions, ∀ part : TypeRef, part.Occurs m → part.isNamed = true →
    ∃ d' ∈ ds, d'.ref = part

namespace TypeTable

variable {t t' t₀ : TypeTable} {id : TypeId} {ref : TypeRef} {info info' : TypeInfo}
  {ds : List TypeDefinition}

/-- Settling changes nothing of members but their types. -/
theorem map_of_memberSettles {α : Type} {f : Member → α} (hf : ∀ m type, f { m with type } = f m)
    {ms ms' : List Member} (h : List.Forall₂ t.MemberSettles ms ms') : ms'.map f = ms.map f := by
  induction h with
  | nil => rfl
  | cons hm _ ih =>
    obtain ⟨type, rfl, -⟩ := hm
    rw [List.map_cons, List.map_cons, ih, hf]

theorem Settles.mentions_eq (h : t.Settles info info') : info'.mentions = info.mentions := by
  cases h with
  | same => rfl
  | composite h => exact map_of_memberSettles (fun _ _ => rfl) h
  | typedef => rfl

/-! ## Registering -/

/-- The entry of a definition. -/
def definedEntry (d : TypeDefinition) : TypeEntry :=
  ⟨d.ref, .ofDefinition d⟩

/-- Definitions are registered exactly if they define different references that are missing. -/
theorem defineAll_eq_ok_iff : t.defineAll ds = .ok t' ↔
    (ds.map (·.ref)).Nodup ∧ (∀ d ∈ ds, t.lookup? d.ref = none) ∧
      t' = { t with entries := t.entries ++ ds.map definedEntry } := by
  -- the names are compared with those of the definitions before, which are in the table by then
  induction ds generalizing t with
  | nil =>
    simp only [defineAll, List.foldlM_nil, List.map_nil, List.append_nil]
    constructor
    · intro h
      exact ⟨.nil, by simp, (Except.ok.inj h).symm⟩
    · rintro ⟨-, -, rfl⟩
      rfl
  | cons d ds ih =>
    have hstep : t.defineAll (d :: ds) = .ok t' ↔ t.lookup? d.ref = none ∧
        (t.append d.ref (.ofDefinition d)).defineAll ds = .ok t' := by
      rw [defineAll, List.foldlM_cons]
      constructor
      · intro h
        obtain ⟨t₁, h₁, h⟩ := bind_eq_ok_iff.1 h
        obtain ⟨⟨t₂, id⟩, hd, heq⟩ := bind_eq_ok_iff.1 h₁
        obtain rfl : t₂ = t₁ := Except.ok.inj heq
        obtain ⟨hnew, rfl, -⟩ := put_eq_ok_iff.1 hd
        exact ⟨hnew, h⟩
      · rintro ⟨hnew, h⟩
        exact bind_eq_ok_iff.2 ⟨_, bind_eq_ok_iff.2 ⟨_, put_eq_ok_iff.2 ⟨hnew, rfl, rfl⟩, rfl⟩, h⟩
    have hmissing (d' : TypeDefinition) :
        (t.append d.ref (.ofDefinition d)).lookup? d'.ref = none ↔
          t.lookup? d'.ref = none ∧ d.ref ≠ d'.ref := by
      rw [lookup?_append]
      by_cases heq : d.ref = d'.ref <;> simp [heq]
    rw [hstep, ih]
    simp only [hmissing, List.map_cons, List.nodup_cons, List.mem_map, List.forall_mem_cons]
    have hentries : { t.append d.ref (.ofDefinition d) with
        entries := (t.append d.ref (.ofDefinition d)).entries ++ ds.map definedEntry } =
        { t with entries := t.entries ++ definedEntry d :: ds.map definedEntry } := by
      simp [append, definedEntry]
    rw [hentries]
    grind

/-- The structs, unions and typedefs of a canonical table are those defined, settled or not. -/
structure Defining (t : TypeTable) (ds : List TypeDefinition) : Prop where
  canonical : t.Canonical
  named : ∀ ref, ref.isNamed = true → t.Registered ref → ∃ d ∈ ds, d.ref = ref
  info : ∀ d ∈ ds, ∃ id info, t.refOf id = .ok d.ref ∧ t.info id = .ok info ∧
    t.Settles (.ofDefinition d) info

namespace Defining

/-- A larger table defines the same, as long as it names no other types. -/
theorem of_keeps (h : t.Defining ds) (hc : t'.Canonical) (hk : t.Keeps t')
    (hnamed : ∀ ref, ref.isNamed = true → t'.Registered ref → t.Registered ref) :
    t'.Defining ds where
  canonical := hc
  named := fun ref hn hr => h.named ref hn (hnamed ref hn hr)
  info := by
    intro d hd
    obtain ⟨id, info, hr, hi, hs⟩ := h.info d hd
    obtain ⟨info', hi', hs'⟩ := hk.infos id info hi
    exact ⟨id, info', hk.refs _ _ hr, hi', hs.trans (fun _ _ => hk.lookup? hc) hs'⟩

/-- The order of the definitions does not matter. -/
theorem perm {ds' : List TypeDefinition} (h : t.Defining ds) (hp : ds.Perm ds') :
    t.Defining ds' where
  canonical := h.canonical
  named := by
    intro ref hn hr
    obtain ⟨d, hd, hdr⟩ := h.named ref hn hr
    exact ⟨d, hp.mem_iff.1 hd, hdr⟩
  info := fun d hd => h.info d (hp.mem_iff.2 hd)

theorem registered (h : t.Defining ds) {d : TypeDefinition} (hd : d ∈ ds) : t.Registered d.ref := by
  obtain ⟨id, -, hr, -⟩ := h.info d hd
  exact ⟨id, h.canonical.lookup?.2 hr⟩

theorem of_growsBy {new : TypeRef → Prop} (h : t.Defining ds) (hg : t.GrowsBy new t') :
    t'.Defining ds :=
  h.of_keeps hg.canonical (.of_extends hg.grows) fun ref hn hr =>
    ((hg.registered ref).1 hr).elim id fun hnew => hg.named ref hnew hn

/-- Registering references defines nothing. -/
theorem of_interns (h : t.Defining ds) (hi : Relation.ReflTransGen Interns t t') :
    t'.Defining ds := by
  induction hi with
  | refl => exact h
  | tail _ hi ih =>
    obtain ⟨ref, id, hi⟩ := hi
    exact ih.of_growsBy (ih.canonical.intern hi)

/-- A type with this reference is what became of the definition. -/
theorem settles (h : t.Defining ds) {d : TypeDefinition} (hd : d ∈ ds)
    (hr : t.refOf id = .ok d.ref) (hi : t.info id = .ok info) :
    t.Settles (.ofDefinition d) info := by
  obtain ⟨id', info', hr', hi', hs⟩ := h.info d hd
  have hid : id' = id := Option.some.inj
    ((h.canonical.lookup?.2 hr').symm.trans (h.canonical.lookup?.2 hr))
  subst hid
  rwa [← Except.ok.inj (hi'.symm.trans hi)]

/-- A reference over the defined names is found. -/
theorem exists_intern (h : t.Defining ds)
    (hnames : ∀ part ∈ ref.parts, part.isNamed = true → ∃ d ∈ ds, d.ref = part) :
    ∃ t' id, t.intern ref = .ok (t', id) := by
  cases hi : t.intern ref with
  | ok r => exact ⟨r.1, r.2, rfl⟩
  | error fault =>
    obtain ⟨part, hpart, hn, hmissing, -⟩ := h.canonical.intern_error hi
    obtain ⟨d, hd, rfl⟩ := hnames part hpart hn
    exact (not_registered_iff.2 hmissing (h.registered hd)).elim

/-- What a type mentions is what its definition mentions. -/
theorem mentions (h : t.Defining ds) (hi : t.info id = .ok info) {m : TypeRef}
    (hm : m ∈ info.mentions) : ∃ d ∈ ds, m ∈ d.mentions := by
  obtain ⟨e, he, rfl⟩ := info_eq_ok_iff.1 hi
  have hr : t.refOf id = .ok e.ref := refOf_eq_ok_iff.2 ⟨e, he, rfl⟩
  have hn : e.ref.isNamed = true := by
    have hmirrors := h.canonical.mirrors e (List.mem_of_getElem? he)
    generalize e.ref = ref, e.info = info at hm hmirrors ⊢
    cases hmirrors with
    | struct | union | typedef => rfl
    | _ => cases hm
  obtain ⟨d, hd, hdr⟩ := h.named _ hn ⟨id, h.canonical.lookup?.2 hr⟩
  have hs := h.settles hd (hdr ▸ hr) hi
  rw [hs.mentions_eq, TypeInfo.mentions_ofDefinition] at hm
  exact ⟨d, hd, hm⟩

end Defining

/-- Definitions are steps of the table. -/
theorem steps_defineAll (h : t.defineAll ds = .ok t') : Relation.ReflTransGen Step t t' := by
  induction ds generalizing t with
  | nil =>
    obtain rfl := Except.ok.inj h
    exact .refl
  | cons d ds ih =>
    rw [defineAll, List.foldlM_cons] at h
    obtain ⟨t₁, h₁, h⟩ := bind_eq_ok_iff.1 h
    obtain ⟨⟨t₂, id⟩, hd, heq⟩ := bind_eq_ok_iff.1 h₁
    obtain rfl : t₂ = t₁ := Except.ok.inj heq
    exact .head (.define hd) (ih h)

theorem isNamed_of_registered_initial {profile : WidthProfile}
    (h : (initial profile).Registered ref) : ref.isNamed = false := by
  obtain ⟨e, he, rfl⟩ := registered_iff_mem.1 h
  simp only [initial, basicEntries, List.mem_cons, List.mem_flatMap, List.mem_map] at he
  rcases he with rfl | ⟨rank, -, signed, -, rfl⟩ <;> rfl

section

variable {profile : WidthProfile} (h : (initial profile).defineAll ds = .ok t)

include h

theorem registered_defineAll :
    t.Registered ref ↔ (initial profile).Registered ref ∨ ∃ d ∈ ds, d.ref = ref := by
  obtain ⟨-, -, rfl⟩ := defineAll_eq_ok_iff.1 h
  simp [registered_iff_mem, or_and_right, exists_or, definedEntry]

/-- What was defined is there as it was defined. -/
theorem Defining.of_defineAll : t.Defining ds where
  canonical := .of_steps (steps_defineAll h)
  named := by
    intro ref hn hr
    rcases (registered_defineAll h).1 hr with hr | hr
    · rw [isNamed_of_registered_initial hr] at hn
      cases hn
    · exact hr
  info := by
    intro d hd
    obtain ⟨-, -, rfl⟩ := defineAll_eq_ok_iff.1 h
    have hmem : definedEntry d ∈ (initial profile).entries ++ ds.map definedEntry :=
      List.mem_append_right _ (List.mem_map_of_mem hd)
    obtain ⟨i, hi⟩ := List.mem_iff_getElem?.1 hmem
    exact ⟨⟨i⟩, _, refOf_eq_ok_iff.2 ⟨_, hi, rfl⟩, info_eq_ok_iff.2 ⟨_, hi, rfl⟩, .same _⟩

end

/-! ## Settling -/

namespace Defining

/-- Settling a type keeps its definition. -/
theorem settlesType (h : t.Defining ds) (hs : t.SettlesType info t') : t'.Defining ds := by
  refine h.of_keeps hs.canonical hs.keeps fun ref hn hr => ?_
  rcases hs.registered ref hr with hr | ⟨hnot, -⟩
  · exact hr
  · rw [hnot] at hn
    cases hn

/-- Settling types one after another registers what the definitions mention, and nothing else. -/
theorem settleTypes {is : List Nat} (h : t.Defining ds)
    (hs : is.foldlM (fun t i => t.settleDefinition ⟨i⟩) t = .ok t') :
    t'.Defining ds ∧ t.Keeps t' ∧ ∀ ref, t'.Registered ref →
      t.Registered ref ∨ ∃ d ∈ ds, ∃ m ∈ d.mentions, ref.Occurs m := by
  induction is generalizing t with
  | nil =>
    obtain rfl := Except.ok.inj hs
    exact ⟨h, .of_extends .refl, fun _ => .inl⟩
  | cons i is ih =>
    rw [List.foldlM_cons] at hs
    obtain ⟨t₁, h₁, hs⟩ := bind_eq_ok_iff.1 hs
    obtain ⟨info, hinfo, hsettles⟩ := h.canonical.settleDefinition h₁
    obtain ⟨hd', hk', hregistered⟩ := ih (h.settlesType hsettles) hs
    refine ⟨hd', hsettles.keeps.trans hk' hd'.canonical, fun ref hr => ?_⟩
    rcases hregistered ref hr with hr | hr
    · rcases hsettles.registered ref hr with hr | ⟨-, m, hm, hocc⟩
      · exact .inl hr
      · obtain ⟨d, hd, hm⟩ := h.mentions hinfo hm
        exact .inr ⟨d, hd, m, hm, hocc⟩
    · exact .inr hr

/-- Closed definitions are settled. -/
theorem exists_settleTypes {is : List Nat} (h : t.Defining ds) (hclosed : ClosedDefinitions ds)
    (his : ∀ i ∈ is, i < t.size) :
    ∃ t', is.foldlM (fun t i => t.settleDefinition ⟨i⟩) t = .ok t' := by
  induction is generalizing t with
  | nil => exact ⟨t, rfl⟩
  | cons i is ih =>
    obtain ⟨info, hinfo⟩ := exists_info_iff.2 (his i List.mem_cons_self : (⟨i⟩ : TypeId).index < _)
    obtain ⟨t₁, h₁⟩ := h.canonical.exists_settleDefinition hinfo fun m hm part hocc hn => by
      obtain ⟨d, hd, hm⟩ := h.mentions hinfo hm
      obtain ⟨d', hd', rfl⟩ := hclosed d hd m hm part hocc hn
      exact h.registered hd'
    obtain ⟨info', hinfo', hsettles⟩ := h.canonical.settleDefinition h₁
    obtain ⟨t', hs⟩ := ih (h.settlesType hsettles) fun j hj => by
      obtain ⟨old, hold⟩ := exists_info_iff.2
        (his j (List.mem_cons_of_mem _ hj) : (⟨j⟩ : TypeId).index < _)
      obtain ⟨new, hnew, -⟩ := hsettles.keeps.infos _ _ hold
      exact lt_of_info hnew
    refine ⟨t', ?_⟩
    rw [List.foldlM_cons]
    exact bind_eq_ok_iff.2 ⟨t₁, h₁, hs⟩

/-- What is mentioned by definitions that are settled is registered. -/
theorem registered_mention (h : t.Defining ds) (hc : t.Complete) {d : TypeDefinition} (hd : d ∈ ds)
    {m : TypeRef} (hm : m ∈ d.mentions) : t.Registered m := by
  obtain ⟨id, info, hr, hi, hs⟩ := h.info d hd
  rw [← TypeInfo.mentions_ofDefinition, ← hs.mentions_eq] at hm
  obtain ⟨info', hi', hmirrors⟩ := h.canonical.mirrors_of_refOf hr
  obtain rfl := Except.ok.inj (hi.symm.trans hi')
  generalize d.ref = ref at hmirrors
  cases info with
  | composite c =>
    obtain ⟨member, hmember, rfl⟩ := List.mem_map.1 hm
    obtain ⟨part, hp, -⟩ := hc.member_type hi hmember
    cases hmirrors with
    | struct _ hmembers | union _ hmembers => exact ⟨part, hmembers member hmember part hp⟩
  | typedef d =>
    obtain rfl := List.mem_singleton.1 hm
    obtain ⟨real, hreal, -⟩ := hc.typedef_real hi
    cases hmirrors with
    | typedef hr => exact ⟨real, hr real hreal⟩
  | _ => cases hm

/-- Definitions that are settled are closed. -/
theorem closed (h : t.Defining ds) (hc : t.Complete) : ClosedDefinitions ds := by
  intro d hd m hm part hocc hn
  exact h.named part hn (h.canonical.registered_of_occurs hocc (h.registered_mention hc hd hm))

end Defining

/-! ## Definitions in any order -/

/-- A reference of a basic type, of a definition, or one that a lookup of what a definition mentions
would meet. -/
def Needs (profile : WidthProfile) (ds : List TypeDefinition) (ref : TypeRef) : Prop :=
  ((initial profile).Registered ref ∨ ∃ d ∈ ds, d.ref = ref) ∨
    ∃ d ∈ ds, ∃ m ∈ d.mentions, ref.Occurs m

/-- Definitions that are registered and settled. -/
structure Settlement (profile : WidthProfile) (ds : List TypeDefinition) (t : TypeTable) :
    Prop where
  defining : t.Defining ds
  complete : t.Complete
  profile_eq : t.profile = profile
  registered_iff : ∀ ref, t.Registered ref ↔ Needs profile ds ref

variable {profile : WidthProfile}

/-- Definitions that are settled are a settlement. -/
theorem settlement (hd : (initial profile).defineAll ds = .ok t₀)
    (hs : t₀.settleDefinitions = .ok t) : Settlement profile ds t := by
  have hreachable : Reachable profile t₀ := Reachable.initial.defineAll hd
  obtain ⟨hw, hprofile⟩ := hreachable.wellFormed
  obtain ⟨hcomplete, hprofile'⟩ := hw.settle hs
  obtain ⟨hdefining, hkeeps, hregistered⟩ := (Defining.of_defineAll hd).settleTypes hs
  refine ⟨hdefining, hcomplete, hprofile'.trans hprofile, fun ref => ⟨fun hr => ?_, ?_⟩⟩
  · exact (hregistered ref hr).imp_left (registered_defineAll hd).1
  · rintro (hr | ⟨d, hd, m, hm, hocc⟩)
    · obtain ⟨id, hid⟩ := (registered_defineAll hd).2 hr
      exact ⟨id, hkeeps.lookup? hdefining.canonical hid⟩
    · exact hdefining.canonical.registered_of_occurs hocc
        (hdefining.registered_mention hcomplete hd hm)

/-- Definitions that can be registered and settled can be so in any order. -/
theorem exists_settlement_perm {ds' : List TypeDefinition} (hp : ds.Perm ds')
    (hd : (initial profile).defineAll ds = .ok t₀) (hs : t₀.settleDefinitions = .ok t) :
    ∃ t₀' t', (initial profile).defineAll ds' = .ok t₀' ∧ t₀'.settleDefinitions = .ok t' := by
  have hsettlement := settlement hd hs
  obtain ⟨hnodup, hmissing, -⟩ := defineAll_eq_ok_iff.1 hd
  have hd' := defineAll_eq_ok_iff.2 ⟨(hp.map _).nodup_iff.1 hnodup,
    fun d hd => hmissing d (hp.mem_iff.2 hd), rfl⟩
  have hdefining := Defining.of_defineAll hd'
  have hclosed : ClosedDefinitions ds' := by
    intro d hd m hm part hocc hn
    obtain ⟨d', hd', heq⟩ := hsettlement.defining.closed hsettlement.complete d (hp.mem_iff.2 hd) m
      hm part hocc hn
    exact ⟨d', hp.mem_iff.1 hd', heq⟩
  obtain ⟨t', hs'⟩ := hdefining.exists_settleTypes hclosed fun i hi => List.mem_range.1 hi
  exact ⟨_, t', hd', hs'⟩

end TypeTable

end Backend386
