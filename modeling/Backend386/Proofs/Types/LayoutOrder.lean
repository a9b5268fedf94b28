import Backend386.Pipeline
import Backend386.Proofs.Types.Cache
import Backend386.Proofs.Types.Definitions

/-!
# Layouts do not depend on the order of definitions

Two tables with the same definitions number their types differently, but a reference stands for
types that are built alike in both, with parts under the same references. So no order of definitions
is better than another, and neither the order nor what was asked for in between changes a layout.

* `TypeTable.SameRef`, `TypeTable.BuiltAlike` — types of two tables under one reference;
* `TypeTable.Settlement.sound` — the check accepts both tables or none;
* `TypeTable.Alike.layout_eq` — layouts in two tables;
* `TypeTable.layout_of_perm` — the definitions of a unit in any order.
-/

namespace Backend386

/-- Members that need the same are placed alike. -/
theorem Layout.ofStruct_congr₂ {α β : Type} {measure : α → Except Fault (Nat × Nat)}
    {measure' : β → Except Fault (Nat × Nat)} {ms : List α} {ms' : List β}
    (h : List.Forall₂ (fun m m' => measure m = measure' m') ms ms') :
    ofStruct measure ms = ofStruct measure' ms' := by
  have hplace (a : Allocator) : placeMembers measure a ms = placeMembers measure' a ms' := by
    induction h generalizing a with
    | nil => rfl
    | cons hm _ ih => simp only [placeMembers, hm, ih]
  simp only [ofStruct, hplace]

/-- A union depends on what is measured of its members. -/
theorem Layout.ofUnion_congr₂ {α β : Type} {measure : α → Except Fault (Nat × Nat)}
    {measure' : β → Except Fault (Nat × Nat)} {ms : List α} {ms' : List β}
    (h : List.Forall₂ (fun m m' => measure m = measure' m') ms ms') :
    ofUnion measure ms = ofUnion measure' ms' := by
  have hmap : ms.mapM measure = ms'.mapM measure' := by
    induction h with
    | nil => rfl
    | cons hm _ ih => rw [List.mapM_cons, List.mapM_cons, hm, ih]
  rw [ofUnion, ofUnion, hmap]

namespace TypeTable

variable {t t' t₁ t₂ : TypeTable} {id id₁ id₂ part part₁ part₂ real₂ : TypeId}
  {ref : TypeRef} {info info₁ info₂ : TypeInfo} {ds : List TypeDefinition} {profile : WidthProfile}

/-! ## Types under the same reference -/

/-- Types of two tables under the same reference. -/
def SameRef (t₁ t₂ : TypeTable) (id₁ id₂ : TypeId) : Prop :=
  ∃ ref, t₁.refOf id₁ = .ok ref ∧ t₂.refOf id₂ = .ok ref

/-- Members whose types are settled and related. -/
def MembersAlike (R : TypeId → TypeId → Prop) (m₁ m₂ : Member) : Prop :=
  ∃ part₁ part₂, m₁.type = .settled part₁ ∧ m₂.type = .settled part₂ ∧ R part₁ part₂

/-- Two types are built alike, with parts by value that are related. -/
inductive BuiltAlike (R : TypeId → TypeId → Prop) : TypeInfo → TypeInfo → Prop where
  | void : BuiltAlike R .void .void
  | integer (size : Nat) (signed : Bool) (name : String) :
    BuiltAlike R (.integer size signed name) (.integer size signed name)
  | pointer (base₁ base₂ : TypeId) : BuiltAlike R (.pointer base₁) (.pointer base₂)
  | array {base₁ base₂ : TypeId} {length : Option UInt64} (h : R base₁ base₂) :
    BuiltAlike R (.array base₁ length) (.array base₂ length)
  | function (f₁ f₂ : FunctionType) : BuiltAlike R (.function f₁) (.function f₂)
  | composite {c₁ c₂ : Composite} (hk : c₁.kind = c₂.kind)
    (hn : c₁.members.map (·.name) = c₂.members.map (·.name))
    (hm : List.Forall₂ (MembersAlike R) c₁.members c₂.members) :
    BuiltAlike R (.composite c₁) (.composite c₂)
  | typedef {d₁ d₂ : Typedef} {real₁ real₂ : TypeId} (h₁ : d₁.real = .settled real₁)
    (h₂ : d₂.real = .settled real₂) (h : R real₁ real₂) : BuiltAlike R (.typedef d₁) (.typedef d₂)

/-- Two tables with the same definitions, settled for the same profile. -/
structure Alike (t₁ t₂ : TypeTable) : Prop where
  definitions : ∃ ds, t₁.Defining ds ∧ t₂.Defining ds
  complete₁ : t₁.Complete
  complete₂ : t₂.Complete
  profile_eq : t₁.profile = t₂.profile

/-- Lists with the same values are related element by element. -/
theorem forall₂_of_map_eq {α β : Type} {f : α → β} {R : α → α → Prop} {as bs : List α}
    (h : as.map f = bs.map f) (hR : ∀ a ∈ as, ∀ b ∈ bs, f a = f b → R a b) :
    List.Forall₂ R as bs := by
  induction as generalizing bs with
  | nil =>
    obtain rfl := List.map_eq_nil_iff.1 h.symm
    exact .nil
  | cons a as ih =>
    obtain ⟨b, bs, rfl, hb, hbs⟩ := List.map_eq_cons_iff.1 h.symm
    refine .cons (hR a List.mem_cons_self b List.mem_cons_self hb.symm) (ih hbs.symm ?_)
    exact fun a ha b hb => hR a (List.mem_cons_of_mem _ ha) b (List.mem_cons_of_mem _ hb)

/-- Settling one struct or union in two tables gives members that differ in their types only. -/
theorem map_members_of_settles {α : Type} {f : Member → α} (hf : ∀ m type, f { m with type } = f m)
    {c₁ c₂ : Composite} (hs₁ : t₁.Settles info (.composite c₁))
    (hs₂ : t₂.Settles info (.composite c₂)) : c₁.members.map f = c₂.members.map f := by
  have hmap {t : TypeTable} {c₀ c : Composite} (hs : t.Settles (.composite c₀) (.composite c)) :
      c.members.map f = c₀.members.map f := by
    cases hs with
    | same => rfl
    | composite h => exact map_of_memberSettles hf h
  obtain ⟨c₀, rfl⟩ : ∃ c₀, info = .composite c₀ := by
    cases hs₁ with
    | same | composite => exact ⟨_, rfl⟩
  exact (hmap hs₁).trans (hmap hs₂).symm

/-- Under the name of a struct or union stands one, with members under their own references. -/
theorem Mirrors.of_composite {kind : CompositeKind} {name : String}
    (h : t.Mirrors (kind.ref name) info) : ∃ c, info = .composite c ∧ c.kind = kind ∧
      ∀ m ∈ c.members, ∀ id, m.type = .settled id → t.lookup? m.ref = some id := by
  cases kind with
  | struct =>
    rw [CompositeKind.ref] at h
    cases h with
    | struct hk hm => exact ⟨_, rfl, hk, hm⟩
  | union =>
    rw [CompositeKind.ref] at h
    cases h with
    | union hk hm => exact ⟨_, rfl, hk, hm⟩

theorem Mirrors.of_typedef {name : String} (h : t.Mirrors (.typedef name) info) :
    ∃ d, info = .typedef d ∧ ∀ id, d.real = .settled id → t.lookup? d.ref = some id := by
  cases h with
  | typedef hr => exact ⟨_, rfl, hr⟩

namespace Alike

/-- Both tables know of a struct, a union or a typedef what its definition says. -/
theorem settles (h : t₁.Alike t₂) (hn : ref.isNamed = true) (hr₁ : t₁.refOf id₁ = .ok ref)
    (hr₂ : t₂.refOf id₂ = .ok ref) (hi₁ : t₁.info id₁ = .ok info₁) (hi₂ : t₂.info id₂ = .ok info₂) :
    ∃ info, t₁.Settles info info₁ ∧ t₂.Settles info info₂ := by
  obtain ⟨ds, h₁, h₂⟩ := h.definitions
  obtain ⟨d, hd, rfl⟩ := h₁.named ref hn ⟨id₁, h₁.canonical.lookup?.2 hr₁⟩
  exact ⟨_, h₁.settles hd hr₁ hi₁, h₂.settles hd hr₂ hi₂⟩

/-- Structs and unions under one reference have members under the same references. -/
theorem composite (kind : CompositeKind) (name : String) (h : t₁.Alike t₂)
    (hi₁ : t₁.info id₁ = .ok info₁) (hi₂ : t₂.info id₂ = .ok info₂)
    (hs : ∃ info, t₁.Settles info info₁ ∧ t₂.Settles info info₂)
    (hm₁ : t₁.Mirrors (kind.ref name) info₁) (hm₂ : t₂.Mirrors (kind.ref name) info₂) :
    BuiltAlike (t₁.SameRef t₂) info₁ info₂ := by
  obtain ⟨c₁, rfl, hk₁, hm₁⟩ := hm₁.of_composite
  obtain ⟨c₂, rfl, hk₂, hm₂⟩ := hm₂.of_composite
  obtain ⟨info, hs₁, hs₂⟩ := hs
  refine .composite (hk₁.trans hk₂.symm) (map_members_of_settles (fun _ _ => rfl) hs₁ hs₂) ?_
  refine forall₂_of_map_eq (map_members_of_settles (f := (·.ref)) (fun _ _ => rfl) hs₁ hs₂) ?_
  intro m₁ hmem₁ m₂ hmem₂ href
  obtain ⟨part₁, hp₁, -⟩ := h.complete₁.member_type hi₁ hmem₁
  obtain ⟨part₂, hp₂, -⟩ := h.complete₂.member_type hi₂ hmem₂
  exact ⟨part₁, part₂, hp₁, hp₂, m₁.ref, refOf_of_lookup? (hm₁ m₁ hmem₁ part₁ hp₁),
    href ▸ refOf_of_lookup? (hm₂ m₂ hmem₂ part₂ hp₂)⟩

/-- Typedefs of one name have the same real type. -/
theorem typedef {name : String} (h : t₁.Alike t₂) (hi₁ : t₁.info id₁ = .ok info₁)
    (hi₂ : t₂.info id₂ = .ok info₂) (hs : ∃ info, t₁.Settles info info₁ ∧ t₂.Settles info info₂)
    (hm₁ : t₁.Mirrors (.typedef name) info₁) (hm₂ : t₂.Mirrors (.typedef name) info₂) :
    BuiltAlike (t₁.SameRef t₂) info₁ info₂ := by
  obtain ⟨d₁, rfl, hr₁⟩ := hm₁.of_typedef
  obtain ⟨d₂, rfl, hr₂⟩ := hm₂.of_typedef
  obtain ⟨real₁, hreal₁, -⟩ := h.complete₁.typedef_real hi₁
  obtain ⟨real₂, hreal₂, -⟩ := h.complete₂.typedef_real hi₂
  obtain ⟨info, hs₁, hs₂⟩ := hs
  have href : [d₁.ref] = [d₂.ref] := hs₁.mentions_eq.trans hs₂.mentions_eq.symm
  rw [List.singleton_inj] at href
  exact .typedef hreal₁ hreal₂ ⟨d₁.ref, refOf_of_lookup? (hr₁ real₁ hreal₁),
    href ▸ refOf_of_lookup? (hr₂ real₂ hreal₂)⟩

/-- Types under the same reference are built alike. -/
theorem builtAlike (h : t₁.Alike t₂) (hsame : t₁.SameRef t₂ id₁ id₂) :
    ∃ info₁ info₂, t₁.info id₁ = .ok info₁ ∧ t₂.info id₂ = .ok info₂ ∧
      BuiltAlike (t₁.SameRef t₂) info₁ info₂ := by
  obtain ⟨ref, hr₁, hr₂⟩ := hsame
  obtain ⟨ds, h₁, h₂⟩ := h.definitions
  obtain ⟨info₁, hi₁, hm₁⟩ := h₁.canonical.mirrors_of_refOf hr₁
  obtain ⟨info₂, hi₂, hm₂⟩ := h₂.canonical.mirrors_of_refOf hr₂
  refine ⟨info₁, info₂, hi₁, hi₂, ?_⟩
  -- both infos mirror one reference; only a named type has parts that depend on the table
  cases ref with
  | void =>
    cases hm₁
    cases hm₂
    exact .void
  | integer rank signed =>
    cases hm₁
    cases hm₂
    rw [h.profile_eq]
    exact .integer ..
  | pointer base =>
    cases hm₁
    cases hm₂
    exact .pointer ..
  | array base length =>
    cases hm₁ with
    | array hb₁ =>
      cases hm₂ with
      | array hb₂ => exact .array ⟨base, refOf_of_lookup? hb₁, refOf_of_lookup? hb₂⟩
  | function ret params vararg =>
    cases hm₁
    cases hm₂
    exact .function ..
  | struct name =>
    have hs := h.settles rfl hr₁ hr₂ hi₁ hi₂
    exact composite .struct name h hi₁ hi₂ hs hm₁ hm₂
  | union name =>
    have hs := h.settles rfl hr₁ hr₂ hi₁ hi₂
    exact composite .union name h hi₁ hi₂ hs hm₁ hm₂
  | typedef name => exact h.typedef hi₁ hi₂ (h.settles rfl hr₁ hr₂ hi₁ hi₂) hm₁ hm₂

/-- What a type holds stands in the other table under the same reference. -/
theorem exists_holds (h : t₁.Alike t₂) (hsame : t₁.SameRef t₂ id₁ id₂)
    (hp : t₂.Holds id₂ part₂) : ∃ part₁, t₁.Holds id₁ part₁ ∧ t₁.SameRef t₂ part₁ part₂ := by
  obtain ⟨info₁, info₂, hi₁, hi₂, halike⟩ := h.builtAlike hsame
  cases hp with
  | @member c₂ m₂ part₂ hi hm₂ ht =>
    obtain rfl := Except.ok.inj (hi₂.symm.trans hi)
    cases halike with
    | composite _ _ hm =>
      obtain ⟨m₁, hmem, part₁, _, hp₁, hp₂, hsame⟩ := forall₂_mem_right hm hm₂
      obtain rfl := Deferred.settled.inj (ht.symm.trans hp₂)
      exact ⟨part₁, .member hi₁ hmem hp₁, hsame⟩
  | element hi =>
    obtain rfl := Except.ok.inj (hi₂.symm.trans hi)
    cases halike with
    | array hsame => exact ⟨_, .element hi₁, hsame⟩

/-- What a type contains stands in the other table under the same reference. -/
theorem exists_contains (h : t₁.Alike t₂) (hsame : t₁.SameRef t₂ id₁ id₂)
    (hp : t₂.Contains id₂ part₂) :
    ∃ part₁, t₁.Contains id₁ part₁ ∧ t₁.SameRef t₂ part₁ part₂ := by
  have hheld (hp : t₂.Holds id₂ part₂) := (h.exists_holds hsame hp).imp fun _ hp =>
    hp.imp_left Holds.contains
  cases hp with
  | member hi hm ht => exact hheld (.member hi hm ht)
  | element hi => exact hheld (.element hi)
  | typedef hi hr =>
    obtain ⟨info₁, info₂, hi₁, hi₂, halike⟩ := h.builtAlike hsame
    obtain rfl := Except.ok.inj (hi₂.symm.trans hi)
    cases halike with
    | typedef hr₁ hr₂ hsame =>
      obtain rfl := Deferred.settled.inj (hr.symm.trans hr₂)
      exact ⟨_, .typedef hi₁ hr₁, hsame⟩

/-- Following typedefs leads to the same reference. -/
theorem exists_realType (h : t₁.Alike t₂) (hreal : t₂.RealType id₂ real₂)
    (hsame : t₁.SameRef t₂ id₁ id₂) :
    ∃ real₁, t₁.RealType id₁ real₁ ∧ t₁.SameRef t₂ real₁ real₂ := by
  induction hreal generalizing id₁ with
  | self hi hn =>
    obtain ⟨info₁, info₂, hi₁, hi₂, halike⟩ := h.builtAlike hsame
    obtain rfl := Except.ok.inj (hi₂.symm.trans hi)
    refine ⟨id₁, .self hi₁ fun d hd => ?_, hsame⟩
    subst hd
    cases halike
    exact hn _ rfl
  | follow hi hr _ ih =>
    obtain ⟨info₁, info₂, hi₁, hi₂, halike⟩ := h.builtAlike hsame
    obtain rfl := Except.ok.inj (hi₂.symm.trans hi)
    cases halike with
    | typedef hr₁ hr₂ hnext =>
      obtain rfl := Deferred.settled.inj (hr.symm.trans hr₂)
      obtain ⟨real₁, hreal₁, hsame'⟩ := ih hnext
      exact ⟨real₁, .follow hi₁ hr₁ hreal₁, hsame'⟩

/-- A type that is grounded in one table is grounded in the other. -/
theorem grounded (h : t₁.Alike t₂) (hg : t₁.Grounded id₁) (hsame : t₁.SameRef t₂ id₁ id₂) :
    t₂.Grounded id₂ := by
  induction hg generalizing id₂ with
  | intro id₁ _ ih =>
    refine .intro _ fun part₂ hp => ?_
    obtain ⟨part₁, hp₁, hsame'⟩ := h.exists_contains hsame hp
    exact ih part₁ hp₁ hsame'

/-- Where the references of the second table are registered in the first one, the check finds no
more in it. -/
theorem sound (h : t₁.Alike t₂) (hs : t₁.Sound)
    (hrefs : ∀ id₂ : TypeId, id₂.index < t₂.size → ∃ id₁, t₁.SameRef t₂ id₁ id₂) : t₂.Sound where
  acyclic := by
    -- a circle of the second table would be one of the first
    refine acyclic_of_grounded fun id₂ hid => ?_
    obtain ⟨id₁, hsame⟩ := hrefs id₂ hid
    exact h.grounded (hs.acyclic.grounded h.complete₁ id₁) hsame
  names := by
    intro id₂ c hi
    obtain ⟨id₁, hsame⟩ := hrefs id₂ (lt_of_info hi)
    obtain ⟨info₁, info₂, hi₁, hi₂, halike⟩ := h.builtAlike hsame
    obtain rfl := Except.ok.inj (hi₂.symm.trans hi)
    cases halike with
    | composite _ hn _ =>
      rw [← hn]
      exact hs.names id₁ _ hi₁
  parts := by
    intro id₂ part₂ real₂ hp hreal hvoid
    obtain ⟨id₁, hsame⟩ := hrefs id₂ hp.contains.lt
    obtain ⟨part₁, hp₁, hsame₁⟩ := h.exists_holds hsame hp
    obtain ⟨real₁, hreal₁, hsame₂⟩ := h.exists_realType hreal hsame₁
    obtain ⟨info₁, info₂, hi₁, hi₂, halike⟩ := h.builtAlike hsame₂
    obtain rfl := Except.ok.inj (hi₂.symm.trans hvoid)
    cases halike
    exact hs.parts id₁ part₁ real₁ hp₁ hreal₁ hi₁

end Alike

/-! ## Layouts -/

/-- One level of the layouts of types that are built alike. -/
theorem BuiltAlike.layoutBy_eq {R : TypeId → TypeId → Prop} {f g : TypeId → Except Fault Layout}
    (h : BuiltAlike R info₁ info₂) (hprofile : t₁.profile = t₂.profile)
    (hi : t₁.info id₁ = .ok info₁)
    (hR : ∀ part₁ part₂, t₁.Contains id₁ part₁ → R part₁ part₂ → f part₁ = g part₂) :
    t₁.layoutBy f info₁ = t₂.layoutBy g info₂ := by
  cases h with
  | void | integer | function => rfl
  | pointer => rw [layoutBy, layoutBy, hprofile]
  | array h => rw [layoutBy, layoutBy, hR _ _ (.element hi) h]
  | @composite c₁ c₂ hk _ hm =>
    have hextents : List.Forall₂ (fun m₁ m₂ => memberExtent f m₁ = memberExtent g m₂)
        c₁.members c₂.members := by
      refine ((List.forall₂_and_left _ _).2 ⟨fun m hm => hm, hm⟩).imp fun m₁ m₂ hm => ?_
      obtain ⟨hmem, part₁, part₂, hp₁, hp₂, hsame⟩ := hm
      rw [memberExtent_eq hp₁, memberExtent_eq hp₂, hR _ _ (.member hi hmem hp₁) hsame]
    rw [layoutBy, layoutBy, hk, Layout.ofStruct_congr₂ hextents, Layout.ofUnion_congr₂ hextents]
  | typedef h₁ h₂ h =>
    rw [layoutBy, layoutBy, Typedef.realId, Typedef.realId, h₁, h₂]
    exact hR _ _ (.typedef hi h₁) h

/-- Types under the same reference have the same layout, or their layouts stop with the same fault:
by induction on what is nested in the type. -/
theorem Alike.layout_eq (h : t₁.Alike t₂) (ha₁ : t₁.Acyclic)
    (hsame : t₁.SameRef t₂ id₁ id₂) : t₁.layout id₁ = t₂.layout id₂ := by
  have hgrounded := ha₁.grounded h.complete₁ id₁
  induction hgrounded generalizing id₂ with
  | intro id₁ _ ih =>
    obtain ⟨info₁, info₂, hi₁, hi₂, halike⟩ := h.builtAlike hsame
    rw [h.complete₁.layout_eq hi₁, h.complete₂.layout_eq hi₂]
    exact halike.layoutBy_eq h.profile_eq hi₁ fun part₁ part₂ hp hsame' => ih part₁ hp hsame'

/-! ## Definitions in any order -/

/-- The definitions of two settlements in different orders. -/
theorem Settlement.alike {ds' : List TypeDefinition} (h₁ : Settlement profile ds t₁)
    (h₂ : Settlement profile ds' t₂) (hp : ds.Perm ds') : t₁.Alike t₂ :=
  ⟨⟨ds, h₁.defining, h₂.defining.perm hp.symm⟩, h₁.complete, h₂.complete,
    h₁.profile_eq.trans h₂.profile_eq.symm⟩

/-- Definitions that pass the check pass it in any order. -/
theorem Settlement.sound {ds' : List TypeDefinition} (h₁ : Settlement profile ds t₁)
    (h₂ : Settlement profile ds' t₂) (hp : ds.Perm ds') (hs : t₁.Sound) : t₂.Sound := by
  refine (h₁.alike h₂ hp).sound hs fun id₂ hid => ?_
  obtain ⟨info, hi⟩ := exists_info_iff.2 hid
  obtain ⟨e, he, -⟩ := info_eq_ok_iff.1 hi
  have hr₂ : t₂.refOf id₂ = .ok e.ref := refOf_eq_ok_iff.2 ⟨e, he, rfl⟩
  have hneeds := (h₂.registered_iff e.ref).1 ⟨id₂, h₂.defining.canonical.lookup?.2 hr₂⟩
  obtain ⟨id₁, hid₁⟩ := (h₁.registered_iff e.ref).2 (by simpa [Needs, hp.mem_iff] using hneeds)
  exact ⟨id₁, e.ref, refOf_of_lookup? hid₁, hr₂⟩

/-- Types that pass the check are settled and sound. -/
theorem settlement_of_checkedTypes {diagnostics : Diagnostics}
    (h : checkedTypes profile ds = .ok (t, diagnostics)) :
    Settlement profile ds t ∧ (diagnostics.hasErrors = false ↔ t.Sound) := by
  obtain ⟨t₀, hd, hs, hc⟩ := checkedTypes_eq_ok_iff.1 h
  have hsettlement := settlement hd hs
  obtain ⟨found, hfound, hiff⟩ := hsettlement.complete.check_reports []
  obtain rfl := Except.ok.inj (hc.symm.trans hfound)
  exact ⟨hsettlement, hiff⟩

/-- The types of definitions in another order. -/
theorem exists_checkedTypes_perm {ds' : List TypeDefinition} {diagnostics : Diagnostics}
    (hp : ds.Perm ds') (h : checkedTypes profile ds = .ok (t, diagnostics)) :
    ∃ t' diagnostics', checkedTypes profile ds' = .ok (t', diagnostics') := by
  obtain ⟨t₀, hd, hs, -⟩ := checkedTypes_eq_ok_iff.1 h
  obtain ⟨t₀', t', hd', hs'⟩ := exists_settlement_perm hp hd hs
  obtain ⟨found, hfound, -⟩ := (settlement hd' hs').complete.check_reports []
  exact ⟨t', _, checkedTypes_eq_ok_iff.2 ⟨t₀', hd', hs', hfound⟩⟩

/-- Lookups in two tables with the same definitions, whose caches hold layouts: those of what is
found are the same. -/
theorem layout_eq_of_defining {c c' : LayoutCache} (hc : c.HoldsLayouts) (hc' : c'.HoldsLayouts)
    (hd : c.types.Defining ds) (hd' : c'.types.Defining ds)
    (hprofile : c.types.profile = c'.types.profile)
    (hnames : ∀ part ∈ ref.parts, part.isNamed = true → ∃ d ∈ ds, d.ref = part) :
    ∃ c₁ c₁' id id', c.intern ref = .ok (c₁, id) ∧ c'.intern ref = .ok (c₁', id') ∧
      Prod.snd <$> c₁.layout id = Prod.snd <$> c₁'.layout id' := by
  obtain ⟨t₁, id, hi⟩ := hd.exists_intern hnames
  obtain ⟨t₁', id', hi'⟩ := hd'.exists_intern hnames
  have hintern : c.intern ref = .ok (_, id) := bind_eq_ok_iff.2 ⟨_, hi, rfl⟩
  have hintern' : c'.intern ref = .ok (_, id') := bind_eq_ok_iff.2 ⟨_, hi', rfl⟩
  refine ⟨_, _, id, id', hintern, hintern', ?_⟩
  obtain ⟨hr, -⟩ := hc.intern hintern
  obtain ⟨hr', -⟩ := hc'.intern hintern'
  rw [hr.layout_eq, hr'.layout_eq]
  have halike : t₁.Alike t₁' :=
    ⟨⟨ds, hd.of_growsBy (hd.canonical.intern hi), hd'.of_growsBy (hd'.canonical.intern hi')⟩,
      hr.complete, hr'.complete,
      (intern_extends hi).1.profile.trans (hprofile.trans (intern_extends hi').1.profile.symm)⟩
  exact halike.layout_eq hr.acyclic ⟨ref, intern_refOf hi, intern_refOf hi'⟩

/-- Definitions that pass the check pass it in any order. Whatever is looked up and measured in the
two tables then, in any order: a layout that is asked for is the one that would be computed anew,
and a reference over the defined names is found in both, where its layouts are the same or stop with
the same fault. -/
theorem layout_of_perm {ds' : List TypeDefinition} {diagnostics : Diagnostics} (hp : ds.Perm ds')
    (h : checkedTypes profile ds = .ok (t, diagnostics)) (hquiet : diagnostics.hasErrors = false) :
    ∃ t' diagnostics', checkedTypes profile ds' = .ok (t', diagnostics') ∧
      diagnostics'.hasErrors = false ∧
      ∀ queries queries' c c', (LayoutCache.ofTypes t).answerAll queries = .ok c →
        (LayoutCache.ofTypes t').answerAll queries' = .ok c' →
        (∀ id, Prod.snd <$> c.layout id = c.types.layout id) ∧
        (∀ id, Prod.snd <$> c'.layout id = c'.types.layout id) ∧
        ∀ ref : TypeRef,
          (∀ part ∈ ref.parts, part.isNamed = true → ∃ d ∈ ds, d.ref = part) →
          ∃ c₁ c₁' id id', c.intern ref = .ok (c₁, id) ∧ c'.intern ref = .ok (c₁', id') ∧
            Prod.snd <$> c₁.layout id = Prod.snd <$> c₁'.layout id' := by
  obtain ⟨t', diagnostics', h'⟩ := exists_checkedTypes_perm hp h
  obtain ⟨hs, hsound⟩ := settlement_of_checkedTypes h
  obtain ⟨hs', hsound'⟩ := settlement_of_checkedTypes h'
  -- both tables are complete and sound, so their caches hold the layouts, and these depend on the
  -- reference
  have hsound₁ := hsound.1 hquiet
  have hsound₂ := hs.sound hs' hp hsound₁
  refine ⟨t', diagnostics', h', hsound'.2 hsound₂, fun queries queries' c c' hq hq' => ?_⟩
  obtain ⟨hr, hi⟩ := (LayoutCache.HoldsLayouts.ofTypes hs.complete hsound₁.acyclic).answerAll hq
  obtain ⟨hr', hi'⟩ := (LayoutCache.HoldsLayouts.ofTypes hs'.complete hsound₂.acyclic).answerAll hq'
  have hprofile : c.types.profile = c'.types.profile := by
    rw [(extends_of_interns hi).profile, (extends_of_interns hi').profile]
    exact hs.profile_eq.trans hs'.profile_eq.symm
  exact ⟨hr.layout_eq, hr'.layout_eq, fun ref hnames => layout_eq_of_defining hr hr'
    (hs.defining.of_interns hi) ((hs'.defining.perm hp.symm).of_interns hi') hprofile hnames⟩

/-- A line between two points, in front of what it is made of. -/
def lineDefinitions : List TypeDefinition :=
  [.composite .struct "line" [⟨"from", .struct "point", none⟩, ⟨"to", .struct "point", none⟩] none,
    .composite .struct "point" [⟨"x", .integer .short true, none⟩, ⟨"y", fillNumber.ref, none⟩]
      none,
    fillNumber]

/-- The definitions backward, with other questions in between: two lines take 32 bytes. -/
theorem layout_of_perm_lines :
    ∃ t t' diagnostics diagnostics', checkedTypes .ilp32 lineDefinitions = .ok (t, diagnostics) ∧
      checkedTypes .ilp32 lineDefinitions.reverse = .ok (t', diagnostics') ∧
      diagnostics'.hasErrors = false ∧
      ∃ c c', (LayoutCache.ofTypes t).answerAll [.layout ⟨9⟩, .layout ⟨10⟩] = .ok c ∧
        (LayoutCache.ofTypes t').answerAll [.intern (.pointer (.struct "line"))] = .ok c' ∧
        ∃ c₁ c₁' id id', c.intern (.array (.struct "line") (some 2)) = .ok (c₁, id) ∧
          c'.intern (.array (.struct "line") (some 2)) = .ok (c₁', id') ∧ id ≠ id' ∧
          Prod.snd <$> c₁.layout id = .ok ⟨32, 4, []⟩ ∧
          Prod.snd <$> c₁'.layout id' = .ok ⟨32, 4, []⟩ := by
  have hchecked : checkedTypes .ilp32 lineDefinitions = .ok (_, []) := rfl
  have hperm : lineDefinitions.Perm lineDefinitions.reverse := (List.reverse_perm _).symm
  obtain ⟨t', diagnostics', h', hquiet', hsame⟩ := layout_of_perm hperm hchecked rfl
  obtain ⟨rfl, rfl⟩ := Prod.mk.inj (Except.ok.inj h')
  obtain ⟨-, -, hsame⟩ := hsame [.layout ⟨9⟩, .layout ⟨10⟩] [.intern (.pointer (.struct "line"))]
    _ _ rfl rfl
  obtain ⟨c₁, c₁', id, id', hi, hi', heq⟩ := hsame (.array (.struct "line") (some 2)) (by decide)
  obtain ⟨rfl, rfl⟩ := Prod.mk.inj (Except.ok.inj hi)
  obtain ⟨rfl, rfl⟩ := Prod.mk.inj (Except.ok.inj hi')
  exact ⟨_, _, _, _, hchecked, rfl, rfl, _, _, rfl, rfl, _, _, _, _, rfl, rfl, by decide,
    by decide +kernel, heq.symm⟩

end TypeTable

end Backend386
