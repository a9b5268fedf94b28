import Backend386.Proofs.Types.Check
import Backend386.Proofs.Types.Layout

/-!
# The layouts of types

The layout of a type is computed from the layouts of its parts, whether or not types contain
themselves: the bound on the depth does not matter, since a type that needs one step more has a part
that does. Where no type contains itself, the layout exists unless a size leaves its range or a
function type has to be measured, and parts lie inside the whole and beside each other, at any
depth.

* `TypeTable.layoutBy` — one level of a layout, and `TypeTable.Complete.layout_eq`;
* `TypeTable.LayoutSound` — what a layout promises;
* `TypeTable.Part` — the parts of an object, named by members and indices;
* `TypeTable.layout_sound` — layouts of checked tables keep their promises.
-/

namespace Backend386.TypeTable

open Relation (TransGen ReflTransGen)

variable {t t' : TypeTable} {id part real : TypeId} {info : TypeInfo} {l sub : Layout}

/-! ## One level -/

/-- The size and the alignment of a member. -/
def memberExtent (layouts : TypeId → Except Fault Layout) (m : Member) :
    Except Fault (Nat × Nat) := do
  let l ← layouts (← m.typeId)
  return (l.size, l.alignment)

/-- The layout of a type from the layouts of its parts. -/
def layoutBy (t : TypeTable) (layouts : TypeId → Except Fault Layout) :
    TypeInfo → Except Fault Layout
  | .void => .ok { size := 1, alignment := 1 }
  | .integer size _ _ => .ok { size, alignment := size }
  | .pointer _ => .ok { size := t.profile.pointerSize, alignment := t.profile.pointerSize }
  | .array base length => do
    let element ← layouts base
    let size ← Checked.mul element.size ((length.map UInt64.toNat).getD 0)
    return { size, alignment := element.alignment }
  | .composite c =>
    match c.kind with
    | .struct => Layout.ofStruct (memberExtent layouts) c.members
    | .union => Layout.ofUnion (memberExtent layouts) c.members
  | .function _ => .error .sizelessFunction
  | .typedef d => do layouts (← d.realId)

theorem layoutWithin_succ (n : Nat) (id : TypeId) :
    t.layoutWithin (n + 1) id = t.info id >>= t.layoutBy (t.layoutWithin n) :=
  rfl

theorem memberExtent_eq {layouts : TypeId → Except Fault Layout} {m : Member}
    (h : m.type = .settled part) :
    memberExtent layouts m = layouts part >>= fun l => .ok (l.size, l.alignment) := by
  rw [memberExtent, Member.typeId, h]
  rfl

/-- Only the layouts of parts matter. -/
theorem layoutBy_agrees {stops : Fault → Prop} {f g : TypeId → Except Fault Layout}
    (hi : t.info id = .ok info) (hprofile : t'.profile = t.profile)
    (h : ∀ part, t.Contains id part → AgreesUnless stops (f part) (g part)) :
    AgreesUnless stops (t.layoutBy f info) (t'.layoutBy g info) := by
  -- a layout is computed from those of the parts only
  cases info with
  | void | integer | function => exact .refl _
  | pointer => exact .of_eq (by rw [layoutBy, layoutBy, hprofile])
  | array base length => exact (h base (.element hi)).bind fun _ _ => .refl _
  | composite c =>
    have hmembers : ∀ m ∈ c.members, AgreesUnless stops (memberExtent f m) (memberExtent g m) := by
      intro m hm
      cases hp : m.type with
      | pending => exact .of_eq (by rw [memberExtent, memberExtent, Member.typeId, hp]; rfl)
      | settled part =>
        rw [memberExtent_eq hp, memberExtent_eq hp]
        exact (h part (.member hi hm hp)).bind fun _ _ => .refl _
    rw [layoutBy, layoutBy]
    cases c.kind with
    | struct => exact Layout.ofStruct_agrees hmembers
    | union => exact Layout.ofUnion_agrees hmembers
  | typedef d =>
    rw [layoutBy, layoutBy, Typedef.realId]
    cases hr : d.real with
    | pending => exact .refl _
    | settled real => exact h real (.typedef hi hr)

/-- More steps change nothing but a layout for which the steps did not suffice. -/
theorem layoutWithin_agrees {stops : Fault → Prop} (hprofile : t'.profile = t.profile)
    (hinfo : ∀ id, AgreesUnless stops (t.info id) (t'.info id)) (hstop : stops .endlessType)
    {n m : Nat} (hnm : n ≤ m) (id : TypeId) :
    AgreesUnless stops (t.layoutWithin n id) (t'.layoutWithin m id) := by
  induction n generalizing m id with
  | zero => exact .error hstop
  | succ n ih =>
    obtain ⟨m, rfl⟩ := Nat.exists_eq_add_of_le' hnm
    rw [← Nat.add_assoc, layoutWithin_succ, layoutWithin_succ]
    refine (hinfo id).bind fun info hi => ?_
    exact layoutBy_agrees hi hprofile fun part _ => ih (Nat.le_add_left ..) part

/-! ## Enough steps -/

/-- The layout is found with one step more than these. -/
def NeedsSteps (t : TypeTable) (n : Nat) (id : TypeId) : Prop :=
  id.index < t.size ∧ t.layoutWithin (n + 1) id ≠ t.layoutWithin n id

/-- Once the layout is found, more steps do not change it. -/
theorem NeedsSteps.not_of_lt {n m : Nat} (h : t.NeedsSteps n id) (hnm : n < m) :
    ¬ t.NeedsSteps m id := by
  have hagrees {i j : Nat} (hij : i ≤ j) : AgreesUnless (.endlessType = ·)
      (t.layoutWithin i id) (t.layoutWithin j id) :=
    layoutWithin_agrees rfl (fun _ => .refl _) rfl hij id
  have hfound {k : Nat} (hk : n + 1 ≤ k) : t.layoutWithin k id = t.layoutWithin (n + 1) id := by
    rcases hagrees hk with heq | ⟨_, hendless, rfl⟩
    · exact heq
    · rcases hagrees n.le_succ with heq | ⟨_, hendless', rfl⟩
      · exact (h.2 heq).elim
      · exact (h.2 (hendless.trans hendless'.symm)).elim
  exact fun h' => h'.2 ((hfound (Nat.le_succ_of_le hnm)).trans (hfound hnm).symm)

/-- As many steps as there are types suffice, also where types contain themselves: a type that needs
one step more has a part that needs one step more too, and so on. -/
theorem Complete.layoutWithin_succ_eq (hc : t.Complete) {n : Nat} (hn : t.size ≤ n)
    (hid : id.index < t.size) : t.layoutWithin (n + 1) id = t.layoutWithin n id := by
  -- if the limit mattered, each lower limit would matter for a type of its own, and there are not
  -- that many
  by_contra hne
  refine absurd (steps_lt_size (fun _ _ h => h.1) ?_ ?_ (show t.NeedsSteps n id from ⟨hid, hne⟩))
    (not_lt.2 hn)
  · intro n m id h h'
    rcases Nat.lt_trichotomy n m with hlt | heq | hgt
    · exact (h.not_of_lt hlt h').elim
    · exact heq
    · exact (h'.not_of_lt hgt h).elim
  · rintro n id ⟨hid, hne⟩
    obtain ⟨info, hi⟩ := exists_info_iff.2 hid
    by_contra hnone
    refine hne ?_
    rw [layoutWithin_succ, layoutWithin_succ, hi]
    refine (layoutBy_agrees hi rfl fun part hpart => .of_eq ?_).eq
    by_contra hpart'
    exact hnone ⟨part, hpart.part_lt hc, hpart'⟩

/-- The layout of a type is computed from the layouts of its parts. -/
theorem Complete.layout_eq (hc : t.Complete) (hi : t.info id = .ok info) :
    t.layout id = t.layoutBy t.layout info := by
  rw [layout, ← hc.layoutWithin_succ_eq le_rfl (lt_of_info hi), layoutWithin_succ, hi]
  rfl

/-! ## Alignments -/

/-- An alignment is 1, 2, 4 or 8. -/
def IsAlignment (n : Nat) : Prop :=
  n ∈ [1, 2, 4, 8]

instance : DecidablePred IsAlignment :=
  fun n => inferInstanceAs (Decidable (n ∈ [1, 2, 4, 8]))

theorem IsAlignment.pos {n : Nat} (h : IsAlignment n) : 0 < n := by
  simp only [IsAlignment, List.mem_cons, List.not_mem_nil, or_false] at h
  omega

/-- The smaller of two alignments divides the other. -/
theorem IsAlignment.dvd {a b : Nat} (ha : IsAlignment a) (hb : IsAlignment b) (h : a ≤ b) :
    a ∣ b := by
  simp only [IsAlignment, List.mem_cons, List.not_mem_nil, or_false] at ha hb
  rcases ha with rfl | rfl | rfl | rfl <;> rcases hb with rfl | rfl | rfl | rfl <;> omega

/-- The sizes of scalars. -/
structure ScalarSizes (A : Nat → Prop) (profile : WidthProfile) : Prop where
  one : A 1
  rank : ∀ rank, A (profile.rankSize rank)
  pointer : A profile.pointerSize

/-- The sizes of scalars are alignments in every profile. -/
theorem scalarSizes {profile : WidthProfile} (h : profile ∈ WidthProfile.all) :
    ScalarSizes IsAlignment profile := by
  simp only [WidthProfile.all, List.mem_cons, List.not_mem_nil, or_false] at h
  rcases h with rfl | rfl | rfl | rfl <;>
    exact ⟨by decide, fun rank => by cases rank <;> decide, by decide⟩

/-- The layout of a struct or union. -/
theorem layoutBy_composite {layouts : TypeId → Except Fault Layout} {c : Composite}
    (h : t.layoutBy layouts (.composite c) = .ok l) :
    ∃ extents, Layout.Measured (memberExtent layouts) c.members extents ∧ l.Fits extents ∧
      (c.kind = .struct → ∀ {i j offset offset' : Nat} {e : Nat × Nat}, i < j →
        extents[i]? = some e → l.offsets[i]? = some offset → l.offsets[j]? = some offset' →
          offset + e.1 ≤ offset') ∧
      (c.kind = .union → ∀ o ∈ l.offsets, o = 0) := by
  rw [layoutBy] at h
  cases hk : c.kind with
  | struct =>
    rw [hk] at h
    obtain ⟨extents, hmeasured, hfits, hordered⟩ := Layout.ofStruct_eq_ok h
    exact ⟨extents, hmeasured, hfits, fun _ => hordered, by simp⟩
  | union =>
    rw [hk] at h
    obtain ⟨extents, hmeasured, hfits, hzero⟩ := Layout.ofUnion_eq_ok h
    exact ⟨extents, hmeasured, hfits, by simp, fun _ => hzero⟩

/-- Whatever holds of the sizes of scalars holds of every alignment, in any table. -/
theorem WellFormed.layoutWithin_alignment {A : Nat → Prop} (hw : t.WellFormed)
    (hA : ScalarSizes A t.profile) {n : Nat} (h : t.layoutWithin n id = .ok l) :
    A l.alignment ∧ l.alignment ∣ l.size := by
  -- induction on the depth: an alignment is that of a scalar inside, or it is one
  induction n generalizing id l with
  | zero => cases h
  | succ n ih =>
    rw [layoutWithin_succ] at h
    obtain ⟨info, hi, h⟩ := bind_eq_ok_iff.1 h
    cases info with
    | void =>
      obtain rfl := Except.ok.inj h
      exact ⟨hA.one, Nat.dvd_refl _⟩
    | integer size signed name =>
      obtain rfl := Except.ok.inj h
      obtain ⟨e, he, hinfo⟩ := mem_of_info hi
      obtain ⟨rank, rfl⟩ := hw.integers e he hinfo
      exact ⟨hA.rank rank, Nat.dvd_refl _⟩
    | pointer base =>
      obtain rfl := Except.ok.inj h
      exact ⟨hA.pointer, Nat.dvd_refl _⟩
    | array base length =>
      obtain ⟨element, he, h⟩ := bind_eq_ok_iff.1 h
      obtain ⟨size, hsize, h⟩ := bind_eq_ok_iff.1 h
      obtain rfl := Except.ok.inj h
      obtain ⟨rfl, -⟩ := Checked.mul_eq_ok_iff.1 hsize
      obtain ⟨halign, hdvd⟩ := ih he
      exact ⟨halign, Nat.dvd_mul_right_of_dvd hdvd _⟩
    | composite c =>
      obtain ⟨extents, hmeasured, hfits, -, -⟩ := layoutBy_composite h
      refine ⟨?_, hfits.alignment_dvd⟩
      rw [hfits.alignment_eq]
      refine largest_of hA.one fun e he => ?_
      obtain ⟨m, -, hm⟩ := hmeasured.mem he
      obtain ⟨part, -, hm⟩ := bind_eq_ok_iff.1 hm
      obtain ⟨sub, hsub, hm⟩ := bind_eq_ok_iff.1 hm
      obtain rfl := Except.ok.inj hm
      exact (ih hsub).1
    | function f => cases h
    | typedef d =>
      obtain ⟨real, -, h⟩ := bind_eq_ok_iff.1 h
      exact ih h

/-! ## Existence -/

/-- A function type is found when the parts of a type are followed. -/
def ReachesFunction (t : TypeTable) (id : TypeId) : Prop :=
  ∃ part f, ReflTransGen t.Contains id part ∧ t.info part = .ok (.function f)

/-- The measured parts of a type that has a layout have layouts. -/
theorem Complete.exists_layout_part (hc : t.Complete) (h : t.layout id = .ok l)
    (hpart : t.Contains id part) : ∃ sub, t.layout part = .ok sub := by
  cases hpart with
  | @member c m part hi hm hp =>
    rw [hc.layout_eq hi] at h
    obtain ⟨extents, hmeasured, -⟩ := layoutBy_composite h
    obtain ⟨i, hm⟩ := List.mem_iff_getElem?.1 hm
    obtain ⟨e, -, he⟩ := hmeasured.get hm
    rw [memberExtent_eq hp] at he
    exact (bind_eq_ok_iff.1 he).imp fun sub h => h.1
  | element hi =>
    rw [hc.layout_eq hi] at h
    exact (bind_eq_ok_iff.1 h).imp fun sub h => h.1
  | typedef hi hr =>
    rw [hc.layout_eq hi, layoutBy, Typedef.realId, hr] at h
    exact ⟨l, h⟩

/-- Functions have no layout, nor has what contains them. -/
theorem Complete.not_reachesFunction (hc : t.Complete) (h : t.layout id = .ok l) :
    ¬ t.ReachesFunction id := by
  rintro ⟨part, f, hreach, hi⟩
  have hpart : ∃ sub, t.layout part = .ok sub := by
    clear hi
    induction hreach with
    | refl => exact ⟨l, h⟩
    | tail _ hcontains ih =>
      obtain ⟨sub, hsub⟩ := ih
      exact hc.exists_layout_part hsub hcontains
  obtain ⟨sub, hsub⟩ := hpart
  rw [hc.layout_eq hi] at hsub
  cases hsub

/-- One level of a layout stops with the faults of the parts, or where the parts cannot be placed.
-/
theorem Complete.layoutBy_faults {faults : Fault → Prop} {layouts : TypeId → Except Fault Layout}
    (hc : t.Complete) (hi : t.info id = .ok info)
    (hoverflow : ∀ fault : Fault, fault.IsOverflow → faults fault)
    (hfunction : ∀ f, info = .function f → faults .sizelessFunction)
    (hparts : ∀ part, t.Contains id part → FaultsIn faults (layouts part))
    (halign : ∀ part l, t.Contains id part → layouts part = .ok l →
      ∀ n, FaultsIn faults (align n l.alignment)) :
    FaultsIn faults (t.layoutBy layouts info) := by
  -- the sizes overflow, or a part faults, or the type is a function
  cases info with
  | array base length =>
    exact (hparts base (.element hi)).bind fun element _ =>
      ((Checked.mul_faults _ _).mono hoverflow).bind fun _ _ => .ok _
  | composite c =>
    have hmeasure : ∀ m ∈ c.members, FaultsIn faults (memberExtent layouts m) := by
      intro m hm
      obtain ⟨part, hp, -⟩ := hc.member_type hi hm
      rw [memberExtent_eq hp]
      exact (hparts part (.member hi hm hp)).bind fun _ _ => .ok _
    rw [layoutBy]
    split
    · refine Layout.ofStruct_faults hoverflow hmeasure fun m hm e he n => ?_
      obtain ⟨part, hp, -⟩ := hc.member_type hi hm
      rw [memberExtent_eq hp] at he
      obtain ⟨sub, hsub, he⟩ := bind_eq_ok_iff.1 he
      obtain rfl := Except.ok.inj he
      exact halign part sub (.member hi hm hp) hsub n
    · exact Layout.ofUnion_faults hoverflow hmeasure
  | function f => exact .error (hfunction f rfl)
  | typedef d =>
    obtain ⟨real, hr, -⟩ := hc.typedef_real hi
    rw [layoutBy, Typedef.realId, hr]
    exact hparts real (.typedef hi hr)
  | _ => exact .ok _

/-- A layout fails only if a size leaves its range or a function is measured: by induction on what
is nested in the type. -/
theorem Acyclic.layout_faults {faults : Fault → Prop} (ha : t.Acyclic) (hc : t.Complete)
    (hA : ScalarSizes IsAlignment t.profile)
    (hoverflow : ∀ fault : Fault, fault.IsOverflow → faults fault)
    (hfunction : t.ReachesFunction id → faults .sizelessFunction) (hid : id.index < t.size) :
    FaultsIn faults (t.layout id) := by
  have hgrounded := ha.grounded hc id
  -- induction on containment: a fault of a part is one of the whole
  induction hgrounded with
  | intro id _ ih =>
    have hparts (part : TypeId) (hpart : t.Contains id part) : FaultsIn faults (t.layout part) := by
      refine ih part hpart (fun hreach => ?_) (hpart.part_lt hc)
      obtain ⟨x, f, hreach, hi⟩ := hreach
      exact hfunction ⟨x, f, hreach.head hpart, hi⟩
    obtain ⟨info, hi⟩ := exists_info_iff.2 hid
    rw [hc.layout_eq hi]
    refine hc.layoutBy_faults hi hoverflow ?_ hparts fun part l _ hl n => ?_
    · rintro f rfl
      exact hfunction ⟨id, f, .refl, hi⟩
    · exact (align_faults n (hc.layoutWithin_alignment hA hl).1.pos).mono hoverflow

/-- Where nothing goes round below a type, its layout comes to an end. -/
theorem Grounded.layout_faults (hg : t.Grounded id) (hc : t.Complete) (hid : id.index < t.size) :
    FaultsIn (¬ ·.IsCircle) (t.layout id) := by
  have hoverflow (fault : Fault) (h : fault.IsOverflow) : ¬ fault.IsCircle := by
    cases fault with
    | addOverflow | multiplyOverflow => exact not_false
    | _ => exact h.elim
  induction hg with
  | intro id _ ih =>
    obtain ⟨info, hi⟩ := exists_info_iff.2 hid
    rw [hc.layout_eq hi]
    refine hc.layoutBy_faults hi hoverflow (fun _ _ => not_false)
      (fun part hpart => ih part hpart (hpart.part_lt hc)) fun part l _ _ n => ?_
    rcases Nat.eq_zero_or_pos l.alignment with hzero | hpos
    · rw [hzero]
      exact (align_zero_faults n).mono fun fault h => h ▸ not_false
    · exact (align_faults n hpos).mono hoverflow

/-! ## Typedefs -/

/-- A type of finite depth has a real type. -/
theorem Shallow.exists_realType (hc : t.Complete) {n : Nat} (h : t.Shallow n id)
    (hid : id.index < t.size) : ∃ real, t.RealType id real := by
  induction h with
  | @mk n id _ ih =>
    obtain ⟨info, hi⟩ := exists_info_iff.2 hid
    cases info with
    | typedef d =>
      obtain ⟨next, hr, hlt⟩ := hc.typedef_real hi
      obtain ⟨real, hreal⟩ := ih next (.typedef hi hr) hlt
      exact ⟨real, .follow hi hr hreal⟩
    | _ => exact ⟨id, .self hi nofun⟩

theorem Complete.layout_typedef (hc : t.Complete) {d : Typedef} (hi : t.info id = .ok (.typedef d))
    (hr : d.real = .settled real) : t.layout id = t.layout real := by
  rw [hc.layout_eq hi, layoutBy, Typedef.realId, hr]
  rfl

/-- A typedef has the layout of its real type, or none for the same reason. -/
theorem RealType.layout_eq (h : t.RealType id real) (hc : t.Complete) :
    t.layout id = t.layout real := by
  induction h with
  | self => rfl
  | follow hi hr _ ih => exact (hc.layout_typedef hi hr).trans ih

/-- So has any type where nothing contains itself, and its layout is that of its real type. -/
theorem Acyclic.exists_realType (ha : t.Acyclic) (hc : t.Complete) (hid : id.index < t.size) :
    ∃ real, t.realType id = .ok real ∧ t.layout real = t.layout id := by
  have hshallow := ha.shallow hc hid
  obtain ⟨real, hreal⟩ := hshallow.exists_realType hc hid
  refine ⟨real, ?_, (hreal.layout_eq hc).symm⟩
  rw [realType, realType?, hreal.followTypedefs hshallow.succ]
  rfl

/-! ## What a layout promises -/

/-- The member of a struct or union at a position has this layout and this offset. -/
def MemberAt (t : TypeTable) (c : Composite) (l : Layout) (i : Nat) (sub : Layout)
    (offset : Nat) : Prop :=
  ∃ m part, c.members[i]? = some m ∧ m.type = .settled part ∧ t.layout part = .ok sub ∧
    l.offsets[i]? = some offset

/-- What the layout of a type promises. -/
structure LayoutSound (t : TypeTable) (id : TypeId) (l : Layout) : Prop where
  alignment : IsAlignment l.alignment
  alignment_dvd : l.alignment ∣ l.size
  /-- every member has an offset -/
  length_eq : ∀ c, t.info id = .ok (.composite c) → l.offsets.length = c.members.length
  exists_member : ∀ c i, t.info id = .ok (.composite c) → i < c.members.length →
    ∃ sub offset, t.MemberAt c l i sub offset
  /-- members are aligned and inside -/
  member : ∀ c i sub offset, t.info id = .ok (.composite c) → t.MemberAt c l i sub offset →
    sub.alignment ∣ offset ∧ offset + sub.size ≤ l.size ∧ sub.alignment ∣ l.alignment
  /-- members of structs stand one after another -/
  struct : ∀ c i j sub sub' offset offset', t.info id = .ok (.composite c) → c.kind = .struct →
    i < j → t.MemberAt c l i sub offset → t.MemberAt c l j sub' offset' →
    offset + sub.size ≤ offset'
  /-- members of unions all stand at the beginning -/
  union : ∀ c, t.info id = .ok (.composite c) → c.kind = .union → ∀ o ∈ l.offsets, o = 0
  array : ∀ base length, t.info id = .ok (.array base length) → ∃ element,
    t.layout base = .ok element ∧ l.alignment = element.alignment ∧
    l.size = element.size * (length.map UInt64.toNat).getD 0
  real : ∃ real, t.realType id = .ok real ∧ t.layout real = .ok l

/-- The extent of a member. -/
theorem MemberAt.extent {c : Composite} {i offset : Nat} {extents : List (Nat × Nat)}
    (h : t.MemberAt c l i sub offset)
    (hmeasured : Layout.Measured (memberExtent t.layout) c.members extents) :
    extents[i]? = some (sub.size, sub.alignment) := by
  obtain ⟨m, part, hm, hp, hsub, -⟩ := h
  obtain ⟨e, he, hmeasure⟩ := hmeasured.get hm
  rw [memberExtent_eq hp, hsub] at hmeasure
  obtain rfl := Except.ok.inj hmeasure
  exact he

/-- Layouts keep their promises. -/
theorem Acyclic.layoutSound (ha : t.Acyclic) (hc : t.Complete)
    (hA : ScalarSizes IsAlignment t.profile) (hid : id.index < t.size)
    (h : t.layout id = .ok l) : t.LayoutSound id l := by
  obtain ⟨halign, hdvd⟩ := hc.layoutWithin_alignment hA h
  have hcomposite {c : Composite} (hi : t.info id = .ok (.composite c)) :=
    layoutBy_composite (hc.layout_eq hi ▸ h)
  -- the extents of the members are what the layout was computed from, so each clause is read off
  -- them
  constructor
  case alignment => exact halign
  case alignment_dvd => exact hdvd
  case length_eq =>
    intro c hi
    obtain ⟨extents, hmeasured, hfits, -⟩ := hcomposite hi
    rw [hfits.length_eq, hmeasured.length_eq]
  case exists_member =>
    intro c i hi hlt
    obtain ⟨extents, hmeasured, hfits, -⟩ := hcomposite hi
    have hm := List.getElem?_eq_getElem hlt
    obtain ⟨part, hp, -⟩ := hc.member_type hi (List.mem_of_getElem? hm)
    obtain ⟨sub, hsub⟩ := hc.exists_layout_part h (.member hi (List.mem_of_getElem? hm) hp)
    have hlt' : i < l.offsets.length := by rwa [hfits.length_eq, ← hmeasured.length_eq]
    exact ⟨sub, _, _, part, hm, hp, hsub, List.getElem?_eq_getElem hlt'⟩
  case member =>
    intro c i sub offset hi hm
    obtain ⟨extents, hmeasured, hfits, -⟩ := hcomposite hi
    have he := hm.extent hmeasured
    obtain ⟨m, part, -, -, hsub, ho⟩ := hm
    obtain ⟨hoffset, hinside⟩ := hfits.get he ho
    refine ⟨hoffset, hinside, (hc.layoutWithin_alignment hA hsub).1.dvd halign ?_⟩
    rw [hfits.alignment_eq]
    exact le_largest (f := Prod.snd) (List.mem_of_getElem? he)
  case struct =>
    intro c i j sub sub' offset offset' hi hk hij hm hm'
    obtain ⟨extents, hmeasured, -, hordered, -⟩ := hcomposite hi
    have he := hm.extent hmeasured
    obtain ⟨_, _, -, -, -, ho⟩ := hm
    obtain ⟨_, _, -, -, -, ho'⟩ := hm'
    exact hordered hk hij he ho ho'
  case union =>
    intro c hi hk
    obtain ⟨extents, -, -, -, hzero⟩ := hcomposite hi
    exact hzero hk
  case array =>
    intro base length hi
    rw [hc.layout_eq hi] at h
    obtain ⟨element, he, h⟩ := bind_eq_ok_iff.1 h
    obtain ⟨size, hsize, h⟩ := bind_eq_ok_iff.1 h
    obtain rfl := Except.ok.inj h
    exact ⟨element, he, rfl, (Checked.mul_eq_ok_iff.1 hsize).1.symm⟩
  case real =>
    obtain ⟨real, hr, hl⟩ := ha.exists_realType hc hid
    exact ⟨real, hr, hl.trans h⟩

end Backend386.TypeTable
