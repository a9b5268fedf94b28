import Backend386.Proofs.Types.TypeLayout

/-!
# The parts of an object

A part of an object is named by a path of members and indices; typedefs on the way are looked
through. Its offset is the sum of the offsets on the way. Every part is aligned and inside the
object, and two parts whose paths split at a struct or at an array stand beside each other.

* `TypeTable.Selects`, `TypeTable.Part` — the type and the offset at the end of a path;
* `TypeTable.Part.inside` — parts are aligned and inside;
* `TypeTable.Split.apart` — parts do not overlap;
* `TypeTable.layout_sound` — all that holds of layouts in checked tables.
-/

namespace Backend386

/-- One step of a path into an object. -/
inductive Selector where
  | member (i : Nat)
  | index (i : Nat)
deriving DecidableEq

namespace TypeTable

open Relation (ReflTransGen)

variable {t t₀ : TypeTable} {id part part' : TypeId} {path path' : List Selector}
  {offset offset' : Nat} {l sub sub' : Layout}

/-- A path leads from a type to the type of a part; indices are in bounds. -/
inductive Selects (t : TypeTable) : TypeId → List Selector → TypeId → Prop where
  | whole {id : TypeId} : Selects t id [] id
  | member {id next part : TypeId} {path : List Selector} {c : Composite} {m : Member} {i : Nat}
    (hi : t.info id = .ok (.composite c)) (hm : c.members[i]? = some m)
    (hn : m.type = .settled next) (rest : Selects t next path part) :
    Selects t id (.member i :: path) part
  | index {base part id : TypeId} {path : List Selector} {length : UInt64} {i : Nat}
    (hi : t.info id = .ok (.array base (some length))) (hlt : i < length.toNat)
    (rest : Selects t base path part) : Selects t id (.index i :: path) part
  | typedef {id real part : TypeId} {path : List Selector} {d : Typedef}
    (hi : t.info id = .ok (.typedef d)) (hr : d.real = .settled real)
    (rest : Selects t real path part) : Selects t id path part

/-- The same, with the offset at which the part begins. -/
inductive Part (t : TypeTable) : TypeId → List Selector → Nat → TypeId → Prop where
  | whole {id : TypeId} : Part t id [] 0 id
  | member {id next part : TypeId} {path : List Selector} {offset : Nat} {c : Composite}
    {m : Member} {i start : Nat} {l : Layout} (hi : t.info id = .ok (.composite c))
    (hm : c.members[i]? = some m) (hn : m.type = .settled next) (hl : t.layout id = .ok l)
    (hs : l.offsets[i]? = some start) (rest : Part t next path offset part) :
    Part t id (.member i :: path) (start + offset) part
  | index {base part id : TypeId} {path : List Selector} {offset : Nat} {length : UInt64}
    {i : Nat} {element : Layout} (hi : t.info id = .ok (.array base (some length)))
    (hlt : i < length.toNat) (he : t.layout base = .ok element)
    (rest : Part t base path offset part) :
    Part t id (.index i :: path) (i * element.size + offset) part
  | typedef {id real part : TypeId} {path : List Selector} {offset : Nat} {d : Typedef}
    (hi : t.info id = .ok (.typedef d)) (hr : d.real = .settled real)
    (rest : Part t real path offset part) : Part t id path offset part

/-- Two paths part at two members of one struct or at two indices of one array. -/
inductive Split (t : TypeTable) : TypeId → List Selector → List Selector → Prop where
  | struct {id : TypeId} {path path' : List Selector} {c : Composite} {i j : Nat}
    (hi : t.info id = .ok (.composite c)) (hk : c.kind = .struct) (hij : i ≠ j) :
    Split t id (.member i :: path) (.member j :: path')
  | array {id base : TypeId} {path path' : List Selector} {length : Option UInt64} {i j : Nat}
    (hi : t.info id = .ok (.array base length)) (hij : i ≠ j) :
    Split t id (.index i :: path) (.index j :: path')
  | member {id next : TypeId} {path path' : List Selector} {c : Composite} {m : Member} {i : Nat}
    (hi : t.info id = .ok (.composite c)) (hm : c.members[i]? = some m)
    (hn : m.type = .settled next) (rest : Split t next path path') :
    Split t id (.member i :: path) (.member i :: path')
  | index {id base : TypeId} {path path' : List Selector} {length : Option UInt64} {i : Nat}
    (hi : t.info id = .ok (.array base length)) (rest : Split t base path path') :
    Split t id (.index i :: path) (.index i :: path')
  | typedef {id real : TypeId} {path path' : List Selector} {d : Typedef}
    (hi : t.info id = .ok (.typedef d)) (hr : d.real = .settled real)
    (rest : Split t real path path') : Split t id path path'

/-- Two pieces of memory have no byte in common. -/
def Apart (offset size offset' size' : Nat) : Prop :=
  offset + size ≤ offset' ∨ offset' + size' ≤ offset

/-! ## Following a path -/

/-- A part of a member lies behind its start. -/
theorem Part.of_member {c : Composite} {i : Nat} (h : t.Part id (.member i :: path) offset part)
    (hi : t.info id = .ok (.composite c)) :
    ∃ m next l start rest, c.members[i]? = some m ∧ m.type = .settled next ∧ t.layout id = .ok l ∧
      l.offsets[i]? = some start ∧ offset = start + rest ∧ t.Part next path rest part := by
  cases h with
  | member hi' hm hn hl hs rest =>
    obtain rfl := TypeInfo.composite.inj (Except.ok.inj (hi.symm.trans hi'))
    exact ⟨_, _, _, _, _, hm, hn, hl, hs, rfl, rest⟩
  | typedef hi' => cases hi.symm.trans hi'

/-- A part of an element lies behind those before it. -/
theorem Part.of_index {base : TypeId} {length : Option UInt64} {i : Nat}
    (h : t.Part id (.index i :: path) offset part) (hi : t.info id = .ok (.array base length)) :
    ∃ element rest, t.layout base = .ok element ∧ offset = i * element.size + rest ∧
      t.Part base path rest part := by
  cases h with
  | index hi' _ he rest =>
    obtain ⟨rfl, -⟩ := TypeInfo.array.inj (Except.ok.inj (hi.symm.trans hi'))
    exact ⟨_, _, he, rfl, rest⟩
  | typedef hi' => cases hi.symm.trans hi'

/-- A typedef has the parts of its real type. -/
theorem Part.of_typedef {d : Typedef} {real : TypeId} (h : t.Part id path offset part)
    (hpath : path ≠ []) (hi : t.info id = .ok (.typedef d)) (hr : d.real = .settled real) :
    t.Part real path offset part := by
  cases h with
  | whole => exact (hpath rfl).elim
  | member hi' => cases hi.symm.trans hi'
  | index hi' => cases hi.symm.trans hi'
  | typedef hi' hr' rest =>
    obtain rfl := TypeInfo.typedef.inj (Except.ok.inj (hi.symm.trans hi'))
    obtain rfl := Deferred.settled.inj (hr.symm.trans hr')
    exact rest

theorem Split.ne_nil (h : t.Split id path path') : path ≠ [] ∧ path' ≠ [] := by
  induction h with
  | typedef _ _ _ ih => exact ih
  | _ => exact ⟨nofun, nofun⟩

section

variable (ha : t.Acyclic) (hc : t.Complete) (hA : ScalarSizes IsAlignment t.profile)

include ha hc hA

/-- Every path has an offset if the whole has a layout. -/
theorem Selects.exists_part (h : t.Selects id path part) (hl : t.layout id = .ok l) :
    ∃ offset, t.Part id path offset part := by
  induction h generalizing l with
  | whole => exact ⟨0, .whole⟩
  | @member id next part path c m i hi hm hn rest ih =>
    have hsound := ha.layoutSound hc hA (lt_of_info hi) hl
    obtain ⟨sub, start, m', next', hm', hn', hsub, hs⟩ :=
      hsound.exists_member c i hi (List.getElem?_eq_some_iff.1 hm).1
    obtain rfl := Option.some.inj (hm.symm.trans hm')
    obtain rfl := Deferred.settled.inj (hn.symm.trans hn')
    obtain ⟨offset, hpart⟩ := ih hsub
    exact ⟨start + offset, .member hi hm hn hl hs hpart⟩
  | @index base part id path length i hi hlt rest ih =>
    obtain ⟨element, he⟩ := hc.exists_layout_part hl (.element hi)
    obtain ⟨offset, hpart⟩ := ih he
    exact ⟨i * element.size + offset, .index hi hlt he hpart⟩
  | typedef hi hr rest ih =>
    obtain ⟨offset, hpart⟩ := ih (hc.layout_typedef hi hr ▸ hl)
    exact ⟨offset, .typedef hi hr hpart⟩

/-- Every part is aligned and inside: alignments divide each other on the way. -/
theorem Part.inside (h : t.Part id path offset part) (hl : t.layout id = .ok l) :
    ∃ sub, t.layout part = .ok sub ∧ sub.alignment ∣ offset ∧ offset + sub.size ≤ l.size ∧
      sub.alignment ∣ l.alignment := by
  -- induction on the way to the part: offsets add up, and each step stays inside the one before
  induction h generalizing l with
  | whole => exact ⟨l, hl, Nat.dvd_zero _, by omega, Nat.dvd_refl _⟩
  | @member id next part path offset c m i start l' hi hm hn hl' hs rest ih =>
    obtain rfl := Except.ok.inj (hl.symm.trans hl')
    obtain ⟨inner, hinner⟩ := hc.exists_layout_part hl (.member hi (List.mem_of_getElem? hm) hn)
    obtain ⟨sub, hsub, hoffset, hinside, halign⟩ := ih hinner
    obtain ⟨hstart, hfits, hdvd⟩ := (ha.layoutSound hc hA (lt_of_info hi) hl).member c i inner start
      hi ⟨m, next, hm, hn, hinner, hs⟩
    exact ⟨sub, hsub, Nat.dvd_add (Nat.dvd_trans halign hstart) hoffset, by omega,
      Nat.dvd_trans halign hdvd⟩
  | @index base part id path offset length i element hi hlt he rest ih =>
    obtain ⟨sub, hsub, hoffset, hinside, halign⟩ := ih he
    obtain ⟨element', he', halignment, hsize⟩ :=
      (ha.layoutSound hc hA (lt_of_info hi) hl).array base (some length) hi
    obtain rfl := Except.ok.inj (he.symm.trans he')
    have helement := (hc.layoutWithin_alignment hA he).2
    have hnext : (i + 1) * element.size ≤ element.size * length.toNat := by
      rw [Nat.mul_comm element.size]
      exact Nat.mul_le_mul_right _ hlt
    rw [Nat.succ_mul] at hnext
    refine ⟨sub, hsub, Nat.dvd_add ?_ hoffset, ?_, halignment ▸ halign⟩
    · exact Nat.dvd_trans (Nat.dvd_trans halign helement) (Nat.dvd_mul_left ..)
    · rw [hsize, Option.map_some, Option.getD_some]
      omega
  | typedef hi hr rest ih => exact ih (hc.layout_typedef hi hr ▸ hl)

/-- Parts of two members of a struct, the first of them before the second. -/
theorem struct_apart {c : Composite} {i j : Nat} (hi : t.info id = .ok (.composite c))
    (hk : c.kind = .struct) (hij : i < j) (h : t.Part id (.member i :: path) offset part)
    (h' : t.Part id (.member j :: path') offset' part') (hsub : t.layout part = .ok sub) :
    offset + sub.size ≤ offset' := by
  obtain ⟨m, next, l, start, rest, hm, hn, hl, hs, rfl, hrest⟩ := h.of_member hi
  obtain ⟨m', next', l', start', rest', hm', hn', hl', hs', rfl, -⟩ := h'.of_member hi
  obtain rfl := Except.ok.inj (hl.symm.trans hl')
  have hsound := ha.layoutSound hc hA (lt_of_info hi) hl
  obtain ⟨inner, hinner⟩ := hc.exists_layout_part hl (.member hi (List.mem_of_getElem? hm) hn)
  obtain ⟨inner', hinner'⟩ :=
    hc.exists_layout_part hl (.member hi (List.mem_of_getElem? hm') hn')
  have hordered := hsound.struct c i j inner inner' start start' hi hk hij
    ⟨m, next, hm, hn, hinner, hs⟩ ⟨m', next', hm', hn', hinner', hs'⟩
  obtain ⟨sub', hsub', -, hinside, -⟩ := hrest.inside ha hc hA hinner
  obtain rfl := Except.ok.inj (hsub.symm.trans hsub')
  omega

/-- Parts of two elements of an array, the first of them before the second. -/
theorem array_apart {base : TypeId} {length : Option UInt64} {i j : Nat}
    (hi : t.info id = .ok (.array base length)) (hij : i < j)
    (h : t.Part id (.index i :: path) offset part)
    (h' : t.Part id (.index j :: path') offset' part') (hsub : t.layout part = .ok sub) :
    offset + sub.size ≤ offset' := by
  obtain ⟨element, rest, he, rfl, hrest⟩ := h.of_index hi
  obtain ⟨element', rest', he', rfl, -⟩ := h'.of_index hi
  obtain rfl := Except.ok.inj (he.symm.trans he')
  obtain ⟨sub', hsub', -, hinside, -⟩ := hrest.inside ha hc hA he
  obtain rfl := Except.ok.inj (hsub.symm.trans hsub')
  have hnext : (i + 1) * element.size ≤ j * element.size := Nat.mul_le_mul_right _ hij
  rw [Nat.succ_mul] at hnext
  omega

/-- Parts whose paths split do not overlap. -/
theorem Split.apart (hsplit : t.Split id path path') (h : t.Part id path offset part)
    (h' : t.Part id path' offset' part') (hsub : t.layout part = .ok sub)
    (hsub' : t.layout part' = .ok sub') : Apart offset sub.size offset' sub'.size := by
  -- the ways are split at a struct or an array; above it, both offsets are moved alike
  induction hsplit generalizing offset offset' with
  | struct hi hk hij =>
    rcases Nat.lt_or_gt_of_ne hij with hij | hij
    · exact .inl (struct_apart ha hc hA hi hk hij h h' hsub)
    · exact .inr (struct_apart ha hc hA hi hk hij h' h hsub')
  | array hi hij =>
    rcases Nat.lt_or_gt_of_ne hij with hij | hij
    · exact .inl (array_apart ha hc hA hi hij h h' hsub)
    · exact .inr (array_apart ha hc hA hi hij h' h hsub')
  | member hi hm hn _ ih =>
    obtain ⟨m, next, l, start, rest, hm₁, hn₁, hl, hs, rfl, hrest⟩ := h.of_member hi
    obtain ⟨m', next', l', start', rest', hm₂, hn₂, hl', hs', rfl, hrest'⟩ := h'.of_member hi
    obtain rfl := Option.some.inj (hm.symm.trans hm₁)
    obtain rfl := Option.some.inj (hm.symm.trans hm₂)
    obtain rfl := Deferred.settled.inj (hn.symm.trans hn₁)
    obtain rfl := Deferred.settled.inj (hn.symm.trans hn₂)
    obtain rfl := Except.ok.inj (hl.symm.trans hl')
    obtain rfl := Option.some.inj (hs.symm.trans hs')
    have := ih hrest hrest'
    unfold Apart at *
    omega
  | index hi _ ih =>
    obtain ⟨element, rest, he, rfl, hrest⟩ := h.of_index hi
    obtain ⟨element', rest', he', rfl, hrest'⟩ := h'.of_index hi
    obtain rfl := Except.ok.inj (he.symm.trans he')
    have := ih hrest hrest'
    unfold Apart at *
    omega
  | typedef hi hr hsplit ih =>
    obtain ⟨hpath, hpath'⟩ := hsplit.ne_nil
    exact ih (h.of_typedef hpath hi hr) (h'.of_typedef hpath' hi hr)

end

/-- Layouts in a table that passed the check, and in which types may have been looked up since.

* A type in which a function is found has no layout.
* Any other type has one, which keeps its promises, unless a size leaves the 64 bit range.
* All parts of a type that has a layout are inside and aligned, and parts do not overlap if their
  paths split at a struct or at an array. -/
theorem layout_sound {profile : WidthProfile} {ds ds' : Diagnostics}
    (hprofile : profile ∈ WidthProfile.all) (h₀ : Settled profile t₀)
    (hcheck : t₀.check ds = .ok ds') (hquiet : ds'.errorCount = ds.errorCount)
    (hlater : ReflTransGen Interns t₀ t) (hid : id.index < t.size) :
    (t.ReachesFunction id → ∃ fault, t.layout id = .error fault ∧
      (fault = .sizelessFunction ∨ fault.IsOverflow)) ∧
    (¬ t.ReachesFunction id → (∃ fault, t.layout id = .error fault ∧ fault.IsOverflow) ∨
      ∃ l, t.layout id = .ok l ∧ t.LayoutSound id l) ∧
    ∀ l, t.layout id = .ok l →
      (∀ path part, t.Selects id path part → ∃ offset, t.Part id path offset part) ∧
      (∀ path offset part, t.Part id path offset part → ∃ sub, t.layout part = .ok sub ∧
        sub.alignment ∣ offset ∧ offset + sub.size ≤ l.size) ∧
      ∀ path path' offset offset' part part' sub sub', t.Split id path path' →
        t.Part id path offset part → t.Part id path' offset' part' →
        t.layout part = .ok sub → t.layout part' = .ok sub' →
        Apart offset sub.size offset' sub'.size := by
  obtain ⟨hc₀, hprofile₀⟩ := h₀.complete
  have hext := extends_of_interns hlater
  have hc := hc₀.of_extends hext
  have ha := (hc₀.sound_of_check hcheck hquiet).acyclic.of_extends hext hc₀
  have hA : ScalarSizes IsAlignment t.profile := by
    rw [hext.profile, hprofile₀]
    exact scalarSizes hprofile
  -- a function inside by value has no size; else the sum overflows, or the layout is sound
  refine ⟨fun hreach => ?_, fun hreach => ?_, fun l hl => ⟨?_, ?_, ?_⟩⟩
  · cases hl : t.layout id with
    | ok l => exact (hc.not_reachesFunction hl hreach).elim
    | error fault =>
      have hfaults : FaultsIn (fun f => f = .sizelessFunction ∨ f.IsOverflow) (t.layout id) :=
        ha.layout_faults hc hA (fun _ => .inr) (fun _ => .inl rfl) hid
      exact ⟨fault, rfl, hfaults fault hl⟩
  · cases hl : t.layout id with
    | ok l => exact .inr ⟨l, rfl, ha.layoutSound hc hA hid hl⟩
    | error fault =>
      have hfaults : FaultsIn Fault.IsOverflow (t.layout id) :=
        ha.layout_faults hc hA (fun _ h => h) (absurd · hreach) hid
      exact .inl ⟨fault, rfl, hfaults fault hl⟩
  · exact fun path part h => h.exists_part ha hc hA hl
  · intro path offset part h
    obtain ⟨sub, hsub, hdvd, hinside, -⟩ := h.inside ha hc hA hl
    exact ⟨sub, hsub, hdvd, hinside⟩
  · exact fun path path' offset offset' part part' sub sub' hsplit h h' =>
      hsplit.apart ha hc hA h h'

/-- Three list nodes, looked up after the check. -/
theorem layout_sound_nodes : ∃ t₀ t₁ t id, (initial .ilp32).defineAll linkedList = .ok t₀ ∧
    t₀.settleDefinitions = .ok t₁ ∧ t₁.intern (.array (.struct "node") (some 3)) = .ok (t, id) ∧
    t.LayoutSound id ⟨24, 4, []⟩ := by
  have hok : ((initial .ilp32).defineAll linkedList >>= fun t₀ => t₀.settleDefinitions >>=
      fun t₁ => t₁.check [] >>= fun ds => t₁.intern (.array (.struct "node") (some 3)) >>=
        fun r => r.1.layout r.2 >>= fun l => .ok (ds, l)) = .ok ([], ⟨24, 4, []⟩) := rfl
  obtain ⟨t₀, hd, hok⟩ := bind_eq_ok_iff.1 hok
  obtain ⟨t₁, hs, hok⟩ := bind_eq_ok_iff.1 hok
  obtain ⟨ds, hcheck, hok⟩ := bind_eq_ok_iff.1 hok
  obtain ⟨⟨t, id⟩, hi, hok⟩ := bind_eq_ok_iff.1 hok
  obtain ⟨l, hl, hok⟩ := bind_eq_ok_iff.1 hok
  obtain ⟨rfl, rfl⟩ := Prod.mk.inj (Except.ok.inj hok)
  obtain ⟨hfunction, hlayout, -⟩ := layout_sound (by decide)
    (.settle (Reachable.initial.defineAll hd) hs) hcheck rfl (.single ⟨_, _, hi⟩)
    (intern_extends hi).2
  have hnone : ¬ t.ReachesFunction id := by
    intro hreach
    obtain ⟨fault, hfault, -⟩ := hfunction hreach
    cases hl.symm.trans hfault
  rcases hlayout hnone with ⟨fault, hfault, -⟩ | ⟨l, hl', hsound⟩
  · cases hl.symm.trans hfault
  · obtain rfl := Except.ok.inj (hl.symm.trans hl')
    exact ⟨t₀, t₁, t, id, hd, hs, hi, hsound⟩

end TypeTable

end Backend386
