import Mathlib.Data.Set.Card
import Backend386.Proofs.Types.Circles

/-!
# What is reported of types that contain themselves

The check of a table reports one error for each circle that it closes. Each of them names a type of
the circle and stands where this type is defined, every type that contains itself does so together
with a type that is named, and there are at most as many errors as types that contain themselves.

* `Diagnostic.isRecursion` — the errors of this kind, told by their wording;
* `TypeTable.Blames` — what an error says of a circle;
* `TypeTable.check_closes` — the check as one walk;
* `TypeTable.recursions_reported` — what the check reports.
-/

namespace Backend386

open Relation (TransGen ReflTransGen)

/-! ## Telling the errors apart -/

/-- An error about a type that contains itself. -/
def Diagnostic.isRecursion (d : Diagnostic) : Bool :=
  "recursive type definition: ".toList.isPrefixOf d.message.toList

theorem isRecursion_recursive (name : String) (location : Option Location) :
    Diagnostic.isRecursion ⟨.error, (TypeError.recursive name).message, location⟩ = true := by
  change List.isPrefixOf _ ("recursive type definition: " ++ name).toList = true
  rw [String.toList_append, List.isPrefixOf_iff_prefix]
  exact List.prefix_append ..

/-- The errors about a struct or union begin with its name. -/
theorem not_isRecursion_composite (c : Composite) (rest : String) (location : Option Location) :
    Diagnostic.isRecursion ⟨.error, c.render ++ rest, location⟩ = false := by
  simp only [Diagnostic.isRecursion, Composite.render, String.toList_append]
  cases c.kind <;> simp [CompositeKind.render, List.isPrefixOf]

theorem not_isRecursion_element :
    Diagnostic.isRecursion ⟨.error, TypeError.voidElement.message, none⟩ = false := by
  change List.isPrefixOf _ ("array cannot contain void").toList = false
  simp [List.isPrefixOf]

/-- Errors of other kinds are appended. -/
def Diagnostics.AddsOther (ds ds' : Diagnostics) : Prop :=
  ∃ found, ds' = ds ++ found ∧ ∀ d ∈ found, d.isRecursion = false

namespace Diagnostics.AddsOther

variable {ds ds' ds'' : Diagnostics}

theorem refl (ds : Diagnostics) : ds.AddsOther ds :=
  ⟨[], by simp, nofun⟩

theorem trans (h : ds.AddsOther ds') (h' : ds'.AddsOther ds'') : ds.AddsOther ds'' := by
  obtain ⟨a, rfl, ha⟩ := h
  obtain ⟨b, rfl, hb⟩ := h'
  exact ⟨a ++ b, List.append_assoc .., List.forall_mem_append.2 ⟨ha, hb⟩⟩

theorem error {location : Option Location} {message : String}
    (h : Diagnostic.isRecursion ⟨.error, message, location⟩ = false) :
    ds.AddsOther (ds.error location message) :=
  ⟨[⟨.error, message, location⟩], rfl, by simpa using h⟩

end Diagnostics.AddsOther

namespace TypeTable

open CycleSearch Diagnostics

variable {t : TypeTable} {s s' : CycleSearch} {path ids : List TypeId} {id : TypeId}
  {circles : List Circle} {ds ds' : Diagnostics}

/-- The findings on void members are no recursions. -/
theorem addsOther_checkVoidMembers {c : Composite} (h : t.checkVoidMembers c ds = .ok ds') :
    ds.AddsOther ds' := by
  unfold checkVoidMembers at h
  generalize c.members = members at h
  induction members generalizing ds with
  | nil =>
    cases h
    exact .refl _
  | cons m ms ih =>
    rw [List.foldlM_cons] at h
    obtain ⟨ds₁, h₁, h⟩ := bind_eq_ok_iff.1 h
    obtain ⟨part, -, h₁⟩ := bind_eq_ok_iff.1 h₁
    obtain ⟨b, -, h₁⟩ := bind_eq_ok_iff.1 h₁
    refine AddsOther.trans ?_ (ih h)
    cases b <;> cases h₁
    · exact .refl _
    · exact .error (not_isRecursion_composite c _ _)

/-- Neither are those on repeated names. -/
theorem addsOther_checkMemberNames (c : Composite) : ds.AddsOther (checkMemberNames c ds) := by
  unfold checkMemberNames
  induction repeatedNames [] (c.members.map (·.name)) generalizing ds with
  | nil => exact .refl _
  | cons n ns ih =>
    rw [List.foldl_cons]
    refine AddsOther.trans (.error ?_) ih
    change Diagnostic.isRecursion ⟨_, c.render ++ " has duplicated member: " ++ n, _⟩ = false
    rw [String.append_assoc]
    exact not_isRecursion_composite c _ _

/-- The check of the parts of a type reports no type that contains itself. -/
theorem addsOther_checkParts (h : t.checkParts id ds = .ok ds') : ds.AddsOther ds' := by
  obtain ⟨info, -, h⟩ := bind_eq_ok_iff.1 h
  cases info with
  | composite c =>
    obtain ⟨ds₁, h₁, h⟩ := bind_eq_ok_iff.1 h
    cases h
    exact (addsOther_checkVoidMembers h₁).trans (addsOther_checkMemberNames c)
  | array base length =>
    obtain ⟨b, -, h⟩ := bind_eq_ok_iff.1 h
    cases b <;> cases h
    · exact .refl _
    · exact .error not_isRecursion_element
  | _ =>
    cases h
    exact .refl _

/-! ## What a walk reports -/

/-- The error for a circle names the type that is blamed, and stands where it is defined. -/
def Blames (t : TypeTable) (c : Circle) (d : Diagnostic) : Prop :=
  ∃ info name, t.info (t.blamed c) = .ok info ∧ info.name? = some name ∧
    d = ⟨.error, (TypeError.recursive name).message, info.location⟩

/-- The name of a struct, a union or a typedef is its own. -/
theorem nameOf_eq {info : TypeInfo} {name : String} (hi : t.info id = .ok info)
    (hn : info.name? = some name) : t.nameOf id = name := by
  obtain ⟨e, he, rfl⟩ := info_eq_ok_iff.1 hi
  obtain ⟨n, hsize⟩ :=
    Nat.exists_eq_succ_of_ne_zero (Nat.ne_of_gt (Nat.zero_lt_of_lt (lt_of_info hi)))
  rw [nameOf, hsize, nameWithin, he]
  cases hinfo : e.info <;> simp_all [TypeInfo.name?]

/-- The report of a circle is one error, which blames a type of it. -/
theorem IsCircle.reportRecursion {c : Circle} (h : t.IsCircle c) (hc : t.Canonical)
    (ds : Diagnostics) :
    ∃ d, t.reportRecursion (t.blamed c) ds = ds ++ [d] ∧ d.isRecursion = true ∧ t.Blames c d := by
  obtain ⟨-, info, name, hinfo, hname⟩ := h.blamed hc
  obtain ⟨e, he, rfl⟩ := info_eq_ok_iff.1 hinfo
  refine ⟨⟨.error, (TypeError.recursive name).message, e.info.location⟩, ?_,
    isRecursion_recursive .., e.info, name, hinfo, hname, rfl⟩
  rw [TypeTable.reportRecursion, he, nameOf_eq hinfo hname]
  rfl

/-- A walk reports the circles that it closes, in order, and no other type that contains itself. -/
theorem Closes.reports (h : t.Closes path s ids s' circles) (hc : t.Canonical)
    (hcircles : ∀ c ∈ circles, t.IsCircle c) :
    ∃ found, s'.diagnostics = s.diagnostics ++ found ∧
      List.Forall₂ t.Blames circles (found.filter Diagnostic.isRecursion) := by
  -- induction on the search: only a circle that it closes is reported
  induction h with
  | @done path s => exact ⟨[], (List.append_nil _).symm, .nil⟩
  | checked hds _ ih =>
    obtain ⟨found, hfound, hblames⟩ := ih hcircles
    -- other findings of the same type are reported first, and none of them is about a recursion
    obtain ⟨other, rfl, hother⟩ := addsOther_checkParts hds
    refine ⟨other ++ found, by rw [hfound, List.append_assoc], ?_⟩
    rwa [List.filter_append, List.filter_eq_nil_iff.2 (by simpa using hother), List.nil_append]
  | seen _ _ ih => exact ih hcircles
  | @closed path ids s s' id circles hm rest ih =>
    obtain ⟨hcircle, hcircles⟩ := List.forall_mem_cons.1 hcircles
    obtain ⟨found, hfound, hblames⟩ := ih hcircles
    obtain ⟨d, hd, hrecursion, hblame⟩ := hcircle.reportRecursion hc s.diagnostics
    have hreport : ((t.blame path s id).setMark id .visited).diagnostics =
        s.diagnostics ++ [d] := hd
    refine ⟨d :: found, by rw [hfound, hreport, List.append_assoc]; rfl, ?_⟩
    rw [List.filter_cons_of_pos hrecursion]
    exact .cons hblame hblames
  | @entered path ids parts s s₁ s' id below circles hm hp inner rest ihInner ihRest =>
    obtain ⟨hbelow, hcircles⟩ := List.forall_mem_append.1 hcircles
    obtain ⟨found₁, hfound₁, hblames₁⟩ := ihInner hbelow
    obtain ⟨found, hfound, hblames⟩ := ihRest hcircles
    refine ⟨found₁ ++ found, ?_, ?_⟩
    · rw [hfound, setMark_diagnostics, hfound₁, setMark_diagnostics, List.append_assoc]
    · rw [List.filter_append]
      exact List.rel_append hblames₁ hblames

/-! ## The whole table -/

theorem fresh_card_le (s : CycleSearch) : s.fresh.card ≤ s.marks.length :=
  (Finset.card_filter_le ..).trans_eq (Finset.card_range _)

/-- The check of one type walks from there, once its parts are checked. -/
theorem Complete.closes_checkType (hc : t.Complete) (hlength : s.marks.length = t.size)
    (hid : id.index < t.size) :
    ∃ s' circles, t.checkType s id = .ok s' ∧ t.Closes [] s [id] s' circles := by
  obtain ⟨ds, hds, -, -⟩ := hc.reports_parts hid s.diagnostics
  have hfresh : ({ s with diagnostics := ds } : CycleSearch).fresh.card < t.size + 1 :=
    Nat.lt_succ_of_le (hlength ▸ fresh_card_le _)
  have hids : ∀ i ∈ [id], i.index < t.size := List.forall_mem_singleton.2 hid
  obtain ⟨s', hs', hwalk⟩ := hc.walk (s := { s with diagnostics := ds }) [] hlength hids hfresh
  obtain ⟨circles, hcloses⟩ := hwalk.exists_closes
  obtain ⟨s₁, hs₁, hs'⟩ := bind_eq_ok_iff.1 hs'
  obtain rfl := Except.ok.inj hs'
  exact ⟨s₁, circles, bind_eq_ok_iff.2 ⟨ds, hds, hs₁⟩, .checked hds hcloses⟩

/-- The check of some types in turn is one walk. -/
theorem Complete.closes (hc : t.Complete) (hids : ∀ id ∈ ids, id.index < t.size)
    (hlength : s.marks.length = t.size) :
    ∃ s' circles, ids.foldlM t.checkType s = .ok s' ∧ t.Closes [] s ids s' circles := by
  induction ids generalizing s with
  | nil => exact ⟨s, [], rfl, .done⟩
  | cons id ids ih =>
    obtain ⟨hid, hids⟩ := List.forall_mem_cons.1 hids
    obtain ⟨s₁, circles₁, hs₁, hcloses₁⟩ := hc.closes_checkType hlength hid
    obtain ⟨s', circles, hs', hcloses⟩ := ih hids ((hcloses₁.later hc).length.trans hlength)
    rw [List.foldlM_cons]
    exact ⟨s', _, bind_eq_ok_iff.2 ⟨s₁, hs₁, hs'⟩, hcloses₁.append hcloses⟩

/-- The state that the check of a table starts in: no type was met. -/
def searchStart (t : TypeTable) (ds : Diagnostics) : CycleSearch where
  marks := List.replicate t.size .unvisited
  diagnostics := ds

/-- The types of a table, in order. -/
def allTypes (t : TypeTable) : List TypeId :=
  (List.range t.size).map TypeId.mk

theorem mem_allTypes : id ∈ t.allTypes ↔ id.index < t.size := by
  cases id
  simp [allTypes]

theorem mark_searchStart (id : TypeId) :
    (t.searchStart ds).mark id = if id.index < t.size then .unvisited else .visited := by
  by_cases h : id.index < t.size <;> simp [searchStart, CycleSearch.mark, h]

/-- The check of a table is one walk to all of its types. -/
theorem Complete.check_closes (hc : t.Complete) (ds : Diagnostics) :
    ∃ s' circles, t.check ds = .ok s'.diagnostics ∧
      t.Closes [] (t.searchStart ds) t.allTypes s' circles := by
  obtain ⟨s', circles, hs', hcloses⟩ := hc.closes (s := t.searchStart ds)
    (fun id hid => mem_allTypes.1 hid) List.length_replicate
  rw [allTypes, List.foldlM_map] at hs'
  exact ⟨s', circles, bind_eq_ok_iff.2 ⟨s', hs', rfl⟩, hcloses⟩

/-- A table has finitely many types that contain themselves. -/
theorem finite_recursive (t : TypeTable) : {id | TransGen t.Contains id id}.Finite := by
  refine (List.finite_toSet t.allTypes).subset fun id hid => ?_
  obtain ⟨part, hpart, -⟩ := TransGen.head'_iff.1 hid
  exact mem_allTypes.2 hpart.lt

/-- **What is reported of types that contain themselves.** In every table whose definitions are
settled the check comes to an end. It closes some circles, and among the errors that it reports
there is one about a type that contains itself for each of them. The type at which a circle closes
is always found on the way to it, and no type closes two circles. The error names a struct, a union
or a typedef that contains itself, at the place of its definition. Every type that contains itself
contains a type that is reported and is contained in it. So there are at most as many of these
errors as types that contain themselves. -/
theorem recursions_reported {profile : WidthProfile} (h : Settled profile t) (ds : Diagnostics) :
    ∃ s' found circles, t.check ds = .ok (ds ++ found) ∧
      t.Closes [] (t.searchStart ds) t.allTypes s' circles ∧
      List.Forall₂ t.Blames circles (found.filter Diagnostic.isRecursion) ∧
      (∀ c ∈ circles, c.closing ∈ c.path ∧
        TransGen t.Contains (t.blamed c) (t.blamed c)) ∧
      (∀ id, TransGen t.Contains id id → ∃ c ∈ circles, t.Component id (t.blamed c)) ∧
      (circles.map (·.closing)).Nodup ∧
      (found.filter Diagnostic.isRecursion).length ≤ {id | TransGen t.Contains id id}.ncard := by
  have hc := h.complete.1
  obtain ⟨s', circles, hcheck, hcloses⟩ := hc.check_closes ds
  have hcircles : ∀ c ∈ circles, t.IsCircle c := by
    refine hcloses.isCircle hc (fun id hid => ?_) fun id _ => .singleton _
    rw [mark_searchStart] at hid
    split at hid <;> cases hid
  have hself {c : Circle} (hmem : c ∈ circles) {id : TypeId} (hid : id ∈ c.types) :
      TransGen t.Contains id id := by
    obtain ⟨hto, hback⟩ := (hcircles c hmem).transGen hid
    exact hback.trans_left hto
  obtain ⟨hnodup, -⟩ := hcloses.closings hc
  obtain ⟨found, hfound, hblames⟩ := hcloses.reports h.canonical hcircles
  refine ⟨s', found, circles, hfound ▸ hcheck, hcloses, hblames,
    fun c hmem => ⟨(hcircles c hmem).mem, hself hmem ((hcircles c hmem).blamed h.canonical).1⟩,
    fun id hid => ?_, hnodup, ?_⟩
  · by_contra hnone
    -- no circle closes at a type that goes round with `id`
    have hother : ∀ c ∈ circles, ¬ t.Component id c.closing := by
      rintro c hmem ⟨hto, hback⟩
      obtain ⟨hto', hback'⟩ :=
        (hcircles c hmem).transGen ((hcircles c hmem).blamed h.canonical).1
      exact hnone ⟨c, hmem, hto.trans hto', hback'.to_reflTransGen.trans hback⟩
    obtain ⟨hgrounded, hvisited⟩ := hcloses.grounded hc hother fun i hi => by
      rw [mark_searchStart] at hi
      split at hi
      · cases hi
      · rename_i hge
        exact .intro _ fun _ hpart => absurd hpart.1.lt hge
    obtain ⟨part, hpart, -⟩ := TransGen.head'_iff.1 hid
    have hgroundedId := hgrounded id (hvisited id (mem_allTypes.2 hpart.lt))
    exact hgroundedId.not_transGen (transGen_component hid)
  · rw [← hblames.length_eq]
    calc circles.length = (circles.map (·.closing)).toFinset.card := by
          rw [List.toFinset_card_of_nodup hnodup, List.length_map]
      _ = ((circles.map (·.closing)).toFinset : Set TypeId).ncard := (Set.ncard_coe_finset _).symm
      _ ≤ {id | TransGen t.Contains id id}.ncard := by
          refine Set.ncard_le_ncard (fun id hid => ?_) t.finite_recursive
          obtain ⟨c, hmem, rfl⟩ := List.mem_map.1 (List.mem_toFinset.1 hid)
          exact hself hmem (hcircles c hmem).closing_mem

/-- A node that contains nodes, through a typedef and an array without a name: the circle closes at
the node and is reported once. -/
theorem recursions_reported_nested :
    ∃ t₀ t s' c, (initial .ilp32).defineAll nestedList = .ok t₀ ∧ t₀.settleDefinitions = .ok t ∧
      t.check [] = .ok [⟨.error, (TypeError.recursive "struct node").message, none⟩] ∧
      t.Closes [] (t.searchStart []) t.allTypes s' [c] ∧ c.closing ∈ c.path ∧
      t.Blames c ⟨.error, (TypeError.recursive "struct node").message, none⟩ ∧
      TransGen t.Contains (t.blamed c) (t.blamed c) := by
  have hok : ((initial .ilp32).defineAll nestedList >>= fun t₀ => t₀.settleDefinitions >>=
      fun t => t.check []) =
      .ok [⟨.error, (TypeError.recursive "struct node").message, none⟩] := rfl
  obtain ⟨t₀, hd, hok⟩ := bind_eq_ok_iff.1 hok
  obtain ⟨t, hs, hok⟩ := bind_eq_ok_iff.1 hok
  obtain ⟨s', found, circles, hcheck, hcloses, hblames, hself, -⟩ :=
    recursions_reported (.settle (Reachable.initial.defineAll hd) hs) []
  obtain rfl : _ = found := Except.ok.inj (hok.symm.trans hcheck)
  rw [List.filter_cons_of_pos (isRecursion_recursive ..)] at hblames
  obtain _ | ⟨hblame, hrest⟩ := hblames
  obtain _ | _ := hrest
  obtain ⟨hmem, htrans⟩ := hself _ List.mem_cons_self
  exact ⟨t₀, t, s', _, hd, hs, hok, hcloses, hmem, hblame, htrans⟩

end TypeTable

end Backend386
