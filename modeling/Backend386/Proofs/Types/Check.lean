import Backend386.Proofs.Types.Search

/-!
# The type check is sound and complete

The check reports nothing exactly if no member and no element is void, the members of every struct
and union have distinct names, and no type contains itself.

* `Reports` — errors are appended, and none exactly if a condition holds;
* `TypeTable.Complete.reports_parts` — the check of the parts of one type;
* `TypeTable.Sound` — the conditions on a table;
* `TypeTable.check_reports_iff` — the check as a whole.
-/

namespace Backend386

/-! ## Reports -/

/-- A check appends errors, and none exactly if a condition holds. -/
def Reports (check : Diagnostics → Except Fault Diagnostics) (condition : Prop) : Prop :=
  ∀ ds, ∃ ds', check ds = .ok ds' ∧ ds.Adds ds' ∧ (ds' = ds ↔ condition)

namespace Reports

variable {f g : Diagnostics → Except Fault Diagnostics} {p q : Prop}

theorem nothing : Reports .ok True :=
  fun ds => ⟨ds, rfl, .refl ds, by simp⟩

theorem congr (h : Reports f p) (hpq : p ↔ q) : Reports f q := by
  rwa [propext hpq] at h

/-- One check after the other. -/
theorem bind (hf : Reports f p) (hg : Reports g q) : Reports (fun ds => f ds >>= g) (p ∧ q) := by
  intro ds
  obtain ⟨ds₁, h₁, ha₁, hp⟩ := hf ds
  obtain ⟨ds₂, h₂, ha₂, hq⟩ := hg ds₁
  refine ⟨ds₂, bind_eq_ok_iff.2 ⟨ds₁, h₁, h₂⟩, ha₁.trans ha₂, fun h => ?_, fun h => ?_⟩
  · subst h
    obtain rfl := ha₁.squeeze ha₂
    exact ⟨hp.1 rfl, hq.1 rfl⟩
  · exact (hq.2 h.2).trans (hp.2 h.1)

/-- One check for each element of a list. -/
theorem foldlM {α : Type} {check : Diagnostics → α → Except Fault Diagnostics} {P : α → Prop}
    {l : List α} (h : ∀ a ∈ l, Reports (check · a) (P a)) :
    Reports (l.foldlM check) (∀ a ∈ l, P a) := by
  induction l with
  | nil => exact nothing.congr (by simp)
  | cons a l ih =>
    have hrest := ih fun a ha => h a (by simp [ha])
    refine ((h a (by simp)).bind hrest).congr ?_
    simp

/-- A single error, unless a test fails. -/
theorem error (b : Bool) (location : Option Location) (message : String) :
    Reports (fun ds => if b then .ok (ds.error location message) else .ok ds) (b = false) := by
  intro ds
  cases b with
  | true => exact ⟨_, rfl, .error .., by simp [ds.error_ne]⟩
  | false => exact ⟨ds, rfl, .refl ds, by simp⟩

end Reports

namespace TypeTable

variable {t : TypeTable} {id part real : TypeId} {s s' s₁ : CycleSearch}

/-! ## Parts -/

/-- The real type of a part is void. -/
def IsVoid (t : TypeTable) (id : TypeId) : Prop :=
  ∃ real, t.RealType id real ∧ t.info real = .ok .void

/-- A part is found to be void only if it is. -/
theorem Complete.isVoidPart (hc : t.Complete) (hid : id.index < t.size) :
    ∃ b, t.isVoidPart id = .ok b ∧ (b = true → t.IsVoid id) := by
  obtain ⟨found, hf⟩ := hc.followTypedefs (t.size + 1) hid
  rw [TypeTable.isVoidPart, realType?, hf]
  cases found with
  | none => exact ⟨false, rfl, nofun⟩
  | some real =>
    have hreal := realType_of_followTypedefs hf
    obtain ⟨info, hi, -⟩ := hreal.exists_info
    simp only [bind, Except.bind, hi]
    cases info with
    | void => exact ⟨true, rfl, fun _ => ⟨real, hreal, hi⟩⟩
    | _ => exact ⟨false, rfl, nofun⟩

/-- Where no type contains itself, a void part is found. -/
theorem IsVoid.isVoidPart (h : t.IsVoid id) (hc : t.Complete) (ha : t.Acyclic)
    (hid : id.index < t.size) : t.isVoidPart id = .ok true := by
  obtain ⟨real, hreal, hi⟩ := h
  rw [TypeTable.isVoidPart, realType?, hreal.followTypedefs (ha.shallow hc hid).succ]
  simp only [bind, Except.bind, hi]
  rfl

/-- The parts that must not be void: the members and the elements. -/
inductive Holds (t : TypeTable) (id : TypeId) : TypeId → Prop where
  | member {c : Composite} {m : Member} {part : TypeId} (h : t.info id = .ok (.composite c))
    (hm : m ∈ c.members) (ht : m.type = .settled part) : Holds t id part
  | element {base : TypeId} {length : Option UInt64} (h : t.info id = .ok (.array base length)) :
    Holds t id base

theorem Holds.contains (h : t.Holds id part) : t.Contains id part := by
  cases h with
  | member h hm ht => exact .member h hm ht
  | element h => exact .element h

/-- No name is repeated if all are distinct, and none has been seen before. -/
theorem repeatedNames_eq_nil {seen names : List String} :
    repeatedNames seen names = [] ↔ names.Nodup ∧ ∀ n ∈ names, n ∉ seen := by
  induction names generalizing seen with
  | nil => simp [repeatedNames]
  | cons n ns ih =>
    rw [repeatedNames]
    split
    · next h => simp [h]
    · next h =>
      rw [ih, List.nodup_cons]
      constructor
      · rintro ⟨hn, hseen⟩
        refine ⟨⟨fun hmem => hseen n hmem (by simp), hn⟩, fun m hm => ?_⟩
        rcases List.mem_cons.1 hm with rfl | hm
        · exact h
        · exact fun hs => hseen m hm (List.mem_cons_of_mem _ hs)
      · rintro ⟨⟨hmem, hn⟩, hseen⟩
        refine ⟨hn, fun m hm hs => ?_⟩
        rcases List.mem_cons.1 hs with rfl | hs
        · exact hmem hm
        · exact hseen m (List.mem_cons_of_mem _ hm) hs

/-- One report for each name that is repeated. -/
theorem reports_memberNames (c : Composite) :
    Reports (fun ds => .ok (checkMemberNames c ds)) (c.members.map (·.name)).Nodup := by
  let names := repeatedNames [] (c.members.map (·.name))
  let check (ds : Diagnostics) (n : String) : Except Fault Diagnostics :=
    .ok (ds.error c.location (TypeError.duplicateMember c.render n).message)
  have hcheck (ds : Diagnostics) : names.foldlM check ds = .ok (checkMemberNames c ds) := by
    exact List.foldlM_pure ..
  have hreports : Reports (names.foldlM check) (∀ n ∈ names, true = false) :=
    .foldlM fun n _ => Reports.error true c.location (TypeError.duplicateMember c.render n).message
  rw [funext hcheck] at hreports
  refine hreports.congr ?_
  have hnil : names = [] ↔ (c.members.map (·.name)).Nodup := by
    rw [repeatedNames_eq_nil]
    simp
  rw [← hnil, List.eq_nil_iff_forall_not_mem]
  simp

/-- One report for each void member. -/
theorem Complete.reports_voidMembers (hc : t.Complete) {c : Composite}
    (hi : t.info id = .ok (.composite c)) :
    Reports (t.checkVoidMembers c)
      (∀ m ∈ c.members, ∀ part, m.type = .settled part → t.isVoidPart part = .ok false) := by
  refine .foldlM fun m hm => ?_
  obtain ⟨part, ht, hlt⟩ := hc.member_type hi hm
  obtain ⟨b, hb, -⟩ := hc.isVoidPart hlt
  have herror := Reports.error b c.location (TypeError.voidMember c.render).message
  refine Reports.congr (p := b = false) ?_ ?_
  · simp only [Member.typeId, ht, Deferred.get_settled, bind, Except.bind, hb]
    exact herror
  · simp [ht, hb]

/-- Nothing is found to be wrong with the parts of a type. -/
def PartsPass (t : TypeTable) (id : TypeId) : Prop :=
  (∀ part, t.Holds id part → t.isVoidPart part = .ok false) ∧
    ∀ c, t.info id = .ok (.composite c) → (c.members.map (·.name)).Nodup

/-- What is wrong with the parts of a type is reported, and nothing else. -/
theorem Complete.reports_parts (hc : t.Complete) (hid : id.index < t.size) :
    Reports (t.checkParts id) (t.PartsPass id) := by
  obtain ⟨info, hi⟩ := exists_info_iff.2 hid
  unfold checkParts PartsPass
  simp only [hi]
  -- only composites and arrays have parts of their own that are checked
  cases info with
  | composite c =>
    refine ((hc.reports_voidMembers hi).bind (reports_memberNames c)).congr
      (and_congr ⟨?_, ?_⟩ ⟨?_, ?_⟩)
    · intro h part hp
      cases hp with
      | member h' hm ht =>
        obtain rfl := TypeInfo.composite.inj (Except.ok.inj (hi.symm.trans h'))
        exact h _ hm _ ht
      | element h' => cases hi.symm.trans h'
    · exact fun h m hm part ht => h part (.member hi hm ht)
    · intro h c' h'
      obtain rfl := TypeInfo.composite.inj (Except.ok.inj h')
      exact h
    · exact fun h => h c rfl
  | array base length =>
    obtain ⟨b, hb, -⟩ := hc.isVoidPart (hc.element_lt hi)
    have herror := Reports.error b none TypeError.voidElement.message
    refine Reports.congr (p := b = false) ?_ ⟨fun h => ⟨fun part hp => ?_, nofun⟩, fun h => ?_⟩
    · simp only [bind, Except.bind, hb]
      exact herror
    · cases hp with
      | member h' => cases hi.symm.trans h'
      | element h' =>
        obtain ⟨rfl, -⟩ := TypeInfo.array.inj (Except.ok.inj (hi.symm.trans h'))
        exact h ▸ hb
    · exact Except.ok.inj (hb.symm.trans (h.1 base (.element hi)))
  -- nothing is reported of any other type, and there is nothing to be reported
  | _ =>
    refine Reports.nothing.congr (iff_of_true trivial ⟨fun part hp => ?_, nofun⟩)
    cases hp with
    | member h => cases hi.symm.trans h
    | element h => cases hi.symm.trans h

/-! ## The whole table -/

/-- The conditions on a table: no member and no element is void, members have distinct names, and
no type contains itself. -/
structure Sound (t : TypeTable) : Prop where
  parts : ∀ id part real, t.Holds id part → t.RealType part real → t.info real ≠ .ok .void
  names : ∀ id c, t.info id = .ok (.composite c) → (c.members.map (·.name)).Nodup
  acyclic : t.Acyclic

/-- The parts of a type pass where the table is sound. -/
theorem Sound.partsPass (h : t.Sound) (hc : t.Complete) (id : TypeId) : t.PartsPass id := by
  refine ⟨fun part hpart => ?_, h.names id⟩
  obtain ⟨b, hb, hvoid⟩ := hc.isVoidPart (hpart.contains.part_lt hc)
  cases b with
  | false => exact hb
  | true =>
    obtain ⟨real, hreal, hi⟩ := hvoid rfl
    exact (h.parts id part real hpart hreal hi).elim

/-- The void parts are found in an acyclic table. -/
theorem Acyclic.sound (ha : t.Acyclic) (hc : t.Complete)
    (h : ∀ id : TypeId, id.index < t.size → t.PartsPass id) : t.Sound where
  parts := by
    intro id part real hpart hreal hi
    have hpass := (h id hpart.contains.lt).1 part hpart
    have hvoid : t.IsVoid part := ⟨real, hreal, hi⟩
    rw [hvoid.isVoidPart hc ha (hpart.contains.part_lt hc)] at hpass
    cases hpass
  names := fun id c hi => (h id (lt_of_info hi)).2 c hi
  acyclic := ha

/-- The check of one type: of its parts, and then a walk that starts there. -/
theorem Complete.checkType (hc : t.Complete) (hlength : s.marks.length = t.size)
    (hid : id.index < t.size) :
    ∃ ds s', t.checkType s id = .ok s' ∧ s.diagnostics.Adds ds ∧
      (ds = s.diagnostics ↔ t.PartsPass id) ∧
      t.Walk [] { s with diagnostics := ds } [id] s' := by
  obtain ⟨ds, hds, hadds, hpass⟩ := hc.reports_parts hid s.diagnostics
  let s₁ : CycleSearch := { s with diagnostics := ds }
  have hfresh : s₁.fresh.card < t.size + 1 := by
    have hle : s₁.fresh.card ≤ (Finset.range s₁.marks.length).card := Finset.card_filter_le ..
    rw [Finset.card_range, show s₁.marks.length = t.size from hlength] at hle
    exact Nat.lt_succ_of_le hle
  have hids : ∀ i ∈ [id], i.index < t.size := by simpa using hid
  obtain ⟨s', hs', hwalk⟩ := hc.walk (s := s₁) [] hlength hids hfresh
  refine ⟨ds, s', bind_eq_ok_iff.2 ⟨ds, hds, ?_⟩, hadds, hpass, hwalk⟩
  obtain ⟨s₂, hs₂, h⟩ := bind_eq_ok_iff.1 hs'
  exact hs₂.trans h

/-- The check of some types in turn, between which none is being visited. -/
theorem Complete.checkTypes (hc : t.Complete) {ids : List TypeId}
    (hids : ∀ id ∈ ids, id.index < t.size) (hlength : s.marks.length = t.size)
    (hidle : ∀ id, s.mark id ≠ .visiting) :
    ∃ s', ids.foldlM t.checkType s = .ok s' ∧ s.Later s' ∧
      (s'.diagnostics = s.diagnostics → t.VisitedGrounded s →
        t.VisitedGrounded s' ∧ ∀ id ∈ ids, s'.mark id = .visited ∧ t.PartsPass id) ∧
      (t.Acyclic → (∀ id ∈ ids, t.PartsPass id) → s'.diagnostics = s.diagnostics) := by
  -- induction on the types that are left; the marks of the first search are those of the next one
  induction ids generalizing s with
  | nil => exact ⟨s, rfl, .refl s, fun _ hs => ⟨hs, by simp⟩, fun _ _ => rfl⟩
  | cons id ids ih =>
    obtain ⟨ds, s₁, hs₁, hadds, hpass, hwalk⟩ := hc.checkType hlength (hids id (by simp))
    have hparts : s.Later { s with diagnostics := ds } :=
      ⟨rfl, fun _ h => h, fun _ h => h, hadds⟩
    have hlater : s.Later s₁ := hparts.trans hwalk.later
    obtain ⟨s', hs', hlater', hfound, hquiet⟩ := ih (s := s₁) (fun i hi => hids i (by simp [hi]))
      (hlater.length.trans hlength) fun i hi => hidle i (hlater.visiting i hi)
    refine ⟨s', ?_, hlater.trans hlater', fun heq hs => ?_, fun ha hparts => ?_⟩
    · rw [List.foldlM_cons]
      exact bind_eq_ok_iff.2 ⟨s₁, hs₁, hs'⟩
    -- with no findings in the end, neither the parts nor the search have added any
    · have hquiet₁ : s₁.diagnostics = s.diagnostics :=
        hlater.diagnostics.squeeze (heq ▸ hlater'.diagnostics)
      have hds : ds = s.diagnostics := by
        refine hadds.squeeze ?_
        rw [← hquiet₁]
        exact hwalk.later.diagnostics
      obtain ⟨hs₁, hmarked⟩ := hwalk.grounded hc (hquiet₁.trans hds.symm) hs
      obtain ⟨hs', hrest⟩ := hfound (heq.trans hquiet₁.symm) hs₁
      refine ⟨hs', fun i hi => ?_⟩
      rcases List.mem_cons.1 hi with rfl | hi
      · exact ⟨hlater'.visited (hmarked i (by simp)), hpass.1 hds⟩
      · exact hrest i hi
    · have hrest := hquiet ha fun i hi => hparts i (by simp [hi])
      have hfirst := hwalk.quiet hc ha fun i hi => absurd hi (hidle i)
      exact hrest.trans (hfirst.trans (hpass.2 (hparts id (by simp))))

/-- The check of all types starts with nothing visited. -/
theorem Complete.reports_check (hc : t.Complete) : Reports t.check t.Sound := by
  intro ds
  let start : CycleSearch := ⟨List.replicate t.size .unvisited, ds⟩
  have hlength : start.marks.length = t.size := List.length_replicate
  have hstart (id : TypeId) (hid : id.index < t.size) : start.mark id = .unvisited := by
    simp [start, CycleSearch.mark, hid]
  -- every type of the table is unvisited at first, and there is nothing beyond the table
  have hbeyond (id : TypeId) (hid : t.size ≤ id.index) : start.mark id = .visited := by
    by_contra hm
    exact absurd (CycleSearch.lt_of_mark hm) (by rw [hlength]; exact not_lt.2 hid)
  have hidle (id : TypeId) : start.mark id ≠ .visiting := by
    rcases lt_or_ge id.index t.size with hid | hid
    · simp [hstart id hid]
    · simp [hbeyond id hid]
  have hgrounded : t.VisitedGrounded start := by
    intro id hm
    refine grounded_of_le (not_lt.1 fun hid => ?_)
    simp [hstart id hid] at hm
  let ids : List TypeId := (List.range t.size).map TypeId.mk
  have hmem (id : TypeId) : id ∈ ids ↔ id.index < t.size := by
    cases id
    simp [ids]
  obtain ⟨s', hs', hlater, hfound, hquiet⟩ :=
    hc.checkTypes (fun id hid => (hmem id).1 hid) hlength hidle
  refine ⟨s'.diagnostics, ?_, hlater.diagnostics, fun heq => ?_, fun hsound => ?_⟩
  · rw [List.foldlM_map] at hs'
    exact bind_eq_ok_iff.2 ⟨s', hs', rfl⟩
  -- all types are visited in the end and grounded with it, so there is no circle
  · obtain ⟨hs', hall⟩ := hfound heq hgrounded
    have ha : t.Acyclic := acyclic_of_grounded fun id hid =>
      hs' id (hall id ((hmem id).2 hid)).1
    exact ha.sound hc fun id hid => (hall id ((hmem id).2 hid)).2
  · exact hquiet hsound.acyclic fun id _ => hsound.partsPass hc id

/-- The check adds findings, and no errors exactly where the table is sound. -/
theorem Complete.check_reports (hc : t.Complete) (ds : Diagnostics) :
    ∃ found, t.check ds = .ok (ds ++ found) ∧ (found.hasErrors = false ↔ t.Sound) := by
  obtain ⟨_, hcheck, ⟨found, rfl, herrors⟩, hnone⟩ := hc.reports_check ds
  refine ⟨found, hcheck, Iff.trans ?_ hnone⟩
  rw [Diagnostics.hasErrors, Diagnostics.errorCount, Diagnostics.errors,
    List.filter_eq_self.2 (by simpa using herrors)]
  simp

/-- A table in which the check finds no error is sound. -/
theorem Complete.sound_of_check (hc : t.Complete) {ds ds' : Diagnostics}
    (h : t.check ds = .ok ds') (hquiet : ds'.errorCount = ds.errorCount) : t.Sound := by
  obtain ⟨found, hfound, hiff⟩ := hc.check_reports ds
  obtain rfl := Except.ok.inj (h.symm.trans hfound)
  refine hiff.1 ?_
  simpa [Diagnostics.hasErrors, Diagnostics.errorCount, Diagnostics.errors] using hquiet

/-- The check comes to an end without a fault, and what it reports are errors: none exactly if no
member and no element is void, members have distinct names and no type contains itself. -/
theorem check_reports_iff {profile : WidthProfile} (h : Settled profile t) (ds : Diagnostics) :
    ∃ found, t.check ds = .ok (ds ++ found) ∧ (found.hasErrors = false ↔ t.Sound) :=
  h.complete.1.check_reports ds

/-- A list node that refers to the next one by a name, and the type of that name. -/
def listDefinitions (name : String) (next : TypeRef) : List TypeDefinition :=
  let members : List MemberDecl :=
    [{ name := "value", type := .integer .int true }, { name := "next", type := .typedef name }]
  [.composite .struct "node" members none, .typedef name next none]

/-- The next node is behind a pointer, which does not contain it. -/
def linkedList : List TypeDefinition :=
  listDefinitions "link" (.pointer (.struct "node"))

/-- The next nodes are part of the node. -/
def nestedList : List TypeDefinition :=
  listDefinitions "pair" (.array (.struct "node") (some 2))

/-- Nodes that are linked are sound, and nodes that are nested in each other are not. -/
theorem check_reports_iff_lists :
    (∃ t₀ t, (initial .ilp32).defineAll linkedList = .ok t₀ ∧ t₀.settleDefinitions = .ok t ∧
      t.Sound) ∧
    ∃ t₀ t, (initial .ilp32).defineAll nestedList = .ok t₀ ∧ t₀.settleDefinitions = .ok t ∧
      ¬ t.Sound := by
  constructor
  · have hok : ((initial .ilp32).defineAll linkedList >>= fun t₀ => t₀.settleDefinitions >>=
        fun t => t.check []) = .ok [] := rfl
    obtain ⟨t₀, hd, hok⟩ := bind_eq_ok_iff.1 hok
    obtain ⟨t, hs, hok⟩ := bind_eq_ok_iff.1 hok
    obtain ⟨found, hfound, hiff⟩ :=
      check_reports_iff (.settle (Reachable.initial.defineAll hd) hs) []
    obtain rfl : [] = found := Except.ok.inj (hok.symm.trans hfound)
    exact ⟨t₀, t, hd, hs, hiff.1 rfl⟩
  · have hok : ((initial .ilp32).defineAll nestedList >>= fun t₀ => t₀.settleDefinitions >>=
        fun t => t.check []) =
        .ok [⟨.error, (TypeError.recursive "struct node").message, none⟩] := rfl
    obtain ⟨t₀, hd, hok⟩ := bind_eq_ok_iff.1 hok
    obtain ⟨t, hs, hok⟩ := bind_eq_ok_iff.1 hok
    obtain ⟨found, hfound, hiff⟩ :=
      check_reports_iff (.settle (Reachable.initial.defineAll hd) hs) []
    obtain rfl := Except.ok.inj (hok.symm.trans hfound)
    exact ⟨t₀, t, hd, hs, fun hsound => nomatch hiff.2 hsound⟩

end TypeTable

end Backend386
