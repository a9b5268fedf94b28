import Mathlib.Data.List.Chain
import Mathlib.Data.List.TakeWhile
import Backend386.Proofs.Types.Check
import Backend386.Proofs.Types.TableSteps

/-!
# The circles that the search closes

The search closes a circle where it meets a type again that is still being visited. Such a type is
on the way that the search has gone, and the rest of the way leads from it back to it. No type
closes two circles, because it counts as visited once it has closed one. And no circle of types is
missed altogether, though marks are shared by all walks: as long as no member of a set of types
closes a circle, whatever is visited has only visited parts in the set, so that nothing in it goes
round.

* `Circle`, `TypeTable.Closes` — the circles that a walk closes, in order;
* `TypeTable.Closes.isCircle` — they are circles;
* `TypeTable.Closes.closings` — each closes at a type of its own;
* `TypeTable.Closes.grounded` — a set of types in which none closes a circle has none;
* `TypeTable.IsCircle.named` — every circle has a member with a name, which is blamed.
-/

namespace Backend386

open Relation (TransGen ReflTransGen)

/-- The search has met a type that is still being visited. -/
structure Circle where
  /-- the way that led to the type -/
  path : List TypeId
  /-- the type that was met again -/
  closing : TypeId

/-- The types of a circle: the part of the way that begins with the type that was met again. -/
def Circle.types (c : Circle) : List TypeId :=
  c.path.dropWhile (· ≠ c.closing)

namespace TypeTable

open CycleSearch

variable {t : TypeTable} {s s' : CycleSearch} {path ids : List TypeId} {id part : TypeId}
  {c : Circle} {circles : List Circle}

/-! ## Walks and their circles -/

/-- The walks of the search, with the circles that they close. Between one type and the next, the
parts of types may be checked. -/
inductive Closes (t : TypeTable) :
    List TypeId → CycleSearch → List TypeId → CycleSearch → List Circle → Prop where
  | done {path : List TypeId} {s : CycleSearch} : Closes t path s [] s []
  | checked {path ids : List TypeId} {s s' : CycleSearch} {id : TypeId} {circles : List Circle}
    {ds : Diagnostics} (hds : t.checkParts id s.diagnostics = .ok ds)
    (rest : Closes t path { s with diagnostics := ds } ids s' circles) :
    Closes t path s ids s' circles
  | seen {path ids : List TypeId} {s s' : CycleSearch} {id : TypeId} {circles : List Circle}
    (hm : s.mark id = .visited) (rest : Closes t path s ids s' circles) :
    Closes t path s (id :: ids) s' circles
  | closed {path ids : List TypeId} {s s' : CycleSearch} {id : TypeId} {circles : List Circle}
    (hm : s.mark id = .visiting)
    (rest : Closes t path ((t.blame path s id).setMark id .visited) ids s' circles) :
    Closes t path s (id :: ids) s' (⟨path, id⟩ :: circles)
  | entered {path ids parts : List TypeId} {s s₁ s' : CycleSearch} {id : TypeId}
    {below circles : List Circle} (hm : s.mark id = .unvisited) (hp : t.valueEdges id = .ok parts)
    (inner : Closes t (path ++ [id]) (s.setMark id .visiting) parts s₁ below)
    (rest : Closes t path (s₁.setMark id .visited) ids s' circles) :
    Closes t path s (id :: ids) s' (below ++ circles)

/-- Every walk closes some circles, perhaps none. -/
theorem Walk.exists_closes (h : t.Walk path s ids s') :
    ∃ circles, t.Closes path s ids s' circles := by
  induction h with
  | done => exact ⟨[], .done⟩
  | seen hm _ ih =>
    obtain ⟨circles, hc⟩ := ih
    exact ⟨circles, .seen hm hc⟩
  | closed hm _ ih =>
    obtain ⟨circles, hc⟩ := ih
    exact ⟨_, .closed hm hc⟩
  | entered hm hp _ _ ihInner ihRest =>
    obtain ⟨below, hb⟩ := ihInner
    obtain ⟨circles, hc⟩ := ihRest
    exact ⟨_, .entered hm hp hb hc⟩

namespace Closes

/-- A search only goes on. -/
theorem later (h : t.Closes path s ids s' circles) (hc : t.Complete) : s.Later s' := by
  induction h with
  | done => exact .refl _
  | @checked path ids s s' id circles ds hds _ ih =>
    obtain ⟨info, hinfo, -⟩ := bind_eq_ok_iff.1 hds
    obtain ⟨ds', hds', hadds, -⟩ := hc.reports_parts (lt_of_info hinfo) s.diagnostics
    obtain rfl := Except.ok.inj (hds.symm.trans hds')
    have hchecked : s.Later { s with diagnostics := ds } := ⟨rfl, fun _ h => h, fun _ h => h, hadds⟩
    exact hchecked.trans ih
  | seen _ _ ih => exact ih
  | closed _ _ ih => exact ((blame_later ..).trans (.leave ..)).trans ih
  | entered hm _ _ _ ihInner ihRest => exact (Later.visit hm ihInner).trans ihRest

/-- One walk after the other. -/
theorem append {s₁ : CycleSearch} {ids' : List TypeId} {circles' : List Circle}
    (h : t.Closes path s ids s₁ circles) (h' : t.Closes path s₁ ids' s' circles') :
    t.Closes path s (ids ++ ids') s' (circles ++ circles') := by
  induction h with
  | done => exact h'
  | checked hds _ ih => exact .checked hds (ih h')
  | seen hm _ ih => exact .seen hm (ih h')
  | closed hm _ ih => exact .closed hm (ih h')
  | entered hm hp inner _ _ ih =>
    rw [List.append_assoc]
    exact .entered hm hp inner (ih h')

/-! ## Where circles close -/

/-- A type that is visited stays visited, so it closes at most one circle. -/
theorem closings (h : t.Closes path s ids s' circles) (hc : t.Complete) :
    (circles.map (·.closing)).Nodup ∧
      ∀ c ∈ circles, s.mark c.closing ≠ .visited ∧ s'.mark c.closing = .visited := by
  -- a type that closes a circle is visited when it is left, so it cannot close another one
  induction h with
  | done => exact ⟨.nil, nofun⟩
  | checked _ _ ih => exact ih
  | seen _ _ ih => exact ih
  | @closed path ids s s' id circles hm rest ih =>
    obtain ⟨hnodup, hmarks⟩ := ih
    have hleft := (blame_later t path s id).trans (Later.leave _ id)
    have hid : ((t.blame path s id).setMark id .visited).mark id = .visited := by
      refine mark_setMark_self ?_
      rw [(blame_later t path s id).length]
      exact lt_of_mark (by simp [hm])
    refine ⟨List.nodup_cons.2 ⟨fun hmem => ?_, hnodup⟩, fun c hmem => ?_⟩
    · obtain ⟨c, hin, heq⟩ := List.mem_map.1 hmem
      exact (hmarks c hin).1 (heq ▸ hid)
    · rcases List.mem_cons.1 hmem with rfl | hmem
      · exact ⟨by simp [hm], (rest.later hc).visited hid⟩
      · exact ⟨fun hv => (hmarks c hmem).1 (hleft.visited hv), (hmarks c hmem).2⟩
  | @entered path ids parts s s₁ s' id below circles hm hp inner rest ihInner ihRest =>
    obtain ⟨hnodup₁, hmarks₁⟩ := ihInner
    obtain ⟨hnodup, hmarks⟩ := ihRest
    have hinner : s.Later (s₁.setMark id .visited) := Later.visit hm (inner.later hc)
    have hvisited : ∀ c ∈ below, (s₁.setMark id .visited).mark c.closing = .visited :=
      fun c hmem => (Later.leave s₁ id).visited (hmarks₁ c hmem).2
    rw [List.map_append]
    refine ⟨hnodup₁.append hnodup fun x hx hx' => ?_, fun c hmem => ?_⟩
    · obtain ⟨c, hmem, rfl⟩ := List.mem_map.1 hx
      obtain ⟨c', hmem', heq⟩ := List.mem_map.1 hx'
      exact (hmarks c' hmem').1 (heq ▸ hvisited c hmem)
    · rcases List.mem_append.1 hmem with hmem | hmem
      · refine ⟨fun hv => (hmarks₁ c hmem).1 ?_, (rest.later hc).visited (hvisited c hmem)⟩
        -- the entered type is marked in between, and it has not been visited before
        have hne : c.closing ≠ id := fun he => by simp [he, hm] at hv
        rwa [mark_setMark_of_ne hne]
      · exact ⟨fun hv => (hmarks c hmem).1 (hinner.visited hv), (hmarks c hmem).2⟩

end Closes

/-! ## Circles -/

/-- The type is on the way that led to it, and each step of the way goes to a part. -/
structure IsCircle (t : TypeTable) (c : Circle) : Prop where
  mem : c.closing ∈ c.path
  chain : (c.path ++ [c.closing]).IsChain t.Contains

/-- The types that are being visited are on the way, so that every type that is met again is found
there. -/
theorem Closes.isCircle (h : t.Closes path s ids s' circles) (hc : t.Complete)
    (hpath : ∀ id, s.mark id = .visiting → id ∈ path)
    (hids : ∀ id ∈ ids, (path ++ [id]).IsChain t.Contains) : ∀ c ∈ circles, t.IsCircle c := by
  -- the path holds the types that are being visited, so one that is met again is on it
  induction h with
  | done => exact nofun
  | checked _ _ ih => exact ih hpath hids
  | seen _ _ ih => exact ih hpath fun i hi => hids i (List.mem_cons_of_mem _ hi)
  | @closed path ids s s' id circles hm rest ih =>
    have hleft := (blame_later t path s id).trans (Later.leave _ id)
    have hrest := ih (fun i hi => hpath i (hleft.visiting i hi))
      fun i hi => hids i (List.mem_cons_of_mem _ hi)
    intro c hc
    rcases List.mem_cons.1 hc with rfl | hc
    · exact ⟨hpath id hm, hids id List.mem_cons_self⟩
    · exact hrest c hc
  | @entered path ids parts s s₁ s' id below circles hm hp inner rest ihInner ihRest =>
    have hinner : s.Later (s₁.setMark id .visited) := Later.visit hm (inner.later hc)
    have hbelow := ihInner (fun i hi => ?_) fun part hpart => ?_
    · have hrest := ihRest (fun i hi => hpath i (hinner.visiting i hi))
        fun i hi => hids i (List.mem_cons_of_mem _ hi)
      intro c hc
      rcases List.mem_append.1 hc with hc | hc
      · exact hbelow c hc
      · exact hrest c hc
    · by_cases he : i = id
      · exact he ▸ List.mem_append_right _ List.mem_cons_self
      · rw [mark_setMark_of_ne he] at hi
        exact List.mem_append_left _ (hpath i hi)
    · have hcontains := (hc.mem_valueEdges hp).1 hpart
      exact (hids id List.mem_cons_self).append (.singleton _) (by simpa using hcontains)

namespace IsCircle

/-- A circle begins at the type that closes it, and leads back to it. -/
theorem exists_types (h : t.IsCircle c) : ∃ rest, c.types = c.closing :: rest ∧
    (c.types ++ [c.closing]).IsChain t.Contains := by
  obtain ⟨front, rest, hpath, hfirst⟩ := List.eq_append_cons_of_mem h.mem
  have htypes : c.types = c.closing :: rest := by
    rw [Circle.types, hpath, List.dropWhile_append_of_pos]
    · simp
    · intro id hid
      simpa using fun he : id = c.closing => hfirst (he ▸ hid)
  refine ⟨rest, htypes, h.chain.suffix ⟨front, ?_⟩⟩
  rw [htypes, hpath, List.append_assoc]

/-- The types of a circle contain each other. -/
theorem transGen (h : t.IsCircle c) (hid : id ∈ c.types) :
    ReflTransGen t.Contains c.closing id ∧ TransGen t.Contains id c.closing := by
  obtain ⟨rest, heq, hchain⟩ := h.exists_types
  have hpairs : (c.types ++ [c.closing]).Pairwise (TransGen t.Contains) :=
    (hchain.imp fun _ _ => TransGen.single).pairwise
  refine ⟨?_, (List.pairwise_append.1 hpairs).2.2 id hid _ (List.mem_singleton.2 rfl)⟩
  rw [heq] at hid hpairs
  rcases List.mem_cons.1 hid with rfl | hid
  · exact .refl
  · exact ((List.pairwise_cons.1 hpairs).1 id (List.mem_append_left _ hid)).to_reflTransGen

theorem closing_mem (h : t.IsCircle c) : c.closing ∈ c.types := by
  obtain ⟨rest, heq, -⟩ := h.exists_types
  exact heq ▸ List.mem_cons_self

end IsCircle

/-! ## Components -/

/-- Containment between types of a set. -/
def ContainsAmong (t : TypeTable) (among : TypeId → Prop) (id part : TypeId) : Prop :=
  t.Contains id part ∧ among id ∧ among part

/-- Among the types of a set, everything that is nested below a type comes to an end. -/
abbrev GroundedAmong (t : TypeTable) (among : TypeId → Prop) (id : TypeId) : Prop :=
  Acc (fun part id => t.ContainsAmong among id part) id

/-- What is grounded lies on no circle of the types that it is grounded among. -/
theorem GroundedAmong.not_transGen {among : TypeId → Prop} (h : t.GroundedAmong among id) :
    ¬ TransGen (t.ContainsAmong among) id id := by
  induction h with
  | intro id _ ih =>
    intro hcycle
    obtain ⟨part, hpart, hback⟩ := TransGen.head'_iff.1 hcycle
    exact ih part hpart (.tail' hback hpart)

/-- A walk that closes no circle in a set of types leaves only types below which nothing goes round
in the set: when a type of the set is left, its parts in the set were left before. -/
theorem Closes.grounded {among : TypeId → Prop} (h : t.Closes path s ids s' circles)
    (hc : t.Complete) (hnone : ∀ c ∈ circles, ¬ among c.closing)
    (hs : ∀ id, s.mark id = .visited → t.GroundedAmong among id) :
    (∀ id, s'.mark id = .visited → t.GroundedAmong among id) ∧
      ∀ id ∈ ids, s'.mark id = .visited := by
  -- what is marked as visited in between is known to be grounded by then
  have marked {s : CycleSearch} {id : TypeId}
      (hs : ∀ i, s.mark i = .visited → t.GroundedAmong among i) (hid : t.GroundedAmong among id)
      (i : TypeId) (hi : (s.setMark id .visited).mark i = .visited) : t.GroundedAmong among i := by
    by_cases he : i = id
    · exact he ▸ hid
    · exact hs i (by rwa [mark_setMark_of_ne he] at hi)
  induction h with
  | done => exact ⟨hs, nofun⟩
  | checked _ _ ih => exact ih hnone hs
  | @seen path ids s s' id circles hm rest ih =>
    obtain ⟨hs', hids⟩ := ih hnone hs
    exact ⟨hs', List.forall_mem_cons.2 ⟨(rest.later hc).visited hm, hids⟩⟩
  | @closed path ids s s' id circles hm rest ih =>
    obtain ⟨hid, hnone⟩ := List.forall_mem_cons.1 hnone
    have hgrounded : t.GroundedAmong among id := .intro _ fun _ hpart => (hid hpart.2.1).elim
    obtain ⟨hs', hids⟩ := ih hnone (marked (s := t.blame path s id) hs hgrounded)
    refine ⟨hs', List.forall_mem_cons.2 ⟨(rest.later hc).visited (mark_setMark_self ?_), hids⟩⟩
    rw [(blame_later t path s id).length]
    exact lt_of_mark (by simp [hm])
  | @entered path ids parts s s₁ s' id below circles hm hp inner rest ihInner ihRest =>
    obtain ⟨hbelow, hnone⟩ := List.forall_mem_append.1 hnone
    have hlt : id.index < s.marks.length := lt_of_mark (by simp [hm])
    obtain ⟨hs₁, hparts⟩ := ihInner hbelow fun i hi => by
      by_cases he : i = id
      · subst he
        simp [mark_setMark_self hlt] at hi
      · exact hs i (by rwa [mark_setMark_of_ne he] at hi)
    have hgrounded : t.GroundedAmong among id := .intro _ fun part hpart =>
      hs₁ part (hparts part ((hc.mem_valueEdges hp).2 hpart.1))
    obtain ⟨hs', hids⟩ := ihRest hnone (marked hs₁ hgrounded)
    refine ⟨hs', List.forall_mem_cons.2 ⟨(rest.later hc).visited (mark_setMark_self ?_), hids⟩⟩
    rwa [(inner.later hc).length, setMark_length]

/-- The types that contain a type and are contained in it. -/
def Component (t : TypeTable) (id i : TypeId) : Prop :=
  ReflTransGen t.Contains id i ∧ ReflTransGen t.Contains i id

/-- A type that contains itself does so among the types of its component. -/
theorem transGen_component (h : TransGen t.Contains id id) :
    TransGen (t.ContainsAmong (t.Component id)) id id := by
  have hfrom {i : TypeId} (hi : TransGen t.Contains id i) (hback : ReflTransGen t.Contains i id) :
      TransGen (t.ContainsAmong (t.Component id)) id i := by
    induction hi with
    | single hpart => exact .single ⟨hpart, ⟨.refl, .refl⟩, ⟨.single hpart, hback⟩⟩
    | @tail i part hi hpart ih =>
      have hi' := hback.head hpart
      exact (ih hi').tail ⟨hpart, ⟨hi.to_reflTransGen, hi'⟩,
        ⟨(hi.tail hpart).to_reflTransGen, hback⟩⟩
  exact hfrom h .refl

/-! ## Names -/

/-- A table that is reached is canonical. -/
theorem Reachable.canonical {profile : WidthProfile} (h : Reachable profile t) : t.Canonical := by
  induction h with
  | initial => exact .initial profile
  | define _ hd ih => exact (ih.step (.define hd)).1
  | intern _ hi ih => exact (ih.step (.intern hi)).1
  | settle _ hs ih => exact (ih.step (.settleDefinitions hs)).1

theorem Settled.canonical {profile : WidthProfile} (h : Settled profile t) : t.Canonical := by
  induction h with
  | settle h hs => exact (h.canonical.step (.settleDefinitions hs)).1
  | intern _ hi ih => exact (ih.step (.intern hi)).1

/-- The struct, union or typedef that a number stands for, with its name. -/
def IsNamed (t : TypeTable) (id : TypeId) : Prop :=
  ∃ info name, t.info id = .ok info ∧ info.name? = some name

/-- A type has a smaller reference than another. -/
def Smaller (t : TypeTable) (id part : TypeId) : Prop :=
  ∃ ref ref', t.refOf id = .ok ref ∧ t.refOf part = .ok ref' ∧
    SizeOf.sizeOf ref' < SizeOf.sizeOf ref

/-- The only types without a name that contain a type are arrays, and the reference of an array is
larger than that of its elements. -/
theorem Canonical.smaller (h : t.Canonical) (hp : t.Contains id part) (hn : ¬ t.IsNamed id) :
    t.Smaller id part := by
  cases hp with
  | member hi => exact (hn ⟨_, _, hi, rfl⟩).elim
  | typedef hi => exact (hn ⟨_, _, hi, rfl⟩).elim
  | @element _ length hi =>
    obtain ⟨⟨ref, info⟩, he, rfl⟩ := info_eq_ok_iff.1 hi
    have hmirrors := h.mirrors _ (List.mem_of_getElem? he)
    cases hmirrors with
    | array hl =>
      refine ⟨_, _, refOf_eq_ok_iff.2 ⟨_, he, rfl⟩, h.lookup?.1 hl, ?_⟩
      simp only [TypeRef.array.sizeOf_spec]
      omega

/-- No type is smaller than itself. -/
theorem not_transGen_smaller : ¬ TransGen t.Smaller id id := by
  have hsmaller {part : TypeId} (h : TransGen t.Smaller id part) : t.Smaller id part := by
    induction h with
    | single h => exact h
    | tail _ h ih =>
      obtain ⟨ref, ref', hr, hr', hlt⟩ := ih
      obtain ⟨ref₁, ref'', hr₁, hr'', hlt'⟩ := h
      obtain rfl := Except.ok.inj (hr'.symm.trans hr₁)
      exact ⟨ref, ref'', hr, hr'', hlt'.trans hlt⟩
  intro h
  obtain ⟨ref, ref', hr, hr', hlt⟩ := hsmaller h
  obtain rfl := Except.ok.inj (hr.symm.trans hr')
  exact lt_irrefl _ hlt

/-- Some type of a circle has a name. -/
theorem IsCircle.named (h : t.IsCircle c) (hc : t.Canonical) : ∃ id ∈ c.types, t.IsNamed id := by
  by_contra hnone
  obtain ⟨rest, -, hchain⟩ := h.exists_types
  have htypes : ∀ id ∈ c.types ++ [c.closing], id ∈ c.types := by
    intro id hid
    rcases List.mem_append.1 hid with hid | hid
    · exact hid
    · exact List.mem_singleton.1 hid ▸ h.closing_mem
  have hdown : (c.types ++ [c.closing]).IsChain (TransGen t.Smaller) :=
    hchain.imp_of_mem_imp fun x _ hx _ hpart =>
      .single (hc.smaller hpart fun hn => hnone ⟨x, htypes x hx, hn⟩)
  exact not_transGen_smaller
    ((List.pairwise_append.1 hdown.pairwise).2.2 _ h.closing_mem _ List.mem_cons_self)

/-- The type that is blamed for a circle. -/
def blamed (t : TypeTable) (c : Circle) : TypeId :=
  t.culprit c.path c.closing

/-- What is blamed is a type of the circle that has a name. -/
theorem IsCircle.blamed (h : t.IsCircle c) (hc : t.Canonical) :
    t.blamed c ∈ c.types ∧ t.IsNamed (t.blamed c) := by
  obtain ⟨isNamed, hfind, hnamed⟩ : ∃ isNamed : TypeId → Bool,
      t.blamed c = ((if c.types.isEmpty then c.path else c.types).find? isNamed).getD c.closing ∧
        ∀ id, isNamed id = true ↔ t.IsNamed id := by
    refine ⟨_, rfl, fun id => ?_⟩
    simp only [IsNamed, info_eq_ok_iff]
    cases t.entries[id.index]? with
    | none => simp
    | some e => simp [Option.isSome_iff_exists]
  have hne : c.types.isEmpty = false := by
    obtain ⟨rest, htypes, -⟩ := h.exists_types
    simp [htypes]
  rw [hne] at hfind
  obtain ⟨id, hid, hid'⟩ := h.named hc
  obtain ⟨found, hfound⟩ :=
    Option.isSome_iff_exists.1 (List.find?_isSome.2 ⟨id, hid, (hnamed id).2 hid'⟩)
  have hblamed : t.blamed c = found := by
    rw [hfind, if_neg Bool.false_ne_true, hfound]
    rfl
  rw [hblamed]
  exact ⟨List.mem_of_find?_eq_some hfound, (hnamed found).1 (List.find?_some hfound)⟩

end TypeTable

end Backend386
