import Mathlib.Data.Finset.Card
import Mathlib.Data.Finset.Filter
import Backend386.Proofs.Types.Containment

/-!
# The search for types that contain themselves

The search is described by the walks that it takes, which do not know of its bound: a walk goes to
some types in turn, and below each of them that was not met before. A walk that reports nothing
leaves only types below which everything comes to an end; in an acyclic table a type that is still
being visited is never met again.

* `Diagnostics.Adds` — errors are appended;
* `CycleSearch.Later` — what happens to the marks;
* `TypeTable.Walk` — the walks, and `TypeTable.Complete.walk` — the search takes them;
* `TypeTable.Walk.grounded`, `TypeTable.Walk.quiet` — what a walk finds.
-/

namespace Backend386

/-! ## Reporting -/

/-- Errors are appended, and nothing else. -/
def Diagnostics.Adds (ds ds' : Diagnostics) : Prop :=
  ∃ found, ds' = ds ++ found ∧ ∀ d ∈ found, d.severity = .error

namespace Diagnostics.Adds

variable {ds ds' ds'' : Diagnostics}

theorem refl (ds : Diagnostics) : ds.Adds ds :=
  ⟨[], by simp, by simp⟩

/-- Findings may be added twice. -/
theorem trans (h : ds.Adds ds') (h' : ds'.Adds ds'') : ds.Adds ds'' := by
  obtain ⟨a, rfl, ha⟩ := h
  obtain ⟨b, rfl, hb⟩ := h'
  refine ⟨a ++ b, List.append_assoc .., fun d hd => ?_⟩
  rcases List.mem_append.1 hd with hd | hd
  · exact ha d hd
  · exact hb d hd

theorem error (ds : Diagnostics) (location : Option Location) (message : String) :
    ds.Adds (ds.error location message) :=
  ⟨[⟨.error, message, location⟩], rfl, by simp⟩

/-- If nothing was added in the end, nothing was added on the way. -/
theorem squeeze (h : ds.Adds ds') (h' : ds'.Adds ds) : ds' = ds := by
  obtain ⟨a, rfl, -⟩ := h
  obtain ⟨b, hb, -⟩ := h'
  have : a ++ b = [] := by simpa using hb
  simp [(List.append_eq_nil_iff.1 this).1]

end Diagnostics.Adds

theorem Diagnostics.warnings_append (a b : Diagnostics) :
    warnings (a ++ b) = warnings a ++ warnings b :=
  List.filter_append ..

/-- Errors are no warnings. -/
theorem Diagnostics.Adds.warnings {ds ds' : Diagnostics} (h : ds.Adds ds') :
    ds'.warnings = ds.warnings := by
  obtain ⟨found, rfl, herrors⟩ := h
  have hnone : Diagnostics.warnings found = [] := by
    rw [Diagnostics.warnings, List.filter_eq_nil_iff]
    intro d hd
    simp [herrors d hd]
  rw [warnings_append, hnone, List.append_nil]

theorem Diagnostics.error_ne (ds : Diagnostics) (location : Option Location) (message : String) :
    ds.error location message ≠ ds := by
  simp [Diagnostics.error, Diagnostics.report]

/-! ## Marks -/

namespace CycleSearch

variable {s s' s'' : CycleSearch} {id id' : TypeId} {m : Mark}

/-- The mark of a type; numbers beyond the table count as visited. -/
def mark (s : CycleSearch) (id : TypeId) : Mark :=
  s.marks.getD id.index .visited

@[simp] theorem setMark_diagnostics : (s.setMark id m).diagnostics = s.diagnostics := rfl

@[simp] theorem setMark_length : (s.setMark id m).marks.length = s.marks.length := by
  simp [setMark]

theorem mark_setMark_self (h : id.index < s.marks.length) :
    (s.setMark id m).mark id = m := by
  simp [setMark, CycleSearch.mark, h]

theorem mark_setMark_of_ne (h : id' ≠ id) : (s.setMark id m).mark id' = s.mark id' := by
  have hne : id.index ≠ id'.index := fun he => h (by cases id; cases id'; exact congrArg _ he.symm)
  simp [setMark, CycleSearch.mark, hne]

theorem lt_of_mark (h : s.mark id ≠ .visited) : id.index < s.marks.length := by
  by_contra hge
  exact h (by simp [mark, List.getElem?_eq_none (not_lt.1 hge)])

/-- What happens to the marks in the course of the search: types are entered and left, and what is
reported is appended. -/
structure Later (s s' : CycleSearch) : Prop where
  length : s'.marks.length = s.marks.length
  unvisited : ∀ id, s'.mark id = .unvisited → s.mark id = .unvisited
  visiting : ∀ id, s'.mark id = .visiting → s.mark id = .visiting
  diagnostics : s.diagnostics.Adds s'.diagnostics

namespace Later

theorem refl (s : CycleSearch) : s.Later s :=
  ⟨rfl, fun _ h => h, fun _ h => h, .refl _⟩

theorem trans (h : s.Later s') (h' : s'.Later s'') : s.Later s'' where
  length := h'.length.trans h.length
  unvisited := fun id hid => h.unvisited id (h'.unvisited id hid)
  visiting := fun id hid => h.visiting id (h'.visiting id hid)
  diagnostics := h.diagnostics.trans h'.diagnostics

theorem visited (h : s.Later s') (hid : s.mark id = .visited) : s'.mark id = .visited := by
  cases hm : s'.mark id with
  | visited => rfl
  | unvisited => simp [h.unvisited id hm] at hid
  | visiting => simp [h.visiting id hm] at hid

/-- A type is left. -/
theorem leave (s : CycleSearch) (id : TypeId) : s.Later (s.setMark id .visited) := by
  have hkept {id' : TypeId} (h : (s.setMark id .visited).mark id' ≠ .visited) :
      (s.setMark id .visited).mark id' = s.mark id' := by
    by_cases he : id' = id
    · subst he
      have hlt : id'.index < s.marks.length := by simpa using lt_of_mark h
      exact (h (mark_setMark_self hlt)).elim
    · exact mark_setMark_of_ne he
  refine ⟨setMark_length, fun id' h => ?_, fun id' h => ?_, .refl _⟩
  · rw [← hkept (by simp [h]), h]
  · rw [← hkept (by simp [h]), h]

/-- A type is entered, and left again in the end. -/
theorem visit (hm : s.mark id = .unvisited) (h : (s.setMark id .visiting).Later s') :
    s.Later (s'.setMark id .visited) := by
  have hlt : id.index < s.marks.length := lt_of_mark (by simp [hm])
  have hlt' : id.index < s'.marks.length := by rwa [h.length, setMark_length]
  refine ⟨by rw [setMark_length, h.length, setMark_length], fun id' h' => ?_, fun id' h' => ?_,
    h.diagnostics⟩
  · by_cases he : id' = id
    · exact he ▸ hm
    · rw [mark_setMark_of_ne he] at h'
      rw [← mark_setMark_of_ne he, h.unvisited id' h']
  · by_cases he : id' = id
    · subst he
      simp [mark_setMark_self hlt'] at h'
    · rw [mark_setMark_of_ne he] at h'
      rw [← mark_setMark_of_ne he, h.visiting id' h']

end Later

/-- The types that the search has not met. -/
def fresh (s : CycleSearch) : Finset Nat :=
  (Finset.range s.marks.length).filter fun i => s.mark ⟨i⟩ = .unvisited

theorem Later.fresh_le (h : s.Later s') : s'.fresh.card ≤ s.fresh.card := by
  refine Finset.card_le_card fun i hi => ?_
  rw [fresh, Finset.mem_filter, h.length] at hi
  rw [fresh, Finset.mem_filter]
  exact ⟨hi.1, h.unvisited _ hi.2⟩

/-- There are fewer of them when a type is entered. -/
theorem fresh_setMark (hm : s.mark id = .unvisited) :
    (s.setMark id .visiting).fresh.card < s.fresh.card := by
  have hlt : id.index < s.marks.length := lt_of_mark (by simp [hm])
  refine Finset.card_lt_card ⟨fun i hi => ?_, fun hsub => ?_⟩
  · rw [fresh, Finset.mem_filter, setMark_length] at hi
    rw [fresh, Finset.mem_filter]
    refine ⟨hi.1, ?_⟩
    by_cases he : (⟨i⟩ : TypeId) = id
    · exact he ▸ hm
    · rw [← mark_setMark_of_ne he, hi.2]
  · have hmem : id.index ∈ s.fresh := Finset.mem_filter.2 ⟨Finset.mem_range.2 hlt, hm⟩
    have := (Finset.mem_filter.1 (hsub hmem)).2
    simp [mark_setMark_self hlt] at this

end CycleSearch

namespace TypeTable

variable {t : TypeTable} {s s' : CycleSearch} {path ids : List TypeId}

/-! ## Walks -/

/-- Reports that a cycle closes at a type. -/
def blame (t : TypeTable) (path : List TypeId) (s : CycleSearch) (id : TypeId) : CycleSearch :=
  { s with diagnostics := t.reportRecursion (t.culprit path id) s.diagnostics }

/-- The walks of the search: to some types in turn, and from each of them that was not met before
to what it contains. -/
inductive Walk (t : TypeTable) :
    List TypeId → CycleSearch → List TypeId → CycleSearch → Prop where
  | done {path : List TypeId} {s : CycleSearch} : Walk t path s [] s
  | seen {path ids : List TypeId} {s s' : CycleSearch} {id : TypeId} (hm : s.mark id = .visited)
    (rest : Walk t path s ids s') : Walk t path s (id :: ids) s'
  /-- the type is still being visited -/
  | closed {path ids : List TypeId} {s s' : CycleSearch} {id : TypeId}
    (hm : s.mark id = .visiting)
    (rest : Walk t path ((t.blame path s id).setMark id .visited) ids s') :
    Walk t path s (id :: ids) s'
  | entered {path ids parts : List TypeId} {s s₁ s' : CycleSearch} {id : TypeId}
    (hm : s.mark id = .unvisited) (hp : t.valueEdges id = .ok parts)
    (inner : Walk t (path ++ [id]) (s.setMark id .visiting) parts s₁)
    (rest : Walk t path (s₁.setMark id .visited) ids s') : Walk t path s (id :: ids) s'

open CycleSearch

theorem blame_later (t : TypeTable) (path : List TypeId) (s : CycleSearch) (id : TypeId) :
    s.Later (t.blame path s id) :=
  ⟨rfl, fun _ h => h, fun _ h => h, .error ..⟩

/-- A search that is walked only goes on. -/
theorem Walk.later (h : t.Walk path s ids s') : s.Later s' := by
  induction h with
  | done => exact .refl _
  | seen _ _ ih => exact ih
  | closed _ _ ih => exact ((blame_later ..).trans (.leave ..)).trans ih
  | entered hm _ _ _ ihInner ihRest => exact (Later.visit hm ihInner).trans ihRest

/-- The search takes a walk, and needs no more steps than there are types that it has not met. -/
theorem Complete.walk (hc : t.Complete) {n : Nat} (path : List TypeId)
    (hlength : s.marks.length = t.size) (hids : ∀ id ∈ ids, id.index < t.size)
    (hn : s.fresh.card < n) :
    ∃ s', ids.foldlM (t.searchCycles n path) s = .ok s' ∧ t.Walk path s ids s' := by
  -- the limit decreases on the way down, and there is always a type less that is fresh
  induction n generalizing path ids s with
  | zero => omega
  | succ n ihn =>
    -- from one type to the next the limit is the same, so the second induction is on the types
    induction ids generalizing s with
    | nil => exact ⟨s, rfl, .done⟩
    | cons id ids ih =>
      have hid := hids id (by simp)
      have hrest := fun {s₁ : CycleSearch} (hl : s.Later s₁) =>
        ih (s := s₁) (hl.length.trans hlength) (fun i hi => hids i (by simp [hi]))
          (hl.fresh_le.trans_lt hn)
      rw [List.foldlM_cons]
      cases hm : s.mark id with
      | visited =>
        obtain ⟨s', hs', hw⟩ := hrest (.refl s)
        -- one rule for each mark that the search finds
        refine ⟨s', bind_eq_ok_iff.2 ⟨s, ?_, hs'⟩, .seen hm hw⟩
        rw [searchCycles]
        simp only [show s.marks.getD id.index .visited = .visited from hm]
      | visiting =>
        obtain ⟨s', hs', hw⟩ := hrest ((blame_later t path s id).trans (.leave _ id))
        refine ⟨s', bind_eq_ok_iff.2 ⟨_, ?_, hs'⟩, .closed hm hw⟩
        rw [searchCycles]
        simp only [show s.marks.getD id.index .visited = .visiting from hm]
        rfl
      | unvisited =>
        obtain ⟨parts, hparts, hmem⟩ := hc.valueEdges hid
        have hfresh := fresh_setMark hm
        obtain ⟨s₁, hs₁, hw₁⟩ := ihn (s := s.setMark id .visiting) (path ++ [id])
          (by rwa [setMark_length]) (fun p hp => ((hmem p).1 hp).part_lt hc) (by omega)
        obtain ⟨s', hs', hw⟩ := hrest (Later.visit hm hw₁.later)
        refine ⟨s', bind_eq_ok_iff.2 ⟨_, ?_, hs'⟩, .entered hm hparts hw₁ hw⟩
        rw [searchCycles]
        simp only [show s.marks.getD id.index .visited = .unvisited from hm, hparts, hs₁, bind,
          Except.bind]
        rfl

/-- Below the types that were visited, everything comes to an end. -/
def VisitedGrounded (t : TypeTable) (s : CycleSearch) : Prop :=
  ∀ id, s.mark id = .visited → t.Grounded id

/-- A walk that reports nothing leaves only types below which everything comes to an end: when a
type is left, what it contains was left before. -/
theorem Walk.grounded (h : t.Walk path s ids s')
    (hc : t.Complete) (hquiet : s'.diagnostics = s.diagnostics) (hs : t.VisitedGrounded s) :
    t.VisitedGrounded s' ∧ ∀ id ∈ ids, s'.mark id = .visited := by
  -- what has been visited is grounded: for a type that is left, its parts were visited before
  induction h with
  | done => exact ⟨hs, by simp⟩
  | @seen path ids s s' id hm rest ih =>
    obtain ⟨hs', hids⟩ := ih hquiet hs
    refine ⟨hs', fun i hi => ?_⟩
    rcases List.mem_cons.1 hi with rfl | hi
    · exact rest.later.visited hm
    · exact hids i hi
  | @closed path ids s s' id hm rest ih =>
    have hadds := rest.later.diagnostics
    rw [hquiet] at hadds
    -- a circle would have been reported
    exact (Diagnostics.error_ne _ _ _ ((blame_later t path s id).diagnostics.squeeze hadds)).elim
  | @entered path ids parts s s₁ s' id hm hp inner rest ihInner ihRest =>
    have hlt : id.index < s.marks.length := lt_of_mark (by simp [hm])
    have hlt₁ : id.index < s₁.marks.length := by rwa [inner.later.length, setMark_length]
    have hquiet₁ : s₁.diagnostics = s.diagnostics :=
      inner.later.diagnostics.squeeze (hquiet ▸ rest.later.diagnostics)
    have hentered : t.VisitedGrounded (s.setMark id .visiting) := by
      intro x hx
      by_cases he : x = id
      · subst he
        simp [mark_setMark_self hlt] at hx
      · exact hs x (by rwa [mark_setMark_of_ne he] at hx)
    obtain ⟨hs₁, hparts⟩ := ihInner hquiet₁ hentered
    have hid : t.Grounded id := .intro _ fun part hpart =>
      hs₁ part (hparts part ((hc.mem_valueEdges hp).2 hpart))
    have hleft : t.VisitedGrounded (s₁.setMark id .visited) := by
      intro x hx
      by_cases he : x = id
      · exact he ▸ hid
      · exact hs₁ x (by rwa [mark_setMark_of_ne he] at hx)
    obtain ⟨hs', hids⟩ := ihRest (hquiet.trans hquiet₁.symm) hleft
    refine ⟨hs', fun i hi => ?_⟩
    rcases List.mem_cons.1 hi with rfl | hi
    · exact rest.later.visited (mark_setMark_self hlt₁)
    · exact hids i hi

/-- In an acyclic table nothing is reported on a walk to types that are contained in all types that
are being visited: such a type would contain itself if it were being visited. -/
theorem Walk.quiet (h : t.Walk path s ids s') (hc : t.Complete) (ha : t.Acyclic)
    (hs : ∀ x, s.mark x = .visiting → ∀ id ∈ ids, Relation.TransGen t.Contains x id) :
    s'.diagnostics = s.diagnostics := by
  -- the types that are being visited contain the next one, so it cannot be one of them
  induction h with
  | done => rfl
  | seen _ _ ih => exact ih fun x hx i hi => hs x hx i (List.mem_cons_of_mem _ hi)
  | @closed _ _ _ _ id hm _ _ => exact (ha id (hs id hm id (by simp))).elim
  | @entered path ids parts s s₁ s' id hm hp inner rest ihInner ihRest =>
    have hlt₁ : id.index < s₁.marks.length := by
      rw [inner.later.length, setMark_length]
      exact lt_of_mark (by simp [hm])
    have hinner := ihInner fun x hx part hpart => by
      have hcontains := (hc.mem_valueEdges hp).1 hpart
      by_cases he : x = id
      · exact he ▸ .single hcontains
      · rw [mark_setMark_of_ne he] at hx
        exact (hs x hx id (by simp)).tail hcontains
    have hrest := ihRest fun x hx i hi => by
      have he : x ≠ id := by
        rintro rfl
        simp [mark_setMark_self hlt₁] at hx
      rw [mark_setMark_of_ne he] at hx
      have hx := inner.later.visiting x hx
      rw [mark_setMark_of_ne he] at hx
      exact hs x hx i (List.mem_cons_of_mem _ hi)
    exact hrest.trans hinner

end TypeTable

end Backend386
