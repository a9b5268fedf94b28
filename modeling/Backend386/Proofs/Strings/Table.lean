import Mathlib.Data.List.Induction
import Mathlib.Data.List.Infix
import Mathlib.Data.List.Nodup
import Backend386.Strings

/-!
# Interning string literals

A table that literals are interned in holds each of them once. A number that was handed out keeps
its literal, whatever is interned later.

* `StringTable.values`, `StringTable.value?` — the literals, and the literal of a number;
* `StringTable.internAll` — interns literals one after another;
* `StringTable.values_internAll` — the distinct literals, in the order in which they first came;
* `StringTable.find?_eq_some_iff` — a literal is found where it is.
-/

namespace Backend386.StringTable

variable {t t' : StringTable} {s v : String} {id : StringId} {vs : List String}

/-- The literals, in the order of their numbers. -/
def values (t : StringTable) : List String :=
  t.entries.map (·.value)

/-- The literal of a number. -/
def value? (t : StringTable) (id : StringId) : Option String :=
  t.values[id.index]?

/-- Interns literals one after another. -/
def internAll (t : StringTable) (vs : List String) : StringTable :=
  vs.foldl (fun t v => (t.intern v).1) t

@[simp] theorem internAll_nil : t.internAll [] = t := rfl

@[simp] theorem internAll_append (vs vs' : List String) :
    t.internAll (vs ++ vs') = (t.internAll vs).internAll vs' :=
  List.foldl_append

@[simp] theorem internAll_singleton : t.internAll [v] = (t.intern v).1 := rfl

/-! ## Finding -/

theorem find?_eq : t.find? s = (t.values.findIdx? (· = s)).map .mk := by
  rw [find?, values, List.findIdx?_map]
  rfl

theorem find?_eq_none_iff : t.find? s = none ↔ s ∉ t.values := by
  rw [find?_eq, Option.map_eq_none_iff, List.findIdx?_eq_none_iff]
  simp only [decide_eq_false_iff_not, List.forall_mem_ne']

/-- What is found at a number is there. -/
theorem value?_of_find? (h : t.find? s = some id) : t.value? id = some s := by
  rw [find?_eq] at h
  obtain ⟨i, hi, rfl⟩ := Option.map_eq_some_iff.1 h
  obtain ⟨hlt, heq, -⟩ := List.findIdx?_eq_some_iff_getElem.1 hi
  exact List.getElem?_eq_some_iff.2 ⟨hlt, of_decide_eq_true heq⟩

/-- Where no literal is held twice, a literal is found at a number exactly when it is there. -/
theorem find?_eq_some_iff (h : t.values.Nodup) : t.find? s = some id ↔ t.value? id = some s := by
  refine ⟨value?_of_find?, fun hvalue => ?_⟩
  cases hfind : t.find? s with
  | none => exact absurd (List.mem_of_getElem? hvalue) (find?_eq_none_iff.1 hfind)
  | some id' =>
    obtain ⟨i⟩ := id
    obtain ⟨j⟩ := id'
    obtain rfl : i = j := (List.getElem?_inj (List.getElem?_eq_some_iff.1 hvalue).1 h).1
      (hvalue.trans (value?_of_find? hfind).symm)
    rfl

/-! ## Interning -/

theorem intern_of_mem (h : s ∈ t.values) : (t.intern s).1 = t := by
  cases hfind : t.find? s with
  | none => exact absurd h (find?_eq_none_iff.1 hfind)
  | some id => rw [intern, hfind]

theorem intern_of_notMem (h : s ∉ t.values) :
    t.intern s = (⟨t.entries ++ [{ value := s }]⟩, ⟨t.size⟩) := by
  rw [intern, find?_eq_none_iff.2 h]

/-- The entries that were there stay where they are. -/
theorem prefix_intern : t.entries <+: (t.intern s).1.entries := by
  by_cases h : s ∈ t.values
  · rw [intern_of_mem h]
  · rw [intern_of_notMem h]
    exact List.prefix_append ..

theorem prefix_internAll (t : StringTable) (vs : List String) :
    t.entries <+: (t.internAll vs).entries := by
  induction vs generalizing t with
  | nil => exact List.prefix_rfl
  | cons v vs ih => exact prefix_intern.trans (ih (t.intern v).1)

theorem value?_of_prefix (h : t.entries <+: t'.entries) (hv : t.value? id = some v) :
    t'.value? id = some v := by
  obtain ⟨rest, hrest⟩ := h
  rw [value?, values, ← hrest, List.map_append]
  exact List.getElem?_append_left (List.getElem?_eq_some_iff.1 hv).1 ▸ hv

/-- A literal is there once it is interned. -/
theorem value?_intern : (t.intern s).1.value? (t.intern s).2 = some s := by
  by_cases h : s ∈ t.values
  · cases hfind : t.find? s with
    | none => exact absurd h (find?_eq_none_iff.1 hfind)
    | some id =>
      rw [intern, hfind]
      exact value?_of_find? hfind
  · rw [intern_of_notMem h]
    simp [value?, values, size]

/-- A string that is interned stands at the end, unless it is there. -/
theorem values_intern :
    (t.intern s).1.values = if s ∈ t.values then t.values else t.values ++ [s] := by
  split
  · next h => rw [intern_of_mem h]
  · next h =>
    rw [intern_of_notMem h]
    simp [values]

/-- No string stands in the table twice. -/
theorem nodup_intern (h : t.values.Nodup) : (t.intern s).1.values.Nodup := by
  rw [values_intern]
  split
  · exact h
  · next hs =>
    rw [← List.concat_eq_append]
    exact h.concat hs

theorem nodup_internAll (h : t.values.Nodup) (vs : List String) :
    (t.internAll vs).values.Nodup := by
  induction vs generalizing t with
  | nil => exact h
  | cons v vs ih => exact ih (nodup_intern h)

/-- The distinct literals, each where it first came. -/
theorem values_internAll (vs : List String) :
    (internAll {} vs).values = vs.eraseDups := by
  induction vs using List.reverseRecOn with
  | nil => rfl
  | append_singleton vs v ih =>
    rw [internAll_append, internAll_singleton, values_intern, ih, List.eraseDups_append]
    by_cases hv : v ∈ vs <;> simp [hv, List.removeAll, List.eraseDups_cons]

end Backend386.StringTable
