import Mathlib.Data.List.Forall2
import Mathlib.Data.Nat.Basic
import Mathlib.Order.Basic
import Backend386.Proofs.Faults
import Backend386.Types.Layout

/-!
# How members are placed

A struct places its members one after another and a union places them on top of each other. In
both, every member is inside, at an offset that its alignment divides. What a member needs is its
extent, the size and the alignment that were measured.

* `align_eq_ok`, `align_faults` — rounding up;
* `Layout.Fits` — what structs and unions have in common;
* `Layout.ofStruct_eq_ok`, `Layout.ofUnion_eq_ok` — the two of them.
-/

namespace Backend386

/-! ## Rounding up -/

theorem le_roundUp (n : Nat) {a : Nat} (ha : 0 < a) : n ≤ (n + a - 1) / a * a := by
  have hdiv := Nat.div_add_mod (n + a - 1) a
  have hmod := Nat.mod_lt (n + a - 1) ha
  rw [Nat.mul_comm] at hdiv
  omega

/-- An aligned number is a multiple of the alignment, and no less. -/
theorem align_eq_ok {n a m : Nat} (h : align n a = .ok m) : 0 < a ∧ n ≤ m ∧ a ∣ m := by
  unfold align at h
  split at h
  · cases h
  · next ha =>
    obtain ⟨sum, hsum, h⟩ := bind_eq_ok_iff.1 h
    obtain ⟨rfl, -⟩ := Checked.add_eq_ok_iff.1 hsum
    obtain ⟨rfl, -⟩ := Checked.mul_eq_ok_iff.1 h
    have ha := Nat.pos_of_ne_zero ha
    exact ⟨ha, le_roundUp n ha, Nat.dvd_mul_left ..⟩

theorem align_faults (n : Nat) {a : Nat} (ha : 0 < a) :
    FaultsIn Fault.IsOverflow (align n a) := by
  unfold align
  simp only [if_neg ha.ne']
  exact (Checked.add_faults _ _).bind fun _ _ => Checked.mul_faults _ _

theorem align_zero_faults (n : Nat) : FaultsIn (· = Fault.zeroAlignment) (align n 0) :=
  .error rfl

/-! ## The largest of a list -/

/-- The largest of some numbers, at least a given one. -/
def largest {β : Type} (f : β → Nat) (start : Nat) (l : List β) : Nat :=
  l.foldl (fun n b => max n (f b)) start

section

variable {β : Type} {f : β → Nat} {start : Nat} {l : List β}

theorem start_le_largest : start ≤ largest f start l := by
  induction l generalizing start with
  | nil => exact Nat.le_refl _
  | cons b l ih => exact (Nat.le_max_left ..).trans ih

/-- No element is larger than the largest. -/
theorem le_largest {b : β} (h : b ∈ l) : f b ≤ largest f start l := by
  induction l generalizing start with
  | nil => cases h
  | cons b' l ih =>
    rcases List.mem_cons.1 h with rfl | h
    · exact (Nat.le_max_right ..).trans start_le_largest
    · exact ih h

/-- The largest one is one of them. -/
theorem largest_of {P : Nat → Prop} (hstart : P start) (h : ∀ b ∈ l, P (f b)) :
    P (largest f start l) := by
  induction l generalizing start with
  | nil => exact hstart
  | cons b l ih =>
    refine ih (show P (max start (f b)) from ?_) fun b' hb' => h b' (by simp [hb'])
    rcases Nat.le_total start (f b) with hle | hle
    · rw [Nat.max_eq_right hle]
      exact h b (by simp)
    · rw [Nat.max_eq_left hle]
      exact hstart

end

namespace Layout

/-! ## One after another -/

/-- Values stand one after another between two positions, each at an offset that its alignment
divides. -/
inductive Placed : Nat → List (Nat × Nat) → List Nat → Nat → Prop where
  | nil {lo : Nat} : Placed lo [] [] lo
  | cons {lo hi size alignment offset : Nat} {extents : List (Nat × Nat)} {offsets : List Nat}
    (hle : lo ≤ offset) (hdvd : alignment ∣ offset)
    (rest : Placed (offset + size) extents offsets hi) :
    Placed lo ((size, alignment) :: extents) (offset :: offsets) hi

namespace Placed

variable {lo hi : Nat} {extents : List (Nat × Nat)} {offsets : List Nat}

theorem length_eq (h : Placed lo extents offsets hi) : offsets.length = extents.length := by
  induction h with
  | nil => rfl
  | cons _ _ _ ih => simp [ih]

theorem le (h : Placed lo extents offsets hi) : lo ≤ hi := by
  induction h with
  | nil => exact Nat.le_refl _
  | cons hle _ _ ih => omega

/-- What is placed is aligned, and lies within the bounds. -/
theorem get (h : Placed lo extents offsets hi) {i offset : Nat} {e : Nat × Nat}
    (he : extents[i]? = some e) (ho : offsets[i]? = some offset) :
    e.2 ∣ offset ∧ lo ≤ offset ∧ offset + e.1 ≤ hi := by
  induction h generalizing i with
  | nil => simp at he
  | cons hle hdvd rest ih =>
    cases i with
    | zero =>
      obtain rfl := Option.some.inj he
      obtain rfl := Option.some.inj ho
      exact ⟨hdvd, hle, rest.le⟩
    | succ i =>
      obtain ⟨hdvd, hlo, hhi⟩ := ih he ho
      exact ⟨hdvd, by omega, hhi⟩

/-- A value ends before the next ones begin. -/
theorem get_lt (h : Placed lo extents offsets hi) {i j offset offset' : Nat} {e : Nat × Nat}
    (hij : i < j) (he : extents[i]? = some e) (ho : offsets[i]? = some offset)
    (ho' : offsets[j]? = some offset') : offset + e.1 ≤ offset' := by
  induction h generalizing i j with
  | nil => simp at he
  | cons hle hdvd rest ih =>
    obtain ⟨j, rfl⟩ := Nat.exists_eq_succ_of_ne_zero (Nat.ne_zero_of_lt hij)
    rw [List.getElem?_cons_succ] at ho'
    cases i with
    | zero =>
      obtain rfl := Option.some.inj he
      obtain rfl := Option.some.inj ho
      have hlt := (List.getElem?_eq_some_iff.1 ho').1
      rw [rest.length_eq] at hlt
      exact (rest.get (List.getElem?_eq_getElem hlt) ho').2.1
    | succ i => exact ih (Nat.lt_of_succ_lt_succ hij) he ho ho'

end Placed

/-! ## Structs and unions -/

variable {α : Type} {measure : α → Except Fault (Nat × Nat)} {members : List α} {l : Layout}

/-- Every member has an offset that its alignment divides and is inside. The alignment of the whole
is the largest one, and divides the size. -/
structure Fits (l : Layout) (extents : List (Nat × Nat)) : Prop where
  length_eq : l.offsets.length = extents.length
  get : ∀ {i offset : Nat} {e : Nat × Nat}, extents[i]? = some e → l.offsets[i]? = some offset →
    e.2 ∣ offset ∧ offset + e.1 ≤ l.size
  alignment_eq : l.alignment = largest Prod.snd 1 extents
  alignment_dvd : l.alignment ∣ l.size

/-- The extents that were measured. -/
abbrev Measured (measure : α → Except Fault (Nat × Nat)) : List α → List (Nat × Nat) → Prop :=
  List.Forall₂ fun m e => measure m = .ok e

/-- Each member is measured. -/
theorem Measured.get {extents : List (Nat × Nat)} (h : Measured measure members extents) {i : Nat}
    {m : α} (hm : members[i]? = some m) : ∃ e, extents[i]? = some e ∧ measure m = .ok e := by
  induction h generalizing i with
  | nil => simp at hm
  | cons he _ ih =>
    cases i with
    | zero =>
      obtain rfl := Option.some.inj hm
      exact ⟨_, rfl, he⟩
    | succ i => exact ih hm

/-- Each extent is that of a member. -/
theorem Measured.mem {extents : List (Nat × Nat)} (h : Measured measure members extents)
    {e : Nat × Nat} (he : e ∈ extents) : ∃ m ∈ members, measure m = .ok e := by
  induction h with
  | nil => cases he
  | cons hm _ ih =>
    rcases List.mem_cons.1 he with rfl | he
    · exact ⟨_, by simp, hm⟩
    · obtain ⟨m, hmem, hm⟩ := ih he
      exact ⟨m, by simp [hmem], hm⟩

/-- Members that were placed were measured, and lie one after another. -/
theorem placeMembers_eq_ok {a a' : Allocator} {offsets : List Nat}
    (h : placeMembers measure a members = .ok (a', offsets)) :
    ∃ extents, Measured measure members extents ∧ Placed a.used extents offsets a'.used ∧
      a'.maxAlignment = largest Prod.snd a.maxAlignment extents := by
  induction members generalizing a offsets with
  | nil =>
    obtain ⟨rfl, rfl⟩ := Prod.mk.inj (Except.ok.inj h)
    exact ⟨[], .nil, .nil, rfl⟩
  | cons m ms ih =>
    obtain ⟨⟨size, alignment⟩, hm, h⟩ := bind_eq_ok_iff.1 h
    obtain ⟨⟨a₁, offset⟩, hplace, h⟩ := bind_eq_ok_iff.1 h
    obtain ⟨⟨a₂, rest⟩, hrest, h⟩ := bind_eq_ok_iff.1 h
    obtain ⟨rfl, rfl⟩ := Prod.mk.inj (Except.ok.inj h)
    obtain ⟨o, ho, hplace⟩ := bind_eq_ok_iff.1 hplace
    obtain ⟨used, hused, hplace⟩ := bind_eq_ok_iff.1 hplace
    obtain ⟨rfl, rfl⟩ := Prod.mk.inj (Except.ok.inj hplace)
    obtain ⟨rfl, -⟩ := Checked.add_eq_ok_iff.1 hused
    obtain ⟨-, hle, hdvd⟩ := align_eq_ok ho
    obtain ⟨extents, hmeasured, hplaced, hmax⟩ := ih hrest
    exact ⟨_ :: extents, .cons hm hmeasured, .cons hle hdvd hplaced, hmax⟩

/-- The members of a struct stand one after another. -/
theorem ofStruct_eq_ok (h : ofStruct measure members = .ok l) :
    ∃ extents, Measured measure members extents ∧ l.Fits extents ∧
      ∀ {i j offset offset' : Nat} {e : Nat × Nat}, i < j → extents[i]? = some e →
        l.offsets[i]? = some offset → l.offsets[j]? = some offset' → offset + e.1 ≤ offset' := by
  obtain ⟨⟨a, offsets⟩, hplace, h⟩ := bind_eq_ok_iff.1 h
  obtain ⟨size, hsize, h⟩ := bind_eq_ok_iff.1 h
  obtain rfl := Except.ok.inj h
  obtain ⟨extents, hmeasured, hplaced, hmax⟩ := placeMembers_eq_ok hplace
  obtain ⟨-, hle, hdvd⟩ := align_eq_ok hsize
  refine ⟨extents, hmeasured, ⟨hplaced.length_eq, fun he ho => ?_, hmax, hdvd⟩, hplaced.get_lt⟩
  obtain ⟨hdvd, -, hhi⟩ := hplaced.get he ho
  exact ⟨hdvd, hhi.trans hle⟩

/-- The same where they are measured only. -/
theorem mapM_eq_ok {extents : List (Nat × Nat)} (h : members.mapM measure = .ok extents) :
    Measured measure members extents := by
  induction members generalizing extents with
  | nil =>
    obtain rfl := Except.ok.inj h
    exact .nil
  | cons m ms ih =>
    rw [List.mapM_cons] at h
    obtain ⟨e, he, h⟩ := bind_eq_ok_iff.1 h
    obtain ⟨es, hes, h⟩ := bind_eq_ok_iff.1 h
    obtain rfl := Except.ok.inj h
    exact .cons he (ih hes)

/-- The members of a union all stand at its beginning. -/
theorem ofUnion_eq_ok (h : ofUnion measure members = .ok l) :
    ∃ extents, Measured measure members extents ∧ l.Fits extents ∧ ∀ o ∈ l.offsets, o = 0 := by
  obtain ⟨extents, hextents, h⟩ := bind_eq_ok_iff.1 h
  obtain ⟨size, hsize, h⟩ := bind_eq_ok_iff.1 h
  obtain rfl := Except.ok.inj h
  obtain ⟨-, hle, hdvd⟩ := align_eq_ok hsize
  have hzero : ∀ o ∈ extents.map fun _ => 0, o = 0 := by simp
  refine ⟨extents, mapM_eq_ok hextents, ⟨by simp, fun {i offset e} he ho => ?_, rfl, hdvd⟩, hzero⟩
  obtain rfl := hzero offset (List.mem_of_getElem? ho)
  refine ⟨Nat.dvd_zero _, ?_⟩
  rw [Nat.zero_add]
  exact (le_largest (f := Prod.fst) (List.mem_of_getElem? he)).trans hle

/-! ## Faults -/

section

variable {faults : Fault → Prop} (hoverflow : ∀ fault : Fault, fault.IsOverflow → faults fault)
  (hmeasure : ∀ m ∈ members, FaultsIn faults (measure m))

include hoverflow hmeasure

/-- Placing members faults as aligning does. -/
theorem placeMembers_faults
    (halign : ∀ m ∈ members, ∀ e, measure m = .ok e → ∀ n, FaultsIn faults (align n e.2))
    (a : Allocator) : FaultsIn faults (placeMembers measure a members) := by
  induction members generalizing a with
  | nil => exact .ok _
  | cons m ms ih =>
    refine (hmeasure m (by simp)).bind fun e he => ?_
    have hplace : FaultsIn faults (a.placeUp e.1 e.2) :=
      (halign m (by simp) e he _).bind fun _ _ =>
        ((Checked.add_faults _ _).mono hoverflow).bind fun _ _ => .ok _
    refine hplace.bind fun r _ => ?_
    refine (ih ?_ ?_ r.1).bind fun _ _ => .ok _
    · exact fun m hm => hmeasure m (by simp [hm])
    · exact fun m hm => halign m (by simp [hm])

/-- A struct whose members can be measured and placed stops only when its size leaves the range. -/
theorem ofStruct_faults
    (halign : ∀ m ∈ members, ∀ e, measure m = .ok e → ∀ n, FaultsIn faults (align n e.2)) :
    FaultsIn faults (ofStruct measure members) := by
  refine (placeMembers_faults hoverflow hmeasure halign _).bind fun r hr => ?_
  obtain ⟨extents, -, -, hmax⟩ := placeMembers_eq_ok hr
  have hpos' : 0 < r.1.maxAlignment := by
    rw [hmax]
    exact start_le_largest
  exact ((align_faults _ hpos').mono hoverflow).bind fun _ _ => .ok _

theorem ofUnion_faults : FaultsIn faults (ofUnion measure members) := by
  refine (FaultsIn.mapM hmeasure).bind fun extents _ => ?_
  have hpos' : 0 < largest Prod.snd 1 extents := start_le_largest
  exact ((align_faults _ hpos').mono hoverflow).bind fun _ _ => .ok _

end

/-! ## Measuring -/

section

variable {stops : Fault → Prop} {measure' : α → Except Fault (Nat × Nat)}
  (h : ∀ m ∈ members, AgreesUnless stops (measure m) (measure' m))

include h

/-- Placing agrees where measuring does. -/
theorem placeMembers_agrees (a : Allocator) :
    AgreesUnless stops (placeMembers measure a members) (placeMembers measure' a members) := by
  induction members generalizing a with
  | nil => exact .refl _
  | cons m ms ih =>
    refine (h m List.mem_cons_self).bind fun _ _ => AgreesUnless.bind (.refl _) fun r _ => ?_
    exact (ih (fun m hm => h m (List.mem_cons_of_mem _ hm)) r.1).bind fun _ _ => .refl _

/-- Structs have the same layout as far as their members are measured alike. -/
theorem ofStruct_agrees :
    AgreesUnless stops (ofStruct measure members) (ofStruct measure' members) :=
  (placeMembers_agrees h _).bind fun _ _ => .refl _

theorem ofUnion_agrees : AgreesUnless stops (ofUnion measure members) (ofUnion measure' members) :=
  (AgreesUnless.mapM h).bind fun _ _ => .refl _

end

end Layout

end Backend386
