import Mathlib.Algebra.Group.Nat.Defs
import Mathlib.Order.Bounds.Basic
import Mathlib.Tactic.Set
import Backend386.Proofs.Types.Layout

/-!
# Layouts are the least ones

Over unbounded numbers, putting every member of a struct at the first place that its alignment
allows gives the least layout: no other placement has a member before. The layouts that are computed
are these, where they fit.

Rounding adds the alignment before it divides. The sum leaves the 64 bit range where the least
multiple does, and once more: for a number that is itself a multiple, one alignment below the end of
the range.

* `roundUp` — the least multiple;
* `Layout.greedy`, `Layout.greedyEnd` — the first places, and where the last member ends;
* `Layout.IsLeastStruct`, `Layout.IsLeastUnion` — no layout is below;
* `RoundsTo` — what a computation gives that ends by rounding up;
* `Layout.least_or_overflow` — structs, unions and rounding.
-/

namespace Backend386

/-! ## Rounding up -/

/-- The least multiple of a positive `a` that is not below `n`. -/
def roundUp (n a : Nat) : Nat := (n + a - 1) / a * a

section

variable {n m a b : Nat}

theorem dvd_roundUp : a ∣ roundUp n a := Nat.dvd_mul_left ..

/-- Rounding up stops at the first multiple. -/
theorem roundUp_le (ha : 0 < a) (hle : n ≤ m) (hdvd : a ∣ m) : roundUp n a ≤ m := by
  obtain ⟨q, rfl⟩ := hdvd
  have hlt : n + a - 1 < a * (q + 1) := by
    rw [Nat.mul_succ]
    omega
  have hdiv : (n + a - 1) / a ≤ q := Nat.le_of_lt_succ (Nat.div_lt_of_lt_mul hlt)
  calc roundUp n a ≤ q * a := Nat.mul_le_mul_right a hdiv
    _ = a * q := Nat.mul_comm ..

theorem isLeast_roundUp (n : Nat) (ha : 0 < a) : IsLeast {m | n ≤ m ∧ a ∣ m} (roundUp n a) :=
  ⟨⟨le_roundUp n ha, dvd_roundUp⟩, fun _ h => roundUp_le ha h.1 h.2⟩

theorem roundUp_of_dvd (ha : 0 < a) (hdvd : a ∣ n) : roundUp n a = n :=
  Nat.le_antisymm (roundUp_le ha (Nat.le_refl n) hdvd) (le_roundUp n ha)

theorem roundUp_mono (ha : 0 < a) (hle : n ≤ m) : roundUp n a ≤ roundUp m a :=
  roundUp_le ha (hle.trans (le_roundUp m ha)) dvd_roundUp

/-- Below a common multiple, rounding up stays below it exactly when one more alignment fits. -/
theorem roundUp_lt_iff (ha : 0 < a) (hdvd : a ∣ b) : roundUp n a < b ↔ n + a ≤ b := by
  constructor
  · intro hlt
    have hroom : a ≤ b - roundUp n a :=
      Nat.le_of_dvd (Nat.sub_pos_of_lt hlt) (Nat.dvd_sub hdvd dvd_roundUp)
    have hle : n ≤ roundUp n a := le_roundUp n ha
    omega
  · intro hle
    have hround : roundUp n a ≤ b - a :=
      roundUp_le ha (Nat.le_sub_of_add_le hle) (Nat.dvd_sub hdvd (Nat.dvd_refl a))
    omega

/-- Aligning rounds up, unless the sum that it forms on the way overflows. -/
theorem align_eq (n : Nat) (ha : 0 < a) :
    align n a = if n + a < UInt64.size then .ok (roundUp n a) else .error .addOverflow := by
  unfold align
  rw [if_neg ha.ne']
  by_cases hlt : n + a < UInt64.size
  · have hle : (n + a - 1) / a * a < UInt64.size := by
      have hdiv := Nat.div_mul_le_self (n + a - 1) a
      omega
    have hadd : Checked.add n a = .ok (n + a) := if_pos hlt
    have hmul : Checked.mul ((n + a - 1) / a) a = .ok (roundUp n a) := if_pos hle
    rw [if_pos hlt, hadd]
    exact hmul
  · have hadd : Checked.add n a = .error .addOverflow := if_neg hlt
    rw [if_neg hlt, hadd]
    rfl

/-- What is made from a number that was rounded up. -/
theorem align_then {β : Type} (n : Nat) (ha : 0 < a) (f : Nat → β) :
    (do let m ← align n a; return f m) =
      if n + a < UInt64.size then .ok (f (roundUp n a)) else .error .addOverflow := by
  rw [align_eq n ha]
  split <;> rfl

end

/-- The result of a computation that ends by rounding `n` up to a multiple of `a`, which gives
`size`. It is the value if the size is in range, and an overflow if it is not. The edge is the
exception: a multiple that lies one alignment below the end of the range overflows too. -/
structure RoundsTo {α : Type} (n a size : Nat) (value : α) (result : Except Fault α) : Prop where
  off_edge : n + a ≠ UInt64.size →
    result = if size < UInt64.size then .ok value else .error .addOverflow
  at_edge : n + a = UInt64.size → size = n ∧ result = .error .addOverflow

/-- A result that fails only where that sum overflows is one of rounding up. -/
theorem RoundsTo.of_eq {α : Type} {n a : Nat} {value : α} {result : Except Fault α} (ha : 0 < a)
    (hdvd : a ∣ UInt64.size)
    (h : result = if n + a < UInt64.size then .ok value else .error .addOverflow) :
    RoundsTo n a (roundUp n a) value result := by
  have hiff := roundUp_lt_iff (n := n) ha hdvd
  constructor
  · intro hne
    have hlt : n + a < UInt64.size ↔ roundUp n a < UInt64.size := by omega
    rw [h, if_congr hlt rfl rfl]
  · intro heq
    have hmultiple : a ∣ n := by
      rw [← heq] at hdvd
      exact (Nat.dvd_add_left (Nat.dvd_refl a)).1 hdvd
    exact ⟨roundUp_of_dvd ha hmultiple, by rw [h, if_neg (by omega)]⟩

theorem align_eq_ok_iff {n a m : Nat} (ha : 0 < a) :
    align n a = .ok m ↔ n + a < UInt64.size ∧ roundUp n a = m := by
  rw [align_eq n ha]
  split <;> simp_all

/-- A number that was rounded up stays as it is when it is rounded again, off the edge. -/
theorem align_idempotent {n a m : Nat} (ha : 0 < a) (hdvd : a ∣ UInt64.size)
    (h : align n a = .ok m) (hne : m + a ≠ UInt64.size) : align m a = .ok m := by
  obtain ⟨hlt, rfl⟩ := (align_eq_ok_iff ha).1 h
  have hself : roundUp (roundUp n a) a = roundUp n a := roundUp_of_dvd ha dvd_roundUp
  have hsmall : roundUp n a < UInt64.size := (roundUp_lt_iff ha hdvd).2 hlt.le
  have hroom : roundUp n a + a ≤ UInt64.size := (roundUp_lt_iff ha hdvd).1 (by rwa [hself])
  exact (align_eq_ok_iff ha).2 ⟨by omega, hself⟩

theorem align_mono {n n' a m' : Nat} (ha : 0 < a) (hle : n ≤ n') (h : align n' a = .ok m') :
    roundUp n a ≤ m' ∧ align n a = .ok (roundUp n a) := by
  obtain ⟨hlt, rfl⟩ := (align_eq_ok_iff ha).1 h
  exact ⟨roundUp_mono ha hle, (align_eq_ok_iff ha).2 ⟨by omega, rfl⟩⟩

theorem two_pow_dvd_size {k : Nat} (hk : k < 64) : 2 ^ k ∣ UInt64.size :=
  Nat.pow_dvd_pow 2 hk.le

namespace Layout

variable {extents : List (Nat × Nat)}

/-! ## The first places -/

/-- Where members stand when each takes the first place that its alignment allows. -/
def greedy : Nat → List (Nat × Nat) → List Nat
  | _, [] => []
  | lo, (size, alignment) :: es =>
    roundUp lo alignment :: greedy (roundUp lo alignment + size) es

/-- Where the last of them ends. -/
def greedyEnd : Nat → List (Nat × Nat) → Nat
  | lo, [] => lo
  | lo, (size, alignment) :: es => greedyEnd (roundUp lo alignment + size) es

/-- Placing each part as soon as possible places all of them. -/
theorem greedy_placed (hpos : ∀ e ∈ extents, 0 < e.2) (lo : Nat) :
    Placed lo extents (greedy lo extents) (greedyEnd lo extents) := by
  induction extents generalizing lo with
  | nil => exact .nil
  | cons e es ih =>
    exact .cons (le_roundUp lo (hpos e (by simp))) dvd_roundUp
      (ih (fun e he => hpos e (by simp [he])) _)

/-- No placement has a member before its first place. -/
theorem greedy_le (hpos : ∀ e ∈ extents, 0 < e.2) {lo lo' hi : Nat} {offsets : List Nat}
    (hplaced : Placed lo' extents offsets hi) (hle : lo ≤ lo') :
    List.Forall₂ (· ≤ ·) (greedy lo extents) offsets ∧ greedyEnd lo extents ≤ hi := by
  induction hplaced generalizing lo with
  | nil => exact ⟨.nil, hle⟩
  | cons hle' hdvd _ ih =>
    have hfirst := roundUp_le (hpos _ List.mem_cons_self) (hle.trans hle') hdvd
    obtain ⟨hrest, hend⟩ :=
      ih (fun e he => hpos e (by simp [he])) (Nat.add_le_add_right hfirst _)
    exact ⟨.cons hfirst hrest, hend⟩

/-! ## The least layouts -/

/-- The layout of a struct that is below all others; its last member ends at `hi`. -/
structure IsLeastStruct (extents : List (Nat × Nat)) (l : Layout) (hi : Nat) : Prop where
  placed : Placed 0 extents l.offsets hi
  offsets_le : ∀ {offsets : List Nat} {hi' : Nat}, Placed 0 extents offsets hi' →
    List.Forall₂ (· ≤ ·) l.offsets offsets
  alignment : IsGreatest {a | a = 1 ∨ ∃ e ∈ extents, e.2 = a} l.alignment
  size : IsLeast {size | hi ≤ size ∧ l.alignment ∣ size} l.size

/-- The layout of a union that is below all others; its largest member ends at `hi`. -/
structure IsLeastUnion (extents : List (Nat × Nat)) (l : Layout) (hi : Nat) : Prop where
  offsets_eq : l.offsets = extents.map fun _ => 0
  largest : IsGreatest {n | n = 0 ∨ ∃ e ∈ extents, e.1 = n} hi
  alignment : IsGreatest {a | a = 1 ∨ ∃ e ∈ extents, e.2 = a} l.alignment
  size : IsLeast {size | hi ≤ size ∧ l.alignment ∣ size} l.size

/-- The largest is the greatest of a list and its start. -/
theorem isGreatest_largest (f : Nat × Nat → Nat) (start : Nat) (extents : List (Nat × Nat)) :
    IsGreatest {n | n = start ∨ ∃ e ∈ extents, f e = n} (largest f start extents) := by
  refine ⟨largest_of (P := fun n => n = start ∨ ∃ e ∈ extents, f e = n) (.inl rfl) ?_, ?_⟩
  · exact fun e he => .inr ⟨e, he, rfl⟩
  · rintro n (rfl | ⟨e, he, rfl⟩)
    · exact start_le_largest
    · exact le_largest he

/-- A placement says where its last member ends. -/
theorem Placed.end_eq {lo hi hi' : Nat} {offsets : List Nat} (h : Placed lo extents offsets hi)
    (h' : Placed lo extents offsets hi') : hi = hi' := by
  induction h with
  | nil =>
    cases h'
    rfl
  | cons _ _ _ ih =>
    cases h' with
    | cons _ _ rest => exact ih rest

/-- There is one least layout of a struct. -/
theorem IsLeastStruct.unique {l l' : Layout} {hi hi' : Nat} (h : IsLeastStruct extents l hi)
    (h' : IsLeastStruct extents l' hi') : l = l' := by
  have hoffsets : l.offsets = l'.offsets := by
    have hle := h.offsets_le h'.placed
    have hge := h'.offsets_le h.placed
    refine List.ext_get hle.length_eq fun i hi₁ hi₂ => ?_
    exact Nat.le_antisymm (hle.get hi₁ hi₂) (hge.get hi₂ hi₁)
  have hend : hi = hi' := by
    have hplaced := h.placed
    rw [hoffsets] at hplaced
    exact hplaced.end_eq h'.placed
  have halignment := h.alignment.unique h'.alignment
  have hsize : l.size = l'.size := by
    have hleast := h.size
    rw [hend, halignment] at hleast
    exact hleast.unique h'.size
  cases l
  cases l'
  simp_all

/-- The least layout of a struct, over unbounded numbers. -/
def leastStruct (extents : List (Nat × Nat)) : Layout where
  alignment := largest Prod.snd 1 extents
  size := roundUp (greedyEnd 0 extents) (largest Prod.snd 1 extents)
  offsets := greedy 0 extents

/-- The least layout of a union, over unbounded numbers. -/
def leastUnion (extents : List (Nat × Nat)) : Layout where
  alignment := largest Prod.snd 1 extents
  size := roundUp (largest Prod.fst 0 extents) (largest Prod.snd 1 extents)
  offsets := extents.map fun _ => 0

theorem largest_pos : 0 < largest Prod.snd 1 extents := start_le_largest

/-- The layout of a struct is the least one. -/
theorem isLeastStruct (hpos : ∀ e ∈ extents, 0 < e.2) :
    IsLeastStruct extents (leastStruct extents) (greedyEnd 0 extents) where
  placed := greedy_placed hpos 0
  offsets_le := fun hplaced => (greedy_le hpos hplaced (Nat.le_refl 0)).1
  alignment := isGreatest_largest Prod.snd 1 extents
  size := isLeast_roundUp _ largest_pos

/-- So is that of a union. -/
theorem isLeastUnion (extents : List (Nat × Nat)) :
    IsLeastUnion extents (leastUnion extents) (largest Prod.fst 0 extents) where
  offsets_eq := rfl
  largest := isGreatest_largest Prod.fst 0 extents
  alignment := isGreatest_largest Prod.snd 1 extents
  size := isLeast_roundUp _ largest_pos

/-- There is one least layout. -/
theorem IsLeastUnion.unique {l l' : Layout} {hi hi' : Nat} (h : IsLeastUnion extents l hi)
    (h' : IsLeastUnion extents l' hi') : l = l' := by
  have hend := h.largest.unique h'.largest
  have halignment := h.alignment.unique h'.alignment
  have hsize : l.size = l'.size := by
    have hleast := h.size
    rw [hend, halignment] at hleast
    exact hleast.unique h'.size
  have hoffsets := h.offsets_eq.trans h'.offsets_eq.symm
  cases l
  cases l'
  simp_all

/-! ## What is computed -/

variable {α : Type} {measure : α → Except Fault (Nat × Nat)} {members : List α}

theorem le_greedyEnd (hpos : ∀ e ∈ extents, 0 < e.2) (lo : Nat) : lo ≤ greedyEnd lo extents :=
  (greedy_placed hpos lo).le

/-- Placing members gives the first places, or overflows before the whole would. -/
theorem placeMembers_eq_or (hmeasured : Measured measure members extents)
    (hpos : ∀ e ∈ extents, 0 < e.2) (a : Allocator) :
    placeMembers measure a members = .ok
        (⟨greedyEnd a.used extents, largest Prod.snd a.maxAlignment extents⟩,
          greedy a.used extents) ∨
      placeMembers measure a members = .error .addOverflow ∧
        UInt64.size ≤ greedyEnd a.used extents + largest Prod.snd a.maxAlignment extents := by
  -- by induction on the members: either each is placed where the greedy order has it, or a sum
  -- overflows on the way, and the end lies behind that sum
  induction hmeasured generalizing a with
  | nil => exact .inl rfl
  | @cons m e ms es hm _ ih =>
    obtain ⟨size, alignment⟩ := e
    have hpos' : ∀ e ∈ es, 0 < e.2 := fun e he => hpos e (by simp [he])
    have halign := align_eq a.used (hpos (size, alignment) (by simp))
    set offset := roundUp a.used alignment with hoffset
    have hend : offset + size ≤ greedyEnd a.used ((size, alignment) :: es) :=
      le_greedyEnd hpos' _
    have hlargest : alignment ≤ largest Prod.snd a.maxAlignment ((size, alignment) :: es) :=
      le_largest (f := Prod.snd) (b := (size, alignment)) (by simp)
    have hle : a.used ≤ offset := le_roundUp _ (hpos (size, alignment) (by simp))
    simp only [placeMembers, hm, bind, Except.bind, Allocator.placeUp, halign]
    -- aligning the offset may overflow, and so may adding the size
    by_cases hfirst : a.used + alignment < UInt64.size
    · by_cases hsum : offset + size < UInt64.size
      · have hadd : Checked.add offset size = .ok (offset + size) := if_pos hsum
        rcases ih hpos' ⟨offset + size, max a.maxAlignment alignment⟩ with hrest | ⟨hrest, hover⟩
        · left
          simp only [if_pos hfirst, hadd, pure, Except.pure, hrest]
          rfl
        · right
          simp only [if_pos hfirst, hadd, pure, Except.pure, hrest]
          exact ⟨trivial, hover⟩
      · right
        have hadd : Checked.add offset size = .error .addOverflow := if_neg hsum
        simp only [if_pos hfirst, hadd]
        exact ⟨trivial, by omega⟩
    · right
      simp only [if_neg hfirst]
      exact ⟨trivial, by omega⟩

/-- A struct is laid out so, if the last sum does not overflow. -/
theorem ofStruct_eq (hmeasured : Measured measure members extents)
    (hpos : ∀ e ∈ extents, 0 < e.2) :
    ofStruct measure members =
      if greedyEnd 0 extents + (leastStruct extents).alignment < UInt64.size then
        .ok (leastStruct extents)
      else .error .addOverflow := by
  rcases placeMembers_eq_or hmeasured hpos {} with hplace | ⟨hplace, hover⟩
  · rw [ofStruct, hplace]
    exact align_then (a := largest Prod.snd 1 extents) (greedyEnd 0 extents) largest_pos
      fun size => Layout.mk size (largest Prod.snd 1 extents) (greedy 0 extents)
  · have hnot : ¬ greedyEnd 0 extents + (leastStruct extents).alignment < UInt64.size :=
      Nat.not_lt.2 hover
    rw [if_neg hnot, ofStruct, hplace]
    rfl

/-- So is a union. -/
theorem ofUnion_eq (hmeasured : Measured measure members extents) :
    ofUnion measure members =
      if largest Prod.fst 0 extents + (leastUnion extents).alignment < UInt64.size then
        .ok (leastUnion extents)
      else .error .addOverflow := by
  have hextents : members.mapM measure = .ok extents := by
    induction hmeasured with
    | nil => rfl
    | cons hm _ ih => simp only [List.mapM_cons, hm, ih]; rfl
  rw [ofUnion, hextents]
  exact align_then (a := largest Prod.snd 1 extents) (largest Prod.fst 0 extents) largest_pos
    fun size => Layout.mk size (largest Prod.snd 1 extents) (extents.map fun _ => 0)

/-! ## Least, or out of range -/

/-- A struct or a union whose alignments are powers of two gets the least layout if its size is in
range, and overflows if it is not. Rounding up gives the least multiple in the same way, and is
idempotent and monotone where it gives one. At the edge of the range all of them overflow as well.
-/
theorem least_or_overflow (hmeasured : Measured measure members extents)
    (hpow : ∀ e ∈ extents, ∃ k < 64, e.2 = 2 ^ k) :
    (∃ l hi, IsLeastStruct extents l hi ∧
      RoundsTo hi l.alignment l.size l (ofStruct measure members)) ∧
    (∃ l hi, IsLeastUnion extents l hi ∧
      RoundsTo hi l.alignment l.size l (ofUnion measure members)) ∧
    ∀ n k, k < 64 → ∃ m, IsLeast {m | n ≤ m ∧ 2 ^ k ∣ m} m ∧
      RoundsTo n (2 ^ k) m m (align n (2 ^ k)) ∧
      (align n (2 ^ k) = .ok m → m + 2 ^ k ≠ UInt64.size → align m (2 ^ k) = .ok m) ∧
      ∀ n' m', n ≤ n' → align n' (2 ^ k) = .ok m' → m ≤ m' ∧ align n (2 ^ k) = .ok m := by
  -- alignments are powers of two, so they are positive, and divide the range
  have hpos : ∀ e ∈ extents, 0 < e.2 := by
    intro e he
    obtain ⟨k, -, heq⟩ := hpow e he
    rw [heq]
    exact Nat.two_pow_pos k
  have hdvd : largest Prod.snd 1 extents ∣ UInt64.size := by
    refine largest_of (P := (· ∣ UInt64.size)) (Nat.one_dvd _) fun e he => ?_
    obtain ⟨k, hk, heq⟩ := hpow e he
    rw [heq]
    exact two_pow_dvd_size hk
  refine ⟨⟨leastStruct extents, greedyEnd 0 extents, isLeastStruct hpos, ?_⟩,
    ⟨leastUnion extents, largest Prod.fst 0 extents, isLeastUnion extents, ?_⟩, fun n k hk => ?_⟩
  · exact .of_eq largest_pos hdvd (ofStruct_eq hmeasured hpos)
  · exact .of_eq largest_pos hdvd (ofUnion_eq hmeasured)
  · have ha := Nat.two_pow_pos k
    have hdvd := two_pow_dvd_size hk
    refine ⟨roundUp n (2 ^ k), isLeast_roundUp n ha, .of_eq ha hdvd (align_eq n ha), ?_, ?_⟩
    · exact align_idempotent ha hdvd
    · exact fun n' m' hle h => align_mono ha hle h

/-- A member of 4 bytes behind one of a single byte leaves a gap. -/
theorem least_or_overflow_padded :
    (∃ l hi, IsLeastStruct [(1, 1), (4, 4), (2, 2)] l hi ∧
      RoundsTo hi l.alignment l.size l (ofStruct .ok [(1, 1), (4, 4), (2, 2)])) ∧
    ofStruct .ok [(1, 1), (4, 4), (2, 2)] = .ok ⟨12, 4, [0, 4, 8]⟩ := by
  have hmeasured : Measured .ok [(1, 1), (4, 4), (2, 2)] [(1, 1), (4, 4), (2, 2)] :=
    .cons rfl (.cons rfl (.cons rfl .nil))
  refine ⟨(least_or_overflow hmeasured ?_).1, by decide⟩
  intro e he
  have hmem : e = (1, 1) ∨ e = (4, 4) ∨ e = (2, 2) := by simpa using he
  rcases hmem with rfl | rfl | rfl
  · exact ⟨0, by decide, rfl⟩
  · exact ⟨2, by decide, rfl⟩
  · exact ⟨1, by decide, rfl⟩

/-- One member that fills the range up to its last multiple of 4 has a layout in range, which is
refused. The same multiple comes out of rounding up, but cannot be rounded up itself. -/
theorem edge_refused :
    (∃ l hi, IsLeastStruct [(2 ^ 64 - 4, 4)] l hi ∧ l.size < 2 ^ 64 ∧
      ofStruct .ok [(2 ^ 64 - 4, 4)] ≠ .ok l) ∧
    align (2 ^ 64 - 5) 4 = .ok (2 ^ 64 - 4) ∧ align (2 ^ 64 - 4) 4 = .error .addOverflow := by
  refine ⟨⟨leastStruct [(2 ^ 64 - 4, 4)], 2 ^ 64 - 4, isLeastStruct ?_, ?_, ?_⟩, ?_, ?_⟩
  · simp
  · decide
  · decide
  · decide
  · decide

end Layout

end Backend386
