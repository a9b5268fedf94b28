import Backend386.Fault

/-!
# Checked arithmetic

Sizes and offsets are 64 bit numbers. The operations below give the exact result when it fits and
a fault when it does not; nothing wraps.

* `Checked.add`, `Checked.mul` — on sizes, which are natural numbers below `2 ^ 64`;
* `Checked.signed`, `Checked.addInt`, `Checked.negInt` — on signed offsets;
* `Width.ofBytes` — the width of a value of so many bytes.
-/

namespace Backend386

namespace Checked

/-- The sum of two sizes. -/
def add (a b : Nat) : Except Fault Nat :=
  if a + b < UInt64.size then .ok (a + b) else .error .addOverflow

/-- The product of two sizes. -/
def mul (a b : Nat) : Except Fault Nat :=
  if a * b < UInt64.size then .ok (a * b) else .error .multiplyOverflow

/-- A size as a signed offset. -/
def signed (n : Nat) : Except Fault Int64 :=
  if n < UInt64.size / 2 then .ok (Int64.ofNat n) else .error .addOverflow

/-- The sum of two signed offsets. -/
def addInt (a b : Int64) : Except Fault Int64 :=
  let sum := a.toInt + b.toInt
  if Int64.minValue.toInt ≤ sum ∧ sum ≤ Int64.maxValue.toInt then .ok (a + b)
  else .error .addOverflow

/-- The negation of a signed offset. -/
def negInt (a : Int64) : Except Fault Int64 :=
  if a = Int64.minValue then .error .negateOverflow else .ok (-a)

/-- An addition succeeds when the sum fits in 64 bits. -/
theorem add_eq_ok_iff {a b c : Nat} : add a b = .ok c ↔ a + b = c ∧ c < UInt64.size := by
  unfold add
  split
  · simp only [Except.ok.injEq]; constructor
    · rintro rfl; exact ⟨rfl, by assumption⟩
    · exact fun h => h.1
  · simp only [reduceCtorEq, false_iff]; rintro ⟨rfl, h⟩; contradiction

/-- A multiplication succeeds when the product fits in 64 bits. -/
theorem mul_eq_ok_iff {a b c : Nat} : mul a b = .ok c ↔ a * b = c ∧ c < UInt64.size := by
  unfold mul
  split
  · simp only [Except.ok.injEq]; constructor
    · rintro rfl; exact ⟨rfl, by assumption⟩
    · exact fun h => h.1
  · simp only [reduceCtorEq, false_iff]; rintro ⟨rfl, h⟩; contradiction

theorem signed_eq_ok_iff {n : Nat} {a : Int64} :
    signed n = .ok a ↔ a = Int64.ofNat n ∧ n < UInt64.size / 2 := by
  unfold signed
  split <;> simp_all [eq_comm]

/-- A signed addition succeeds when the sum of the integers does not leave 64 bits. -/
theorem addInt_eq_ok_iff {a b c : Int64} :
    addInt a b = .ok c ↔ c = a + b ∧ Int64.minValue.toInt ≤ a.toInt + b.toInt ∧
      a.toInt + b.toInt ≤ Int64.maxValue.toInt := by
  simp only [addInt]
  split
  · rename_i h
    exact ⟨fun hc => ⟨(Except.ok.inj hc).symm, h⟩, fun hc => congrArg _ hc.1.symm⟩
  · rename_i h
    exact ⟨fun hc => (nomatch hc), fun hc => absurd hc.2 h⟩

theorem negInt_eq_ok_iff {a b : Int64} : negInt a = .ok b ↔ b = -a ∧ a ≠ Int64.minValue := by
  unfold negInt
  split <;> simp_all [eq_comm]

end Checked

/-- The width of a value of `n` bytes; other sizes than 1, 2, 4 and 8 are faults. -/
def Width.ofBytes (n : Nat) : Except Fault Width :=
  match Width.ofBytes? n with
  | some w => .ok w
  | none => .error (.unsupportedSize n)

theorem Width.ofBytes_eq_ok_iff {n : Nat} {w : Width} : Width.ofBytes n = .ok w ↔ w.bytes = n := by
  rw [← Width.ofBytes?_eq_some_iff, Width.ofBytes]
  cases Width.ofBytes? n <;> simp

/-- The view of `c` that holds a value of width `w`. -/
def RegisterClass.view (c : RegisterClass) (w : Width) : Except Fault Register :=
  if h : c.hasView w = true then .ok ⟨c, w, h⟩ else .error (.noView w c)

end Backend386
