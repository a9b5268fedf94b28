import Backend386.Proofs.I386.ExprTotal

/-!
# Literals as immediate operands

A literal on the right of an operator is not evaluated: the instruction takes it as it is written.
Any other right operand is widened to the width of the operation first. The two ways leave the same
left operand, and the same right operand exactly if the literal is written as the number that
widening makes of its low bits.

* `Placement.IsWidened` — a literal is written so;
* `Placement.literal_agrees` — this decides whether the two ways agree.
-/

namespace Backend386

namespace Placement

open Machine RegisterClass

variable {p : Placement}

/-- At the width `wide`, a number is what its low bits are widened to. -/
def IsWidened (signed : Bool) (narrow wide : Width) (k : Int64) : Prop :=
  k.toBitVec.setWidth wide.bits =
    extended signed (k.toBitVec.setWidth narrow.bits) wide

/-- Cutting a number needs no widening, however it is written. -/
theorem isWidened_of_le {signed : Bool} {narrow wide : Width} (k : Int64)
    (h : wide.bytes ≤ narrow.bytes) : IsWidened signed narrow wide k := by
  rw [IsWidened, extended_of_fills (.inl h)]
  exact (BitVec.setWidth_setWidth_of_le _ (Nat.mul_le_mul_left 8 h)).symm

theorem valueCode_int_ok {w : Width} (k : Int64) (hw : w ≠ .w64) :
    p.valueCode (.int w k) = .ok [.mov (.int k) (.reg .eax)] := by
  obtain ⟨r, hr⟩ := view_ax_ok hw
  exact bind_eq_ok_iff.2 ⟨r, hr, rfl⟩

/-- Both ways to evaluate the operands of an operator whose right operand is a literal have code,
with the same code for the left operand. -/
theorem literalCode_ok {l : Ir.Expr} {left : Listing} {w w' : Width} (k : Int64) (signed : Bool)
    (hl : p.valueCode l = .ok left) (hw : w ≠ .w64) (hw' : w' ≠ .w64) :
    ∃ first widened rcx,
      operandsCode l (.int w' k) (p.valueCode l) (p.valueCode (.int w' k)) w signed =
        .ok (widened, .int k) ∧
      stackedCode l (.int w' k) (p.valueCode l) (p.valueCode (.int w' k)) w signed =
        .ok (first ++ [.pushEax] ++ widened ++ [.popEcx], .reg rcx) := by
  obtain ⟨el, hel⟩ := extendCode_ok l.width signed (c := .ax) (.inl rfl) hw
  obtain ⟨er, her⟩ := extendCode_ok w' signed (c := .ax) (.inl rfl) hw
  obtain ⟨rcx, hrcx⟩ := view_cx_ok hw
  refine ⟨[.mov (.int k) (.reg .eax)] ++ er, left ++ el, rcx, ?_, ?_⟩
  · exact bind_eq_ok_iff.2 ⟨left, hl, bind_eq_ok_iff.2 ⟨el, hel, rfl⟩⟩
  · refine bind_eq_ok_iff.2 ⟨_, valueCode_int_ok k hw', bind_eq_ok_iff.2 ⟨er, her,
      bind_eq_ok_iff.2 ⟨left, hl, bind_eq_ok_iff.2 ⟨el, hel, bind_eq_ok_iff.2 ⟨rcx, hrcx, ?_⟩⟩⟩⟩⟩
    simp [pure, Except.pure]

/-- **A literal right operand is taken as it is written.** For every left operand of mixed widths
that is placed, every literal, every width of the operation and both ways of widening, the code with
the immediate and the code that evaluates, widens, pushes and pops the literal leave the same left
value in `eax`. The immediate is what the second leaves in `ecx` exactly if the literal is written
as the number that widening makes of its low bits. -/
theorem literal_agrees {l : Ir.Expr} {w w' : Width} (k : Int64) (signed : Bool) (hl : l.Mixed)
    (hp : p.Locates l) (hreach : p.reach l < 2 ^ 63) (hw : w ≠ .w64) (hw' : w' ≠ .w64)
    (hfit : 4 + 4 * l.depth ≤ 2 ^ 32) :
    ∃ first widened rcx,
      operandsCode l (.int w' k) (p.valueCode l) (p.valueCode (.int w' k)) w signed =
        .ok (widened, .int k) ∧
      stackedCode l (.int w' k) (p.valueCode l) (p.valueCode (.int w' k)) w signed =
        .ok (first ++ [.pushEax] ++ widened ++ [.popEcx], .reg rcx) ∧
      ∀ (σ : Symbols) (s : Machine) {x : BitVec l.width.bits},
        l.eval (p.env σ s (4 + 4 * l.depth)) = some x →
        ∃ s₁ s₂, s.run σ widened = some s₁ ∧
          s.run σ (first ++ [.pushEax] ++ widened ++ [.popEcx]) = some s₂ ∧
          s₁.view .ax w = extended signed x w ∧ s₂.view .ax w = extended signed x w ∧
          s₂.view .cx w = extended signed (k.toBitVec.setWidth w'.bits) w ∧
          (s₁.read σ w (.int k) = some (s₂.view .cx w) ↔ IsWidened signed w' w k) := by
  -- both ways to fetch the right operand run the code of the left one
  obtain ⟨left, hleft⟩ := (mixedCode_ok hl hp hreach).1
  obtain ⟨first, widened, rcx, hliteral, hstacked⟩ := literalCode_ok k signed hleft hw hw'
  refine ⟨first, widened, rcx, hliteral, hstacked, fun σ s x hx => ?_⟩
  have hsound : p.Sound σ l := (mixedCode_spec hl).1
  obtain ⟨s₁, hs₁, hax₁, -, -⟩ :=
    literalOperand_spec hsound hliteral (Nat.le_add_left _ 4) hfit hx
  obtain ⟨s₂, hs₂, hax₂, hcx₂, -, -⟩ :=
    stackedCode_spec hsound (mixedCode_spec (.int hw')).1 hstacked (Nat.zero_le _) (Nat.le_refl _)
      hfit hx rfl
  -- they agree if the literal is read like the register that it would have been in
  refine ⟨s₁, s₂, hs₁, hs₂, hax₁, hax₂, hcx₂, ?_⟩
  rw [hcx₂]
  exact Option.some_inj

/-- A byte compared with a byte is compared with the signed number, however it is written. -/
theorem literal_agrees_byte :
    let p : Placement := ⟨⟨[slotEntity]⟩, ⟨[]⟩⟩
    let s : Machine := {
      regs := fun c => if c = .sp then 4096 else 8192
      memory := fun a => if a = 8188 then 7 else 0
      flags := none }
    ∃ widened s', operandsCode (.var .w8 ⟨0⟩) (.int .w8 255) (p.valueCode (.var .w8 ⟨0⟩))
        (p.valueCode (.int .w8 255)) .w8 true = .ok (widened, .int 255) ∧
      s.run (fun _ => 0) widened = some s' ∧ s'.view .ax .w8 = 7 ∧
      s'.read (fun _ => 0) .w8 (.int 255) = some (-1) := by
  intro p s
  have hp : p.Locates (.var .w8 ⟨0⟩) := ⟨by decide, nofun⟩
  have hbyte : Width.w8 ≠ .w64 := by decide
  obtain ⟨first, widened, rcx, hcode, -, hrun⟩ :=
    literal_agrees 255 true (.var (by decide)) hp (by decide) hbyte hbyte (by decide)
  obtain ⟨s₁, s₂, hs₁, -, hax, -, hcx, hagree⟩ := hrun (fun _ => 0) s (x := 7) (by decide)
  refine ⟨widened, s₁, hcode, hs₁, hax.trans (by decide), ?_⟩
  rw [hagree.2 (isWidened_of_le _ (Nat.le_refl _)), hcx]
  decide

/-- A byte with all bits set, added to a word: the immediate is `-1`, and the general way adds
255. -/
theorem narrow_literal_differs :
    let p : Placement := ⟨⟨[slotEntity]⟩, ⟨[]⟩⟩
    let l : Ir.Expr := .var .w32 ⟨0⟩
    let r : Ir.Expr := .int .w8 (-1)
    let s : Machine := {
      regs := fun c => if c = .sp then 4096 else 8192
      memory := fun a => if a = 8188 then 7 else 0
      flags := none }
    ∃ code code' rhs rcx s₁ s₂,
      operandsCode l r (p.valueCode l) (p.valueCode r) .w32 false = .ok (code, rhs) ∧
      stackedCode l r (p.valueCode l) (p.valueCode r) .w32 false = .ok (code', .reg rcx) ∧
      s.run (fun _ => 0) code = some s₁ ∧ s.run (fun _ => 0) code' = some s₂ ∧
      s₁.read (fun _ => 0) .w32 rhs = some 0xFFFFFFFF ∧ s₂.view .cx .w32 = 0xFF := by
  refine ⟨_, _, _, _, _, _, rfl, rfl, rfl, rfl, ?_, ?_⟩ <;> decide

end Placement

end Backend386
