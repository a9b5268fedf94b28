import Backend386.Proofs.I386.ExprCode

/-!
# Every consistent expression has code

Code generation fails where something is not placed, where a width has no view, and where a
displacement leaves 64 bits. A consistent expression over placed entities only leaves the last one.

* `Placement.Locates` — everything that an expression mentions is placed;
* `Placement.reach` — a bound on the displacements in the code of an expression;
* `Placement.mixedCode_ok`, `Placement.exprCode_ok` — there is code, for operands of different
  widths too;
* `Placement.valueCode_correct` — and it is right.
-/

namespace Backend386

namespace RegisterClass

theorem view_ax_ok {w : Width} (hw : w ≠ .w64) : ∃ r, ax.view w = .ok r :=
  ⟨⟨.ax, w, by cases w <;> first | rfl | contradiction⟩, view_eq_ok_iff.2 ⟨_, rfl⟩⟩

theorem view_cx_ok {w : Width} (hw : w ≠ .w64) : ∃ r, cx.view w = .ok r :=
  ⟨⟨.cx, w, by cases w <;> first | rfl | contradiction⟩, view_eq_ok_iff.2 ⟨_, rfl⟩⟩

end RegisterClass

open RegisterClass

/-! ## Pieces of code -/

/-- There is an instruction for each way of extending a value. -/
theorem extendCode_ok (narrow : Width) (signed : Bool) {c : RegisterClass} {w : Width}
    (hc : c = .ax ∨ c = .cx) (hw : w ≠ .w64) : ∃ code, extendCode c narrow w signed = .ok code := by
  unfold extendCode
  split
  · exact ⟨_, rfl⟩
  · rename_i hlt
    -- what is narrower than `w` has a view as well
    have hn : narrow ≠ .w64 := by
      rintro rfl
      exact hlt (by cases w <;> decide)
    obtain ⟨r, hr⟩ : ∃ r, c.view narrow = .ok r := by
      rcases hc with rfl | rfl
      · exact view_ax_ok hn
      · exact view_cx_ok hn
    obtain ⟨r', hr'⟩ : ∃ r, c.view w = .ok r := by
      rcases hc with rfl | rfl
      · exact view_ax_ok hw
      · exact view_cx_ok hw
    exact ⟨_, bind_eq_ok_iff.2 ⟨r, hr, bind_eq_ok_iff.2 ⟨r', hr', rfl⟩⟩⟩

theorem setCode_ok {c : Condition} {w : Width} (hw : w ≠ .w64) :
    ∃ code, setCode c w = .ok code := by
  obtain ⟨rest, hrest⟩ := extendCode_ok .w8 false (.inl rfl) hw
  exact ⟨_, bind_eq_ok_iff.2 ⟨rest, hrest, rfl⟩⟩

theorem divideCode_ok {w : Width} {signed remainder : Bool} {rhs : Operand} :
    ∃ code, divideCode w signed remainder rhs = .ok code := by
  obtain ⟨l, hl⟩ := extendCode_ok w signed (w := .w32) (.inl rfl) (by decide)
  obtain ⟨r, hr⟩ := extendCode_ok w signed (w := .w32) (.inr rfl) (by decide)
  exact ⟨_, bind_eq_ok_iff.2 ⟨l, hl, bind_eq_ok_iff.2 ⟨r, hr, rfl⟩⟩⟩

/-- There are instructions for each operation on words. -/
theorem applyCode_ok {w : Width} {op : Ir.Op} (rhs : Operand) (hw : w ≠ .w64)
    (hop : op.isCompare = false) (hop' : op.isUnary = false) :
    ∃ code, applyCode w op rhs = .ok code := by
  obtain ⟨r, hr⟩ := view_ax_ok hw
  simp only [applyCode, hr]
  cases op
  case sDiv | sMod | uDiv | uMod => exact divideCode_ok
  case mul | add | sub | bitAnd | bitOr | bitXor | shl | shr | sar => exact ⟨_, rfl⟩
  case neg | bitNot | not | sCast | uCast => cases hop'
  all_goals cases hop

/-- Operands have code if both expressions have. -/
theorem operandsCode_ok (l r : Ir.Expr) (signed : Bool) {left right : Except Fault Listing}
    {w : Width} (hw : w ≠ .w64) (hl : ∃ code, left = .ok code) (hr : ∃ code, right = .ok code) :
    ∃ x, operandsCode l r left right w signed = .ok x := by
  obtain ⟨cl, rfl⟩ := hl
  obtain ⟨cr, rfl⟩ := hr
  obtain ⟨el, hel⟩ := extendCode_ok l.width signed (c := .ax) (.inl rfl) hw
  obtain ⟨er, her⟩ := extendCode_ok r.width signed (c := .ax) (.inl rfl) hw
  obtain ⟨rcx, hrcx⟩ := view_cx_ok hw
  unfold operandsCode
  split
  · exact ⟨_, bind_eq_ok_iff.2 ⟨_, rfl, bind_eq_ok_iff.2 ⟨el, hel, rfl⟩⟩⟩
  · exact ⟨_, bind_eq_ok_iff.2 ⟨_, rfl, bind_eq_ok_iff.2 ⟨er, her, bind_eq_ok_iff.2 ⟨_, rfl,
      bind_eq_ok_iff.2 ⟨el, hel, bind_eq_ok_iff.2 ⟨rcx, hrcx, rfl⟩⟩⟩⟩⟩⟩

/-- So has a binary operation. -/
theorem binaryCode_ok {l r : Ir.Expr} {left right : Except Fault Listing} {w : Width} {op : Ir.Op}
    (hw : w ≠ .w64) (hlw : l.width ≠ .w64) (hop : op.isUnary = false)
    (hl : ∃ code, left = .ok code) (hr : ∃ code, right = .ok code) :
    ∃ code, binaryCode w op l r left right = .ok code := by
  unfold binaryCode
  -- a comparison works in the width of its operands, anything else in that of the result
  split
  · rename_i c hc
    obtain ⟨⟨operands, rhs⟩, hoperands⟩ :=
      operandsCode_ok l r op.isSigned hlw hl hr
    obtain ⟨rax, hrax⟩ := view_ax_ok hlw
    obtain ⟨set, hset⟩ := setCode_ok (c := c) hw
    exact ⟨_, bind_eq_ok_iff.2 ⟨_, bind_eq_ok_iff.2 ⟨_, hoperands,
      bind_eq_ok_iff.2 ⟨rax, hrax, rfl⟩⟩, bind_eq_ok_iff.2 ⟨set, hset, rfl⟩⟩⟩
  · rename_i hc
    have hcmp : op.isCompare = false := by rw [← Ir.Op.isSome_condition?, hc]; rfl
    obtain ⟨⟨operands, rhs⟩, hoperands⟩ :=
      operandsCode_ok l r op.isSigned hw hl hr
    obtain ⟨apply, happly⟩ := applyCode_ok rhs hw hcmp hop
    exact ⟨_, bind_eq_ok_iff.2 ⟨_, hoperands, bind_eq_ok_iff.2 ⟨apply, happly, rfl⟩⟩⟩

/-- So has a unary operation. -/
theorem unaryCode_ok {e : Ir.Expr} {operand : Except Fault Listing} {w : Width} {op : Ir.Op}
    (hw : w ≠ .w64) (hew : e.width ≠ .w64) (hop : op.isUnary = true)
    (he : ∃ code, operand = .ok code) : ∃ code, unaryCode w op e operand = .ok code := by
  obtain ⟨ce, rfl⟩ := he
  obtain ⟨r, hr⟩ := view_ax_ok hw
  obtain ⟨r', hr'⟩ := view_ax_ok hew
  obtain ⟨set, hset⟩ := setCode_ok (c := .e) hw
  cases op
  case neg | bitNot => exact ⟨_, bind_eq_ok_iff.2 ⟨_, rfl, bind_eq_ok_iff.2 ⟨r, hr, rfl⟩⟩⟩
  case not =>
    exact ⟨_, bind_eq_ok_iff.2 ⟨_, rfl, bind_eq_ok_iff.2 ⟨r, hr, bind_eq_ok_iff.2 ⟨r', hr',
      bind_eq_ok_iff.2 ⟨set, hset, rfl⟩⟩⟩⟩⟩
  case sCast =>
    obtain ⟨ext, hext⟩ := extendCode_ok e.width true (.inl rfl) hw
    exact ⟨_, bind_eq_ok_iff.2 ⟨_, rfl, bind_eq_ok_iff.2 ⟨r, hr,
      bind_eq_ok_iff.2 ⟨ext, hext, rfl⟩⟩⟩⟩
  case uCast =>
    obtain ⟨ext, hext⟩ := extendCode_ok e.width false (.inl rfl) hw
    exact ⟨_, bind_eq_ok_iff.2 ⟨_, rfl, bind_eq_ok_iff.2 ⟨r, hr,
      bind_eq_ok_iff.2 ⟨ext, hext, rfl⟩⟩⟩⟩
  all_goals cases hop

/-! ## References -/

/-- A displacement that stays within 64 bits, and how far it can get. -/
theorem MemRef.moveBy_ok {m : MemRef} {k : Int64} {n : Nat}
    (h : m.offset.toInt.natAbs + k.toInt.natAbs ≤ n) (hn : n < 2 ^ 63) :
    ∃ m', m.moveBy k = .ok m' ∧ m'.offset.toInt.natAbs ≤ n := by
  have hmin := Int64.toInt_minValue
  have hmax := Int64.toInt_maxValue
  have hadd : Checked.addInt m.offset k = .ok (m.offset + k) :=
    Checked.addInt_eq_ok_iff.2 ⟨rfl, by omega, by omega⟩
  have hsum : (m.offset + k).toInt = m.offset.toInt + k.toInt := by
    rw [Int64.toInt_add]
    exact Int.bmod_eq_of_le (by omega) (by omega)
  refine ⟨{ m with offset := m.offset + k }, bind_eq_ok_iff.2 ⟨_, hadd, rfl⟩, ?_⟩
  simp only [hsum]
  omega

/-- Only the least integer has no negation, and it is out of reach. -/
theorem negInt_ok {k : Int64} (h : k.toInt.natAbs < 2 ^ 63) :
    ∃ k', Checked.negInt k = .ok k' ∧ k'.toInt.natAbs = k.toInt.natAbs := by
  have hne : k ≠ Int64.minValue := by
    rintro rfl
    rw [Int64.toInt_minValue] at h
    omega
  have hneg : (-k).toInt = -k.toInt := by
    rw [Int64.toInt_neg]
    exact Int.bmod_eq_of_le (by omega) (by omega)
  exact ⟨-k, Checked.negInt_eq_ok_iff.2 ⟨rfl, hne⟩, by rw [hneg, Int.natAbs_neg]⟩

namespace Placement

variable {p : Placement}

/-- Every entity that an expression mentions is placed, and every string literal has a label. -/
structure Locates (p : Placement) (e : Ir.Expr) : Prop where
  entities : ∀ v ∈ e.entities, (p.spot? v).isSome = true
  literals : ∀ i ∈ e.literals, ∃ m, p.strings.memory i = .ok m

/-- How far the displacement of a reference can get: the literals of the expression and the offsets
of the slots it mentions, all added up. -/
def reach (p : Placement) : Ir.Expr → Nat
  | .int _ k => k.toInt.natAbs
  | .addr _ v =>
    match p.spot? v with
    | some (.slot k) => k.toInt.natAbs
    | _ => 0
  | .mem _ a => p.reach a
  | .uni _ _ e => p.reach e
  | .bin _ _ l r => p.reach l + p.reach r
  | _ => 0

theorem Locates.left {w : Width} {op : Ir.Op} {l r : Ir.Expr} (h : p.Locates (.bin w op l r)) :
    p.Locates l :=
  ⟨fun v hv => h.entities v (List.mem_append_left _ hv),
    fun i hi => h.literals i (List.mem_append_left _ hi)⟩

theorem Locates.right {w : Width} {op : Ir.Op} {l r : Ir.Expr} (h : p.Locates (.bin w op l r)) :
    p.Locates r :=
  ⟨fun v hv => h.entities v (List.mem_append_right _ hv),
    fun i hi => h.literals i (List.mem_append_right _ hi)⟩

/-- A placed entity, with its storage. -/
theorem entity_of_isSome {v : EntityId} (h : (p.spot? v).isSome = true) :
    ∃ e spot, p.entities.get v = .ok e ∧ p.spot? v = some spot ∧ e.spot? = some spot := by
  obtain ⟨spot, hspot⟩ := Option.isSome_iff_exists.1 h
  obtain ⟨e, he, hs⟩ := spot?_eq_some_iff.1 hspot
  exact ⟨e, spot, he, hspot, hs⟩

/-- Looking for a reference that takes no code succeeds, and what is found is within reach. -/
theorem direct?_ok {e : Ir.Expr} (he : e.Mixed) (hp : p.Locates e)
    (hreach : p.reach e < 2 ^ 63) :
    ∃ m?, p.direct? e = .ok m? ∧ ∀ m, m? = some m → m.offset.toInt.natAbs ≤ p.reach e := by
  -- by induction on the expression: the offset of an address is no larger than the constants in it
  induction he with
  | int | var | mem | sign | not | cast => exact ⟨none, rfl, fun _ h => nomatch h⟩
  | @str w i hw =>
    obtain ⟨m, hm⟩ := hp.literals i (List.mem_singleton.2 rfl)
    refine ⟨some m, bind_eq_ok_iff.2 ⟨m, hm, rfl⟩, ?_⟩
    obtain ⟨e, l, -, -, rfl⟩ := StringTable.memory_eq_ok_iff.1 hm
    rintro _ ⟨⟩
    exact Nat.zero_le _
  | @addr w v hw =>
    obtain ⟨e, spot, he, hspot, hs⟩ := entity_of_isSome (hp.entities v (List.mem_singleton.2 rfl))
    cases spot with
    | slot k =>
      have hst := Entity.getStorage_eq_ok_iff.2 (Entity.storage_of_slot hs)
      refine ⟨_, bind_eq_ok_iff.2 ⟨e, he, bind_eq_ok_iff.2 ⟨_, hst, rfl⟩⟩, ?_⟩
      rintro _ ⟨⟩
      simp [reach, hspot, MemRef.based]
    | data l =>
      have hst := Entity.getStorage_eq_ok_iff.2 (Entity.storage_of_data hs)
      refine ⟨_, bind_eq_ok_iff.2 ⟨e, he, bind_eq_ok_iff.2 ⟨_, hst, rfl⟩⟩, ?_⟩
      rintro _ ⟨⟩
      exact Nat.zero_le _
    | code f =>
      have hst := Entity.getStorage_eq_ok_iff.2 (Entity.storage_of_code hs).1
      exact ⟨_, bind_eq_ok_iff.2 ⟨e, he, bind_eq_ok_iff.2 ⟨_, hst, rfl⟩⟩, fun _ h => nomatch h⟩
  | @compare w op l r hw hop =>
    refine ⟨none, ?_, fun _ h => nomatch h⟩
    unfold direct?
    split <;> simp_all [Ir.Op.isCompare]
  | @arithmetic w op l r hw hop hop' hl hr hlw hrw hlit ihl ihr =>
    -- the right operand is the literal that the base is moved by
    have hsum : p.reach (.bin w op l r) = p.reach l + p.reach r := rfl
    obtain ⟨m?, hm, hm?⟩ := ihl hp.left (by omega)
    unfold direct?
    split <;> rename_i heq
    · cases heq
    · cases heq
    · cases heq
      cases m? with
      | none => exact ⟨none, bind_eq_ok_iff.2 ⟨_, hm, rfl⟩, fun _ h => nomatch h⟩
      -- the offset can be moved, since it stays within the reach of the sum
      | some m =>
        obtain ⟨m', hm', hle⟩ := MemRef.moveBy_ok (Nat.add_le_add_right (hm? m rfl) _) hreach
        refine ⟨some m', bind_eq_ok_iff.2 ⟨_, hm, bind_eq_ok_iff.2 ⟨m', hm', rfl⟩⟩, ?_⟩
        rintro _ ⟨⟩
        exact hle
    · rename_i base w' k
      cases heq
      cases m? with
      | none => exact ⟨none, bind_eq_ok_iff.2 ⟨_, hm, rfl⟩, fun _ h => nomatch h⟩
      | some m =>
        -- the literal can be negated, since it lies within the reach as well
        obtain ⟨k', hk', hsame⟩ := negInt_ok (Nat.lt_of_le_of_lt (Nat.le_add_left _ _) hreach)
        have hm₀ := Nat.add_le_add_right (hm? m rfl) k.toInt.natAbs
        obtain ⟨m', hm', hle⟩ := MemRef.moveBy_ok (m := m) (k := k') (by rwa [hsame]) hreach
        refine ⟨some m', bind_eq_ok_iff.2 ⟨_, hm, bind_eq_ok_iff.2 ⟨k', hk',
          bind_eq_ok_iff.2 ⟨m', hm', rfl⟩⟩⟩, ?_⟩
        rintro _ ⟨⟩
        exact hle
    · exact ⟨none, rfl, fun _ h => nomatch h⟩

/-- There is code for an expression, in both of its uses. -/
def HasCode (p : Placement) (e : Ir.Expr) : Prop :=
  (∃ code, p.valueCode e = .ok code) ∧
    ∃ code m, p.addressCode e = .ok (code, m) ∧ m.offset.toInt.natAbs ≤ p.reach e

/-- Where there is code for the value, there is code for the address, unless the address is shifted
by a constant. -/
theorem hasCode_of_value {e : Ir.Expr} (he : e.Mixed) (hp : p.Locates e)
    (hreach : p.reach e < 2 ^ 63) (hvalue : ∃ code, p.valueCode e = .ok code)
    (hbase : ∀ {w w' a k}, e = .bin w .add a (.int w' k) → p.HasCode a) : p.HasCode e := by
  refine ⟨hvalue, ?_⟩
  -- an address is direct, or continued from a base, or computed as a value
  obtain ⟨m?, hm, hm?⟩ := direct?_ok he hp hreach
  obtain ⟨code, hcode⟩ := hvalue
  cases m? with
  | some m =>
    refine ⟨[], m, ?_, hm? m rfl⟩
    -- a direct address needs no code
    cases e <;> exact bind_eq_ok_iff.2 ⟨_, hm, rfl⟩
  | none =>
    cases e
    case bin w op l r =>
      -- a sum with a constant moves the address of its base
      by_cases hshift : ∃ w' k, op = .add ∧ r = .int w' k
      · obtain ⟨w', k, rfl, rfl⟩ := hshift
        obtain ⟨-, code', m₀, hc, hle⟩ := hbase rfl
        obtain ⟨m', hm', hle'⟩ := MemRef.moveBy_ok (Nat.add_le_add_right hle k.toInt.natAbs) hreach
        exact ⟨code', m', bind_eq_ok_iff.2 ⟨_, hm, bind_eq_ok_iff.2 ⟨_, hc,
          bind_eq_ok_iff.2 ⟨m', hm', rfl⟩⟩⟩, hle'⟩
      -- anything else is a base itself
      · refine ⟨code, .based .eax 0, bind_eq_ok_iff.2 ⟨_, hm, ?_⟩, Nat.zero_le _⟩
        dsimp only
        split
        · rename_i hs
          split at hs
          · exact absurd ⟨_, _, rfl, rfl⟩ hshift
          · cases hs
        · exact bind_eq_ok_iff.2 ⟨code, hcode, rfl⟩
    all_goals exact ⟨code, .based .eax 0, bind_eq_ok_iff.2 ⟨_, hm,
      bind_eq_ok_iff.2 ⟨code, hcode, rfl⟩⟩, Nat.zero_le _⟩

/-- The address of an entity has code if the entity is kept anywhere. -/
theorem entityAddressCode_ok {v : EntityId} (h : (p.spot? v).isSome = true) :
    ∃ code, p.entityAddressCode v = .ok code := by
  obtain ⟨e, spot, he, -, hs⟩ := entity_of_isSome h
  cases spot with
  | slot k =>
    have hst := Entity.getStorage_eq_ok_iff.2 (Entity.storage_of_slot hs)
    have ha : e.address? = .ok none := bind_eq_ok_iff.2 ⟨_, hst, rfl⟩
    exact ⟨_, bind_eq_ok_iff.2 ⟨e, he, bind_eq_ok_iff.2 ⟨_, hst, bind_eq_ok_iff.2 ⟨_, ha, rfl⟩⟩⟩⟩
  | data l =>
    have hst := Entity.getStorage_eq_ok_iff.2 (Entity.storage_of_data hs)
    have ha : e.address? = .ok (some (.symbol l)) := bind_eq_ok_iff.2 ⟨_, hst, rfl⟩
    exact ⟨_, bind_eq_ok_iff.2 ⟨e, he, bind_eq_ok_iff.2 ⟨_, hst, bind_eq_ok_iff.2 ⟨_, ha, rfl⟩⟩⟩⟩
  | code f =>
    obtain ⟨hst, hf⟩ := Entity.storage_of_code hs
    have hst := Entity.getStorage_eq_ok_iff.2 hst
    have ha : e.address? = .ok (some (.symbol f)) :=
      bind_eq_ok_iff.2 ⟨_, hst, by simp only [hf, if_true]; rfl⟩
    exact ⟨_, bind_eq_ok_iff.2 ⟨e, he, bind_eq_ok_iff.2 ⟨_, hst, bind_eq_ok_iff.2 ⟨_, ha, rfl⟩⟩⟩⟩

/-- There is code for every expression of mixed widths over placed entities, unless a displacement
leaves 64 bits. -/
theorem mixedCode_ok {e : Ir.Expr} (he : e.Mixed) (hp : p.Locates e)
    (hreach : p.reach e < 2 ^ 63) : p.HasCode e := by
  -- by induction on the expression: a piece of code for each operator, and the access from
  -- `hasCode_of_value`
  induction he with
  | @int w v hw =>
    obtain ⟨r, hr⟩ := view_ax_ok hw
    exact hasCode_of_value (.int hw) hp hreach ⟨_, bind_eq_ok_iff.2 ⟨r, hr, rfl⟩⟩
      fun h => nomatch h
  | @str w i hw =>
    obtain ⟨r, hr⟩ := view_ax_ok hw
    obtain ⟨m, hm⟩ := hp.literals i (List.mem_singleton.2 rfl)
    exact hasCode_of_value (.str hw) hp hreach ⟨_, bind_eq_ok_iff.2 ⟨r, hr,
      bind_eq_ok_iff.2 ⟨m.render, bind_eq_ok_iff.2 ⟨m, hm, rfl⟩, rfl⟩⟩⟩ fun h => nomatch h
  | @var w v hw =>
    obtain ⟨r, hr⟩ := view_ax_ok hw
    obtain ⟨e, spot, he, -, hs⟩ := entity_of_isSome (hp.entities v (List.mem_singleton.2 rfl))
    obtain ⟨storage, hst⟩ : ∃ storage, e.getStorage = .ok storage := by
      cases spot with
      | slot => exact ⟨_, Entity.getStorage_eq_ok_iff.2 (Entity.storage_of_slot hs)⟩
      | data => exact ⟨_, Entity.getStorage_eq_ok_iff.2 (Entity.storage_of_data hs)⟩
      | code => exact ⟨_, Entity.getStorage_eq_ok_iff.2 (Entity.storage_of_code hs).1⟩
    exact hasCode_of_value (.var hw) hp hreach ⟨_, bind_eq_ok_iff.2 ⟨r, hr,
      bind_eq_ok_iff.2 ⟨e, he, bind_eq_ok_iff.2 ⟨storage, hst, rfl⟩⟩⟩⟩ fun h => nomatch h
  | @addr w v hw =>
    obtain ⟨r, hr⟩ := view_ax_ok hw
    obtain ⟨code, hcode⟩ := entityAddressCode_ok (hp.entities v (List.mem_singleton.2 rfl))
    exact hasCode_of_value (.addr hw) hp hreach ⟨code, bind_eq_ok_iff.2 ⟨r, hr, hcode⟩⟩
      fun h => nomatch h
  | @mem w a hw ha haw hwhole ih =>
    obtain ⟨r, hr⟩ := view_ax_ok hw
    obtain ⟨-, code, m, hcode, -⟩ := ih ⟨hp.entities, hp.literals⟩ hreach
    exact hasCode_of_value (.mem hw ha haw hwhole) hp hreach ⟨_, bind_eq_ok_iff.2 ⟨r, hr,
      bind_eq_ok_iff.2 ⟨(code, m), hcode, rfl⟩⟩⟩ fun h => nomatch h
  | @sign w op e hw hop he hwidth ih =>
    have hu : op.isUnary = true := by rcases hop with rfl | rfl <;> rfl
    obtain ⟨r, hr⟩ := view_ax_ok hw
    obtain ⟨code, hcode⟩ :=
      unaryCode_ok hw he.width_ne hu (ih ⟨hp.entities, hp.literals⟩ hreach).1
    exact hasCode_of_value (.sign hw hop he hwidth) hp hreach
      ⟨code, bind_eq_ok_iff.2 ⟨r, hr, hcode⟩⟩ fun h => nomatch h
  | @not w e hw he ih =>
    obtain ⟨r, hr⟩ := view_ax_ok hw
    have hu : Ir.Op.not.isUnary = true := rfl
    obtain ⟨code, hcode⟩ :=
      unaryCode_ok hw he.width_ne hu (ih ⟨hp.entities, hp.literals⟩ hreach).1
    exact hasCode_of_value (.not hw he) hp hreach ⟨code, bind_eq_ok_iff.2 ⟨r, hr, hcode⟩⟩
      fun h => nomatch h
  | @cast w op e hw hop he ih =>
    have hu : op.isUnary = true := by rcases hop with rfl | rfl <;> rfl
    obtain ⟨r, hr⟩ := view_ax_ok hw
    obtain ⟨code, hcode⟩ :=
      unaryCode_ok hw he.width_ne hu (ih ⟨hp.entities, hp.literals⟩ hreach).1
    exact hasCode_of_value (.cast hw hop he) hp hreach
      ⟨code, bind_eq_ok_iff.2 ⟨r, hr, hcode⟩⟩ fun h => nomatch h
  | @compare w op l r hw hop hl hr hrw hlit ihl ihr =>
    have hu : op.isUnary = false := by cases op <;> first | rfl | cases hop
    have hsum : p.reach (.bin w op l r) = p.reach l + p.reach r := rfl
    obtain ⟨rax, hrax⟩ := view_ax_ok hw
    obtain ⟨code, hcode⟩ := binaryCode_ok hw hl.width_ne hu (ihl hp.left (by omega)).1
      (ihr hp.right (by omega)).1
    refine hasCode_of_value (.compare hw hop hl hr hrw hlit) hp hreach
      ⟨code, bind_eq_ok_iff.2 ⟨rax, hrax, hcode⟩⟩ ?_
    -- a comparison is no sum
    rintro _ _ _ _ ⟨⟩
    cases hop
  | @arithmetic w op l r hw hop hop' hl hr hlw hrw hlit ihl ihr =>
    have hsum : p.reach (.bin w op l r) = p.reach l + p.reach r := rfl
    obtain ⟨rax, hrax⟩ := view_ax_ok hw
    have hleft := ihl hp.left (by omega)
    obtain ⟨code, hcode⟩ := binaryCode_ok hw hl.width_ne hop' hleft.1 (ihr hp.right (by omega)).1
    refine hasCode_of_value (.arithmetic hw hop hop' hl hr hlw hrw hlit) hp hreach
      ⟨code, bind_eq_ok_iff.2 ⟨rax, hrax, hcode⟩⟩ ?_
    -- a sum is: its base has the code by induction
    rintro _ _ _ _ ⟨⟩
    exact hleft

/-- **There is code for every consistent expression** over placed entities, unless a displacement
leaves 64 bits. -/
theorem exprCode_ok {e : Ir.Expr} (he : e.Consistent) (hp : p.Locates e)
    (hreach : p.reach e < 2 ^ 63) : p.HasCode e :=
  mixedCode_ok he.mixed hp hreach

/-- **The code of an expression computes its value.** Of the state, only `eax`, `ecx`, `edx`, the
flags and the bytes under the stack pointer change; `e` has a value if it reads none of these bytes,
divides by no zero, overflows no quotient and shifts by less than its width. The words put aside
have to fit into memory at all; where the stack pointer leaves room for them, nothing at or above
it changes. -/
theorem valueCode_correct {e : Ir.Expr} (he : e.Consistent) (hp : p.Locates e)
    (hfit : 4 * e.depth ≤ 2 ^ 32) :
    (p.reach e < 2 ^ 63 → ∃ code, p.valueCode e = .ok code) ∧
    ∀ {code : Listing}, p.valueCode e = .ok code →
      ∀ (σ : Symbols) (s : Machine) {v : BitVec e.width.bits},
        e.eval (p.env σ s (4 * e.depth)) = some v →
        ∃ s', s.run σ code = some s' ∧ s'.view .ax e.width = v ∧
          s'.regs .sp = s.regs .sp ∧ s'.regs .bp = s.regs .bp ∧
          (∀ a, ¬ Below (s.regs .sp) (4 * e.depth) a → s'.memory a = s.memory a) ∧
          (4 * e.depth ≤ (s.regs .sp).toNat → ∀ a, s.regs .sp ≤ a → s'.memory a = s.memory a) := by
  refine ⟨fun hreach => (exprCode_ok he hp hreach).1, fun hcode σ s v hv => ?_⟩
  obtain ⟨s', hs', hview, hk⟩ := (exprCode_spec he).1 (Nat.le_refl _) hfit hv hcode
  refine ⟨s', hs', hview, hk.sp, hk.bp, fun _ ha => hk.memory ha, fun hroom a ha => ?_⟩
  exact hk.memory (Below.not_of_le hroom ha)

/-- A variable, four bytes under the frame base. -/
def slotEntity : Entity where
  name := "x"
  ref := default
  kind := .definedVariable none
  storage := .settled (.memory (.based .ebp (-4)))

/-- A difference of a long chain of sums is compiled, and its code computes it. -/
theorem valueCode_correct_difference :
    let p : Placement := ⟨⟨[slotEntity]⟩, ⟨[]⟩⟩
    let e : Ir.Expr := .bin .w32 .sub (.int .w32 10) (.var .w32 ⟨0⟩)
    let s : Machine := {
      regs := fun c => if c = .sp then 4096 else 8192
      memory := fun a => if a = 8188 then 7 else 0
      flags := none }
    ∃ code s', p.valueCode e = .ok code ∧ s.run (fun _ => 0) code = some s' ∧
      s'.view .ax .w32 = 3 ∧ s'.regs .sp = 4096 ∧ s'.memory 4096 = 0 := by
  intro p e s
  have he : e.Consistent :=
    .arithmetic (by decide) rfl rfl (.int (by decide)) (.var (by decide)) rfl rfl
  have hp : p.Locates e := ⟨by decide, nofun⟩
  have hcorrect := valueCode_correct he hp (by decide)
  obtain ⟨code, hcode⟩ := hcorrect.1 (by decide)
  obtain ⟨s', hs', hview, hsp, -, -, hmem⟩ := hcorrect.2 hcode (fun _ => 0) s (v := 3) (by decide)
  exact ⟨code, s', hcode, hs', hview, hsp, hmem (by decide) 4096 (by decide)⟩

end Placement

end Backend386
