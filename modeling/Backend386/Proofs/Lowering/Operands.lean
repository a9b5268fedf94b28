import Backend386.Proofs.Lowering.Meaning

/-!
# Lowering of operands

Literals, variables, constants, operators and conversions have the code of their operands. What is
left of them is one more node on top of what is left of the operands. The right operand of a binary
operator waits while the code of the left one runs, which keeps its value because the operands do
not disturb each other.

* `Lower.CorrectExpr` — the lowering of an expression is correct, whatever constants it names;
* `Lower.correct_int`, `Lower.correct_var`, `Lower.correct_constant` — leaves;
* `Lower.correct_unary`, `Lower.correct_binary`, `Lower.correct_cast` — operators.
-/

namespace Backend386.Lower

open Source (Context Store Evaluation Note Undisturbed)
open Source.Store (Agree)
open Source.Context (type?_eq_some_iff varType?_eq_some_iff)

variable {Γ : Context} {k : Nat} {il : Entity → Source.Expr → Lower Ir.Expr}
  {ie : Source.Expr → Evaluation} {n : Note} {e l r : Source.Expr} {type operand right : IntType}

/-- The lowering of an expression is correct if `il` lowers and `ie` evaluates what constants stand
for. -/
def CorrectExpr (Γ : Context) (k : Nat) (il : Entity → Source.Expr → Lower Ir.Expr)
    (ie : Source.Expr → Evaluation) (e : Source.Expr) (type : IntType) : Prop :=
  Correct Γ (e.mentions Γ k) (e.writes Γ k) type (e.evalUsing Γ ie) (e.lowerUsing il)

/-! ## Leaves -/

/-- An expression without code. -/
theorem Implements.leaf {mentions writes : List EntityId} {evaluation : Evaluation}
    {s : LowerState} {x : Ir.Expr} {f : Store → Ir.Value} (hw : x.width = type.width)
    (hx : ∀ v ∈ x.entities, v.index < s.entities.size ∧ v ∈ mentions)
    (hf : ∀ τ, evaluation τ = some (f τ, τ))
    (hv : ∀ {σ τ}, Agree Γ.entities.size σ τ → x.value? σ = some (f τ)) :
    Implements Γ mentions writes type evaluation s s [] (some x) where
  width := by simpa using hw
  entities := by
    intro x' hx' v hv
    obtain rfl := Option.some.inj hx'
    exact ⟨(hx v hv).1, fun _ => (hx v hv).2⟩
  delivers := by
    intro body post σ τ _ hτ
    rw [hf]
    exact .value .refl .refl hτ (by simpa using hv hτ)

/-- A literal is the low bits of its number. -/
theorem correct_int {v : Int64} (h : Γ.type? n.type = some type) :
    CorrectExpr Γ k il ie (.int n v) type := by
  obtain ⟨id, hid, hint⟩ := type?_eq_some_iff.1 h
  intro d s hs
  refine ⟨some (.int type.width v), s, [], ?_, ?_, fun _ => rfl⟩
  · exact { toEmits := .refl .., run := lowerUsing_int (by rw [hs.types, hid]) (hs.int hint) }
  · exact .leaf rfl (by simp [Ir.Expr.entities]) (fun τ => Source.Expr.evalUsing_int h) fun _ => rfl

/-- What a mention of a variable is lowered to. -/
theorem lowerUsing_var {v : EntityId} {d : Demand} {s : LowerState} (h : Γ.Declares n v type)
    (hs : Ready Γ s) :
    Source.Expr.lowerUsing il d (.var n v) s = .ok (some (.var type.width v), s) := by
  obtain ⟨id, hid, -⟩ := type?_eq_some_iff.1 h.note
  obtain ⟨e, id', he, hc, hty, hint⟩ := varType?_eq_some_iff.1 h.var
  have hdesignated : designated id' v s = .ok (.var type.width v, s) := by
    rw [designated, bind_ok (isByAddress_ok (hs.int hint)), if_neg Bool.false_ne_true,
      bind_ok (width_ok (hs.int hint))]
    rfl
  rw [Source.Expr.lowerUsing, bind_ok (hs.typeId_ok hid), bind_ok (hs.entity_ok he), hc]
  dsimp only
  rw [bind_ok (lift_ok hty), bind_ok hdesignated]
  rfl

/-- A variable is read in the width of its type. -/
theorem correct_var {v : EntityId} (h : Γ.Declares n v type) :
    CorrectExpr Γ k il ie (.var n v) type := by
  have hlt : v.index < Γ.entities.size := Source.Context.index_lt_of_varType? h.var
  have hc : Γ.constant? v = none := Source.Context.constant?_of_varType? h.var
  intro d s hs
  refine ⟨some (.var type.width v), s, [], ?_, ?_, fun _ => rfl⟩
  · exact { toEmits := .refl .., run := lowerUsing_var h hs }
  · refine .leaf (f := fun τ => τ.read v type.width) rfl ?_ (fun τ => ?_) (fun hτ => ?_)
    · intro u hu
      obtain rfl := List.mem_singleton.1 hu
      refine ⟨hlt.trans_le hs.size_le, ?_⟩
      simp [Source.Expr.mentions, Source.Expr.partsWithin_var hc, Source.Expr.var?, hc]
    · simp only [Source.Expr.evalUsing, hc, h.var]
      rfl
    · rw [Ir.Expr.value?_var, hτ.read hlt]

/-- A constant is lowered to what its value is lowered to. -/
theorem correct_constant {c : EntityId} {value : Source.Expr}
    (lowered : Demand → Lower (Option Ir.Expr)) (h : Γ.type? n.type = some type)
    (hc : Γ.constant? c = some value)
    (hl : ∀ e, il e value = do needed value.location (← lowered .value))
    (hv : Correct Γ (value.mentions Γ k) (value.writes Γ k) type (ie value) lowered) :
    CorrectExpr Γ (k + 1) il ie (.var n c) type := by
  obtain ⟨id, hid, -⟩ := type?_eq_some_iff.1 h
  obtain ⟨e, he, hvalue⟩ := Option.bind_eq_some_iff.1 hc
  intro d s hs
  -- the expression of the constant is lowered in its place, with one level less
  obtain ⟨x, s', code, hm, hi⟩ := hv.value hs
  have hmentions : (Source.Expr.var n c).mentions Γ (k + 1) = value.mentions Γ k := by
    rw [Source.Expr.mentions, Source.Expr.partsWithin_constant hc,
      List.filterMap_cons_none (by simp [Source.Expr.var?, hc]), Source.Expr.mentions]
  have hwrites : (Source.Expr.var n c).writes Γ (k + 1) = value.writes Γ k := by
    rw [Source.Expr.writes, Source.Expr.partsWithin_constant hc,
      List.filterMap_cons_none (by simp [Source.Expr.target?]), Source.Expr.writes]
  have heval : ie value = (Source.Expr.var n c).evalUsing Γ ie := by
    funext τ
    simp only [Source.Expr.evalUsing, hc]
  refine ⟨some x, s', code, ?_, ?_, fun _ => rfl⟩
  · simp only [Source.Expr.lowerUsing]
    refine .ask (hs.typeId_ok hid) (.ask (hs.entity_ok he) ?_)
    simp only [hvalue, hl, bind_assoc]
    exact .followed hm (.ask needed_some (.pure ..))
  · rw [hmentions, hwrites, ← heval]
    exact hi

/-! ## Operators -/

/-- Unary plus leaves its operand as it is. -/
theorem correct_plus (h : Γ.type? n.type = some type) (he : CorrectExpr Γ k il ie e type) :
    CorrectExpr Γ k il ie (.unary n .plus e) type := by
  obtain ⟨id, hid, -⟩ := type?_eq_some_iff.1 h
  have heval : Source.Expr.evalUsing Γ ie (.unary n .plus e) = e.evalUsing Γ ie := by
    funext τ
    simp only [Source.Expr.evalUsing, h]
    cases e.evalUsing Γ ie τ <;> rfl
  intro d s hs
  obtain ⟨result, s', code, hm, hi, hv⟩ := he d s hs
  refine ⟨result, s', code, ?_, ?_, hv⟩
  · simp only [Source.Expr.lowerUsing]
    exact .ask (hs.typeId_ok hid) hm
  · rw [heval]
    exact hi.mono (Source.Expr.mentions_subset (by simp)) (Source.Expr.writes_subset (by simp))

/-- A unary operation is the one of the same name. -/
theorem correct_unary {op : Source.UnaryOp} (h : Γ.type? n.type = some type) (hop : op ≠ .plus)
    (he : CorrectExpr Γ k il ie e operand) : CorrectExpr Γ k il ie (.unary n op e) type := by
  obtain ⟨id, hid, hint⟩ := type?_eq_some_iff.1 h
  -- a plus is no operation at all
  obtain ⟨op', hop'⟩ : ∃ op', Ir.Op.ofUnary op = .ok op' := by
    cases op with
    | plus => exact absurd rfl hop
    | _ => exact ⟨_, rfl⟩
  have heval (τ : Store) : Source.Expr.evalUsing Γ ie (.unary n op e) τ =
      (e.evalUsing Γ ie τ).bind fun p => (some (op.value type p.1)).map (·, p.2) := by
    simp only [Source.Expr.evalUsing, h]
    cases e.evalUsing Γ ie τ <;> rfl
  intro d s hs
  obtain ⟨x, s', code, hm, hi⟩ := he.value hs
  have hs' := hs.emits hm.toEmits
  have hparts : e.partsWithin Γ k ⊆ (Source.Expr.unary n op e).partsWithin Γ k := by simp
  replace hi :=
    hi.mono (Source.Expr.mentions_subset hparts) (Source.Expr.writes_subset hparts)
  refine ⟨some (.uni type.width op' x), s', code, ?_, ?_, fun _ => rfl⟩
  · simp only [Source.Expr.lowerUsing]
    refine .ask (hs.typeId_ok hid) ?_
    cases op with
    | plus => exact absurd rfl hop
    | _ =>
      exact .followed hm (.ask needed_some (.ask (width_ok (hs'.int hint))
        (.ask (lift_ok hop') (.pure ..))))
  · constructor
    · simp [Ir.Expr.width]
    · simpa [Ir.Expr.entities] using hi.entities
    · intro body post σ τ hbody hτ
      rw [heval]
      refine (hi.delivers hbody hτ).map (f := fun y => some (op.value type y)) fun _ => ?_
      simp only [Ir.Expr.value?_uni, Source.UnaryOp.value_lowered type hop']

/-- A binary operation is computed from its operands if neither of them disturbs the other. -/
theorem correct_binary {op : Source.BinaryOp} (h : Γ.type? n.type = some type)
    (hnote : Γ.type? l.type = some operand) (hnote' : Γ.type? r.type = some right)
    (hop : op.isComparison = true ∨ operand.width = type.width)
    (hl : CorrectExpr Γ k il ie l operand)
    (hr : CorrectExpr Γ k il ie r operand) (hd : Undisturbed Γ k l r) :
    CorrectExpr Γ k il ie (.binary n op l r) type := by
  obtain ⟨id, hid, hint⟩ := type?_eq_some_iff.1 h
  obtain ⟨idl, hidl, hintl⟩ := type?_eq_some_iff.1 hnote
  obtain ⟨idr, hidr, hintr⟩ := type?_eq_some_iff.1 hnote'
  -- the right operand is evaluated first
  have heval (τ : Store) : Source.Expr.evalUsing Γ ie (.binary n op l r) τ =
      (r.evalUsing Γ ie τ).bind fun p => (l.evalUsing Γ ie p.2).bind fun q =>
        (op.value? type operand q.1 p.1).map (·, q.2) := by
    simp only [Source.Expr.evalUsing, h, hnote]
    cases r.evalUsing Γ ie τ with
    | none => rfl
    | some p =>
      cases hq : l.evalUsing Γ ie p.2 with
      | none => simp [hq]
      | some q => cases hv : op.value? type operand q.1 p.1 <;> simp [hq, hv]
  intro d s hs
  obtain ⟨y, s₁, code₁, hm₁, hi₁⟩ := hr.value hs
  have hs₁ := hs.emits hm₁.toEmits
  obtain ⟨x, s₂, code₂, hm₂, hi₂⟩ := hl.value hs₁
  have hs₂ := hs₁.emits hm₂.toEmits
  let mop := Ir.Op.ofBinary op (if op.isOrdering then operand.signed else type.signed)
  refine ⟨some (.bin type.width mop x y), s₂, code₁ ++ code₂, ?_, ?_, fun _ => rfl⟩
  · simp only [Source.Expr.lowerUsing]
    refine .ask (hs.typeId_ok hid) (.ask (hs.typeId_ok hidl) (.ask (hs.typeId_ok hidr) ?_))
    refine .bind hm₁ (.ask needed_some (.followed (hm₂.mono hm₁.labels) (.ask needed_some ?_)))
    exact .ask (binary_ok (hs₂.int hint) (hs₂.int hintl) (hs₂.int hintr)) (.pure ..)
  -- what the operands mention and write, the whole does
  have hml : l.mentions Γ k ⊆ (Source.Expr.binary n op l r).mentions Γ k :=
    Source.Expr.mentions_subset (by simp)
  have hmr : r.mentions Γ k ⊆ (Source.Expr.binary n op l r).mentions Γ k :=
    Source.Expr.mentions_subset (by simp)
  have hwl : l.writes Γ k ⊆ (Source.Expr.binary n op l r).writes Γ k :=
    Source.Expr.writes_subset (by simp)
  have hwr : r.writes Γ k ⊆ (Source.Expr.binary n op l r).writes Γ k :=
    Source.Expr.writes_subset (by simp)
  have hx := hi₂.entities x rfl
  have hy := hi₁.entities y rfl
  -- the result mentions what its operands do, in states that have grown since
  constructor
  · simp [Ir.Expr.width]
  · intro z hz v hv
    obtain rfl := Option.some.inj hz
    rcases List.mem_append.1 hv with hv | hv
    · exact ⟨(hx v hv).1, fun hlt => hml ((hx v hv).2 (hlt.trans_le hm₁.size_le))⟩
    · exact ⟨(hy v hv).1.trans_le hm₂.size_le, fun hlt => hmr ((hy v hv).2 hlt)⟩
  · intro body post σ τ hbody hτ
    rw [heval, List.append_assoc]
    have hmid : body = s₁.function.body.toList ++ (code₂ ++ post) := by
      rw [hbody, hm₂.body, List.append_assoc]
    refine Delivers.pair (f := op.value? type operand) hm₁.size_le hwl
      ((hi₁.delivers hmid hτ).mono le_rfl hwr) (hi₂.delivers hbody) (fun hk => ?_) fun σ' => ?_
    · -- the left operand writes no variable that the right one mentions, and no temporary
      refine hk.value? (fun v hv => (hy v hv).1) fun v hv hlt hw => ?_
      exact hd hw ((hy v hv).2 (hlt.trans_le hs.size_le))
    · rw [Ir.Expr.value?_bin]
      cases ha : x.value? σ' with
      | none => rfl
      | some a =>
        cases hb : y.value? σ' with
        | none => rfl
        | some b =>
          have hwa : a.1 = operand.width := (Ir.Expr.width_of_value? ha).trans (hi₂.width x rfl)
          have hwb : b.1 = operand.width := (Ir.Expr.width_of_value? hb).trans (hi₁.width y rfl)
          exact Source.BinaryOp.value?_lowered hwa hwb hop

/-- A conversion between integer types. Where the width stays, nothing is made for it. -/
theorem correct_cast {source : IntType} (h : Γ.type? n.type = some type)
    (hnote : Γ.type? e.type = some source) (he : CorrectExpr Γ k il ie e source) :
    CorrectExpr Γ k il ie (.cast n e) type := by
  obtain ⟨id, hid, hint⟩ := type?_eq_some_iff.1 h
  obtain ⟨id', hid', hint'⟩ := type?_eq_some_iff.1 hnote
  have heval (τ : Store) : Source.Expr.evalUsing Γ ie (.cast n e) τ =
      (e.evalUsing Γ ie τ).bind fun p => (some (source.convert type p.1)).map (·, p.2) := by
    simp only [Source.Expr.evalUsing, h, hnote]
    cases e.evalUsing Γ ie τ <;> rfl
  have hmentions : e.mentions Γ k ⊆ (Source.Expr.cast n e).mentions Γ k :=
    Source.Expr.mentions_subset (by simp)
  have hwrites : e.writes Γ k ⊆ (Source.Expr.cast n e).writes Γ k :=
    Source.Expr.writes_subset (by simp)
  intro d s hs
  have hvoid : ask (·.isVoid id) s = .ok (false, s) :=
    ask_ok (TypeTable.isVoid_of_int (hs.int hint))
  have hchanges := castChanges_ok (hs.int hint') (hs.int hint)
  -- between types of one width nothing is converted
  by_cases hw : source.width = type.width
  · obtain ⟨result, s', code, hm, hi, hv⟩ := he d s hs
    replace hi := hi.mono hmentions hwrites
    refine ⟨result, s', code, ?_, ?_, hv⟩
    · simp only [Source.Expr.lowerUsing]
      refine .ask (hs.typeId_ok hid) (.ask hvoid (.ask (hs.typeId_ok hid') (.ask hchanges ?_)))
      simpa [hw] using hm
    · refine ⟨fun x hx => (hi.width x hx).trans hw, hi.entities, ?_⟩
      intro body post σ τ hbody hτ
      rw [heval]
      refine (hi.delivers hbody hτ).same fun x hx {σ' a} ha => ?_
      exact IntType.convert_of_width hw ((Ir.Expr.width_of_value? ha).trans (hi.width x hx))
  -- otherwise the sign of the source decides
  · obtain ⟨x, s', code, hm, hi⟩ := he.value hs
    have hs' := hs.emits hm.toEmits
    replace hi := hi.mono hmentions hwrites
    have hsigned : ask (·.isSigned id') s = .ok (source.signed, s) :=
      ask_ok (TypeTable.isSigned_of_int (hs.int hint'))
    refine ⟨some (.uni type.width (if source.signed then .sCast else .uCast) x), s', code, ?_, ?_,
      fun _ => rfl⟩
    · simp only [Source.Expr.lowerUsing]
      refine .ask (hs.typeId_ok hid) (.ask hvoid (.ask (hs.typeId_ok hid') (.ask hchanges ?_)))
      rw [decide_eq_true hw, if_pos rfl]
      exact .ask hsigned (.ask (width_ok (hs.int hint))
        (.followed hm (.ask needed_some (.pure ..))))
    · constructor
      · simp [Ir.Expr.width]
      · simpa [Ir.Expr.entities] using hi.entities
      · intro body post σ τ hbody hτ
        rw [heval]
        refine (hi.delivers hbody hτ).map (f := fun y => some (source.convert type y)) ?_
        intro σ' _
        rw [Ir.Expr.value?_uni]
        cases ha : x.value? σ' with
        | none => rfl
        | some a =>
          exact IntType.value_cast ((Ir.Expr.width_of_value? ha).trans (hi.width x rfl))

end Backend386.Lower
