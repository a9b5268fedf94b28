import Backend386.Proofs.Lowering.Operands

/-!
# Lowering of assignments

An assignment becomes a store to its variable. Where its value is used, the value waits in a
temporary, apart from that of a compound assignment and of a prefix step, which is read from the
variable again.

* `Lower.correct_assign` — assignments;
* `Lower.correct_opAssign`, `Lower.correct_preStep`, `Lower.correct_postStep` — updates.
-/

namespace Backend386.Lower

open Source (Context Store Evaluation Note)
open Source.Store (Agree)
open Source.Context (type?_eq_some_iff index_lt_of_varType? constant?_of_varType?)

variable {Γ : Context} {k : Nat} {il : Entity → Source.Expr → Lower Ir.Expr}
  {ie : Source.Expr → Evaluation} {n m : Note} {r : Source.Expr} {v : EntityId}
  {type noted : IntType} {s : LowerState}

/-! ## Pieces -/

/-- A temporary holds what was stored in it. -/
theorem value?_var_write {σ : Store} {x : Ir.Value} {w : Width} (h : x.1 = w) :
    (Ir.Expr.var w v).value? (σ.write v x) = some x := by
  rw [Ir.Expr.value?_var, ← h, Store.read_write]

theorem value?_var_write_of_ne {σ : Store} {x : Ir.Value} {w : Width} {u : EntityId} (h : u ≠ v) :
    (Ir.Expr.var w u).value? (σ.write v x) = (Ir.Expr.var w u).value? σ := by
  rw [Ir.Expr.value?_var, Ir.Expr.value?_var, Store.read, Store.read, σ.write_of_ne h]

/-- A variable that is read has an address of its own. -/
theorem objectAddress_ok {id : TypeId} {place : Option Location} {ptr w : Width} (hs : Ready Γ s)
    (hint : Γ.types.intType? id = some type) (hptr : pointerWidth s = .ok (ptr, s)) :
    objectAddress place id (.var w v) s = .ok (.addr ptr v, s) := by
  rw [objectAddress, bind_ok (isByAddress_ok (hs.int hint)), if_neg Bool.false_ne_true,
    bind_ok hptr]
  rfl

/-- The width of a pointer is the same everywhere. -/
theorem Ready.pointer (hs : Ready Γ s) :
    ∃ ptr, ∀ {s'}, Ready Γ s' → pointerWidth s' = .ok (ptr, s') := by
  obtain ⟨ptr, hptr⟩ := hs.pointerWidth_ok
  refine ⟨ptr, fun {s'} hs' => ?_⟩
  rw [pointerWidth, bind_ok (x := s') rfl, hs'.types]
  rw [pointerWidth, bind_ok (x := s) rfl, hs.types] at hptr
  cases hw : Width.ofBytes Γ.types.profile.pointerSize with
  | error _ =>
    rw [hw] at hptr
    cases hptr
  | ok w =>
    rw [hw] at hptr
    cases hptr
    rfl

/-- A value that waits in a new temporary. -/
theorem makes_storeTemporary {lo : Nat} {id : TypeId} {ref : TypeRef} {loc : Option Location}
    {ptr : Width} {x : Ir.Expr} (href : s.types.refOf id = .ok ref)
    (hptr : pointerWidth (s.takeTemporary id ref) = .ok (ptr, s.takeTemporary id ref)) :
    Makes lo (storeTemporary loc id x) s ⟨s.entities.size⟩
      ((s.takeTemporary id ref).push ⟨.assign (.addr ptr ⟨s.entities.size⟩) x, loc⟩)
      [⟨.assign (.addr ptr ⟨s.entities.size⟩) x, loc⟩] := by
  rw [storeTemporary]
  exact .take (makes_temporary href) (.ask hptr (.followed makes_store (.pure ..)))

/-! ## Assignments -/

theorem eval_assign {τ : Store} : Source.Expr.evalUsing Γ ie (.assign n (.var m v) r) τ =
    (r.evalUsing Γ ie τ).bind fun p => some (p.1, p.2.write v p.1) := by
  simp only [Source.Expr.evalUsing]
  cases r.evalUsing Γ ie τ <;> rfl

/-- For its effects alone, an assignment is its operand and a store. -/
theorem Implements.assign_effects {s₁ : LowerState} {code : List Ir.Stmt} {y : Ir.Expr}
    (ptr : Width) (hv : Γ.Declares m v type)
    (hi : Implements Γ (r.mentions Γ k) (r.writes Γ k) type (r.evalUsing Γ ie) s s₁ code (some y)) :
    Implements Γ ((Source.Expr.assign n (.var m v) r).mentions Γ k)
      ((Source.Expr.assign n (.var m v) r).writes Γ k) type
      ((Source.Expr.assign n (.var m v) r).evalUsing Γ ie) s
      (s₁.push ⟨.assign (.addr ptr v) y, n.location⟩)
      (code ++ [⟨.assign (.addr ptr v) y, n.location⟩]) none where
  width := by simp
  entities := by simp
  delivers := by
    intro body post σ τ hbody hτ
    let store : Ir.Stmt := ⟨.assign (.addr ptr v) y, n.location⟩
    have hlt : v.index < Γ.entities.size := index_lt_of_varType? hv.var
    have hw : v ∈ (Source.Expr.assign n (.var m v) r).writes Γ k := Source.Expr.mem_writes rfl
    have hwrites : r.writes Γ k ⊆ (Source.Expr.assign n (.var m v) r).writes Γ k :=
      Source.Expr.writes_subset (by simp)
    have hmid : body = s₁.function.body.toList ++ store :: post := by
      simp [hbody, store]
    rw [eval_assign, List.append_assoc]
    -- it fails with its operand, or stores what the operand is worth
    rcases (hi.delivers hmid hτ).used fun σ' hy => Ir.fails_assign hy with
      ⟨hout, hf⟩ | ⟨x, τ', σ', hout, hrun, hk, hτ', hx⟩
    · rw [hout]
      exact .fails hf
    · rw [hout]
      exact .value (hrun.trans (Ir.runs_assign hx))
        ((hk.mono le_rfl hwrites).trans (.write_mem hlt hw x)) (hτ'.write v x) (by simp)

/-- Where its value is asked for, it goes to a temporary first, and from there to the variable. -/
theorem Implements.assign_value {id : TypeId} {ref : TypeRef} {s₁ : LowerState}
    {code : List Ir.Stmt} {y : Ir.Expr} (ptr : Width) (hs : Ready Γ s) (hv : Γ.Declares m v type)
    (hsize : s.entities.size + 1 ≤ s₁.entities.size)
    (hi : Implements Γ (r.mentions Γ k) (r.writes Γ k) type (r.evalUsing Γ ie)
      (s.takeTemporary id ref) s₁ code (some y)) :
    Implements Γ ((Source.Expr.assign n (.var m v) r).mentions Γ k)
      ((Source.Expr.assign n (.var m v) r).writes Γ k) type
      ((Source.Expr.assign n (.var m v) r).evalUsing Γ ie) s
      ((s₁.push ⟨.assign (.addr ptr ⟨s.entities.size⟩) y, r.location⟩).push
        ⟨.assign (.addr ptr v) (.var type.width ⟨s.entities.size⟩), m.location⟩)
      (code ++ [⟨.assign (.addr ptr ⟨s.entities.size⟩) y, r.location⟩,
        ⟨.assign (.addr ptr v) (.var type.width ⟨s.entities.size⟩), m.location⟩])
      (some (.var type.width ⟨s.entities.size⟩)) where
  width := by simp [Ir.Expr.width]
  -- the temporary is new, so the expression mentions nothing else
  entities := by
    intro x hx u hu
    obtain rfl := Option.some.inj hx
    obtain rfl := List.mem_singleton.1 hu
    exact ⟨hsize, fun h => absurd h (Nat.lt_irrefl _)⟩
  delivers := by
    intro body post σ τ hbody hτ
    let tmp : EntityId := ⟨s.entities.size⟩
    let keep : Ir.Stmt := ⟨.assign (.addr ptr tmp) y, r.location⟩
    let store : Ir.Stmt := ⟨.assign (.addr ptr v) (.var type.width tmp), m.location⟩
    have hlt : v.index < Γ.entities.size := index_lt_of_varType? hv.var
    have hw : v ∈ (Source.Expr.assign n (.var m v) r).writes Γ k := Source.Expr.mem_writes rfl
    have hwrites : r.writes Γ k ⊆ (Source.Expr.assign n (.var m v) r).writes Γ k :=
      Source.Expr.writes_subset (by simp)
    have htmp : v ≠ tmp := by
      rintro rfl
      exact absurd hs.size_le (Nat.not_le.2 hlt)
    have htaken : s.entities.size ≤ (s.takeTemporary id ref).entities.size := by
      rw [LowerState.size_takeTemporary]
      exact Nat.le_succ _
    have hmid : body = s₁.function.body.toList ++ keep :: store :: post := by
      simp [hbody, keep, store, tmp]
    rw [eval_assign, List.append_assoc]
    rcases (hi.delivers hmid hτ).used fun σ' hy => Ir.fails_assign hy with
      ⟨hout, hf⟩ | ⟨x, τ', σ', hout, hrun, hk, hτ', hx⟩
    · rw [hout]
      exact .fails hf
    · have hwidth : x.1 = type.width := (Ir.Expr.width_of_value? hx).trans (hi.width y rfl)
      have hread : (Ir.Expr.var type.width tmp).value? (σ'.write tmp x) = some x :=
        value?_var_write hwidth
      rw [hout]
      refine .value ((hrun.trans (Ir.runs_assign hx)).trans (Ir.runs_assign hread)) ?_ ?_ ?_
      -- only the variable is written, as the temporary lies beyond all entities
      · exact ((hk.mono htaken hwrites).trans (.write_beyond le_rfl x)).trans
          (.write_mem hlt hw x)
      · exact (hτ'.write_beyond hs.size_le x).write v x
      · intro e he
        obtain rfl := Option.some.inj he
        rw [value?_var_write_of_ne htmp.symm, hread]

/-- The value is computed, stored and, where it is asked for, read back. -/
theorem correct_assign (h : Γ.type? n.type = some noted) (hv : Γ.Declares m v type)
    (hr : CorrectExpr Γ k il ie r type) :
    CorrectExpr Γ k il ie (.assign n (.var m v) r) type := by
  obtain ⟨id, hid, -⟩ := type?_eq_some_iff.1 h
  obtain ⟨id', hid', hint⟩ := type?_eq_some_iff.1 hv.note
  intro d s hs
  obtain ⟨ptr, hptr⟩ := hs.pointer
  have haggregate : ask (·.isAggregate id') s = .ok (false, s) :=
    ask_ok (TypeTable.isAggregate_of_int (hs.int hint))
  -- for its effects alone the value is stored at once; otherwise it is kept in a temporary first
  cases d with
  | effects =>
    obtain ⟨y, s₁, code, hm, hi⟩ := hr.value hs
    have hs₁ := hs.emits hm.toEmits
    refine ⟨none, _, _, ?_, hi.assign_effects ptr hv, by simp⟩
    beta_reduce
    rw [Source.Expr.lowerUsing]
    refine .ask (hs.typeId_ok hid) (.ask (hs.typeId_ok hid') (.ask haggregate ?_))
    refine .bind hm (.ask needed_some (.ask (lowerUsing_var hv hs₁) (.ask needed_some ?_)))
    exact .ask (objectAddress_ok hs₁ hint (hptr hs₁)) (.followed makes_store (.pure ..))
  | value =>
    obtain ⟨ref, href⟩ := TypeTable.refOf_of_int (hs.int hint)
    have hmt : Makes s.labels.next (temporary id') s _ _ [] := makes_temporary href
    have hs₀ := hs.emits hmt.toEmits
    obtain ⟨y, s₁, code, hm, hi⟩ := hr.value hs₀
    have hsize : s.entities.size + 1 ≤ s₁.entities.size := by
      simpa using hm.size_le
    have hs₂ : Ready Γ (s₁.push ⟨.assign (.addr ptr ⟨s.entities.size⟩) y, r.location⟩) :=
      (hs₀.emits hm.toEmits).push rfl
    refine ⟨_, _, _, ?_, hi.assign_value ptr hs hv hsize, fun _ => rfl⟩
    beta_reduce
    rw [Source.Expr.lowerUsing]
    refine .ask (hs.typeId_ok hid) (.ask (hs.typeId_ok hid') (.ask haggregate ?_))
    refine .ask (width_ok (hs.int hint)) (.ask (hptr hs) (.take hmt (.bind hm ?_)))
    refine .ask needed_some (.bind makes_store (.ask (lowerUsing_var hv hs₂) ?_))
    exact .ask needed_some (.ask (objectAddress_ok hs₂ hint (hptr hs₂))
      (.followed makes_store (.pure ..)))

/-! ## Updates -/

/-- An update of a variable is one store. -/
theorem makes_opAssign {lo : Nat} {id : TypeId} {d : Demand} {loc : Option Location} {op : Ir.Op}
    {w ptr : Width} {y : Ir.Expr} (hs : Ready Γ s) (hint : Γ.types.intType? id = some type)
    (hptr : pointerWidth s = .ok (ptr, s)) :
    Makes lo (opAssign d loc op id (.var w v) y) s (d.answer (.var w v))
      (s.push ⟨.assign (.addr ptr v) (.bin w op (.var w v) y), loc⟩)
      [⟨.assign (.addr ptr v) (.bin w op (.var w v) y), loc⟩] := by
  rw [opAssign]
  exact .ask hptr (.ask (arithmetic_ok (hs.int hint)) (.followed makes_store (.pure ..)))

theorem mem_answer {d : Demand} {x y : Ir.Expr} (h : y ∈ d.answer x) : y = x := by
  cases d with
  | effects => simp [Demand.answer] at h
  | value => exact (Option.some.inj h).symm

/-- The store of an update, whose value is read from the variable again. -/
theorem delivers_update {N size : Nat} {d : Demand} {writes : List EntityId}
    {body post : List Ir.Stmt} {loc : Option Location} {σ τ : Store} {ptr : Width} {z : Ir.Expr}
    (hlt : v.index < N) (hw : v ∈ writes) (hτ : Agree N σ τ) :
    Delivers N size writes body (⟨.assign (.addr ptr v) z, loc⟩ :: post) post σ
      (d.answer (.var z.width v)) ((z.value? σ).map fun x => (x, τ.write v x)) := by
  cases hz : z.value? σ with
  | none => exact .fails (Ir.fails_assign hz)
  | some x =>
    refine .value (Ir.runs_assign hz) (.write_mem hlt hw x) (hτ.write v x) fun e he => ?_
    obtain rfl := mem_answer he
    exact value?_var_write (Ir.Expr.width_of_value? hz)

/-- The variable is read after the operand has been computed, and its new value is stored. -/
theorem correct_opAssign {op : Source.BinaryOp} (h : Γ.type? n.type = some noted)
    (hv : Γ.Declares m v type) (hr : CorrectExpr Γ k il ie r type) :
    CorrectExpr Γ k il ie (.opAssign n op (.var m v) r) type := by
  obtain ⟨id, hid, -⟩ := type?_eq_some_iff.1 h
  obtain ⟨id', hid', hint⟩ := type?_eq_some_iff.1 hv.note
  have hlt : v.index < Γ.entities.size := index_lt_of_varType? hv.var
  have hw : v ∈ (Source.Expr.opAssign n op (.var m v) r).writes Γ k := Source.Expr.mem_writes rfl
  have hwrites : r.writes Γ k ⊆ (Source.Expr.opAssign n op (.var m v) r).writes Γ k :=
    Source.Expr.writes_subset (by simp)
  have hmention : v ∈ (Source.Expr.opAssign n op (.var m v) r).mentions Γ k :=
    Source.Expr.mem_mentions (n := m) (by simp [Source.Expr.mem_partsWithin_self])
      (constant?_of_varType? hv.var)
  -- the operation applies to what the variable holds behind the operand, not in front of it
  have heval (τ : Store) : Source.Expr.evalUsing Γ ie (.opAssign n op (.var m v) r) τ =
      (r.evalUsing Γ ie τ).bind fun p =>
        (op.value? type type (p.2.read v type.width) p.1).map fun x => (x, p.2.write v x) := by
    simp only [Source.Expr.evalUsing, hv.var]
    cases r.evalUsing Γ ie τ with
    | none => rfl
    | some p => cases hx : op.value? type type (p.2.read v type.width) p.1 <;> simp [hx]
  intro d s hs
  obtain ⟨ptr, hptr⟩ := hs.pointer
  obtain ⟨y, s₁, code, hm, hi⟩ := hr.value hs
  have hs₁ := hs.emits hm.toEmits
  have hsigned : ask (·.isSigned id') s₁ = .ok (type.signed, s₁) :=
    ask_ok (TypeTable.isSigned_of_int (hs₁.int hint))
  let z : Ir.Expr := .bin type.width (.ofBinary op type.signed) (.var type.width v) y
  let store : Ir.Stmt := ⟨.assign (.addr ptr v) z, n.location⟩
  -- the new value is read back from the variable
  refine ⟨d.answer (.var type.width v), s₁.push store, code ++ [store], ?_, ?_, by rintro rfl; rfl⟩
  · beta_reduce
    rw [Source.Expr.lowerUsing]
    refine .ask (hs.typeId_ok hid) (.ask (hs.typeId_ok hid') (.bind hm (.ask needed_some ?_)))
    exact .ask (lowerUsing_var hv hs₁) (.ask needed_some (.ask hsigned
      (makes_opAssign hs₁ hint (hptr hs₁))))
  · constructor
    -- the result is as wide as the variable, and mentions it alone
    · intro e he
      rw [mem_answer he]
      rfl
    · intro e he u hu
      rw [mem_answer he] at hu
      obtain rfl := List.mem_singleton.1 hu
      exact ⟨hlt.trans_le (hs₁.size_le), fun _ => hmention⟩
    -- what the code does
    · intro body post σ τ hbody hτ
      have hmid : body = s₁.function.body.toList ++ store :: post := by
        simp [hbody]
      -- the operator of the source is the one of the code, as both operands have the width of the
      -- variable
      have hz (σ' : Store) : z.value? σ' = (y.value? σ').bind fun b =>
          op.value? type type (σ'.read v type.width) b := by
        rw [Ir.Expr.value?_bin, Ir.Expr.value?_var, Option.bind_some]
        cases hb : y.value? σ' with
        | none => rfl
        | some b =>
          have hwb : b.1 = type.width := (Ir.Expr.width_of_value? hb).trans (hi.width y rfl)
          have hlowered := @Source.BinaryOp.value?_lowered op type type (σ'.read v type.width) b
            rfl hwb (.inr rfl)
          rw [ite_self] at hlowered
          exact hlowered
      rw [heval, List.append_assoc]
      rcases (hi.delivers hmid hτ).used fun σ' hy =>
          Ir.fails_assign (by rw [hz, hy]; rfl) with
        ⟨hout, hf⟩ | ⟨b, τ', σ', hout, hrun, hk, hτ', hb⟩
      · rw [hout]
        exact .fails hf
      -- behind the operand both stores hold the same in the variable
      · have hx : z.value? σ' = op.value? type type (τ'.read v type.width) b := by
          rw [hz, hb, Option.bind_some, hτ'.read hlt]
        rw [hout, Option.bind_some, ← hx]
        exact .after hrun (hk.mono le_rfl hwrites) (delivers_update hlt hw hτ')

/-- The value of a variable after a step. -/
theorem value?_step {op : Source.StepOp} {σ : Store} {u : EntityId} {w : Width} :
    (Ir.Expr.bin w (.ofStep op) (.var w u) (.int w 1)).value? σ = some (op.value (σ.read u w)) := by
  rw [Ir.Expr.value?_bin, Ir.Expr.value?_var, Ir.Expr.value?_int]
  exact op.value_lowered w _

/-- A step is such an operation with the literal one, and its new value is the result. -/
theorem correct_preStep {op : Source.StepOp} (h : Γ.type? n.type = some noted)
    (hv : Γ.Declares m v type) : CorrectExpr Γ k il ie (.preStep n op (.var m v)) type := by
  obtain ⟨id, hid, -⟩ := type?_eq_some_iff.1 h
  obtain ⟨id', hid', hint⟩ := type?_eq_some_iff.1 hv.note
  have hlt : v.index < Γ.entities.size := index_lt_of_varType? hv.var
  have hw : v ∈ (Source.Expr.preStep n op (.var m v)).writes Γ k := Source.Expr.mem_writes rfl
  have hmention : v ∈ (Source.Expr.preStep n op (.var m v)).mentions Γ k :=
    Source.Expr.mem_mentions (n := m) (by simp [Source.Expr.mem_partsWithin_self])
      (constant?_of_varType? hv.var)
  intro d s hs
  obtain ⟨ptr, hptr⟩ := hs.pointer
  let z : Ir.Expr := .bin type.width (.ofStep op) (.var type.width v) (.int type.width 1)
  refine ⟨d.answer (.var type.width v), s.push ⟨.assign (.addr ptr v) z, n.location⟩,
    [⟨.assign (.addr ptr v) z, n.location⟩], ?_, ?_, by rintro rfl; rfl⟩
  -- the run of the lowering
  · beta_reduce
    rw [Source.Expr.lowerUsing]
    refine .ask (hs.typeId_ok hid) (.ask (hs.typeId_ok hid') (.ask (width_ok (hs.int hint)) ?_))
    exact .ask (lowerUsing_var hv hs) (.ask needed_some (makes_opAssign hs hint (hptr hs)))
  · constructor
    · intro e he
      rw [mem_answer he]
      rfl
    · intro e he u hu
      rw [mem_answer he] at hu
      obtain rfl := List.mem_singleton.1 hu
      exact ⟨hlt.trans_le hs.size_le, fun _ => hmention⟩
    -- the code stores the sum, which is the new value
    · intro body post σ τ _ hτ
      have heval : Source.Expr.evalUsing Γ ie (.preStep n op (.var m v)) τ =
          (z.value? σ).map fun x => (x, τ.write v x) := by
        rw [value?_step, hτ.read hlt]
        simp only [Source.Expr.evalUsing, hv.var]
        rfl
      rw [heval]
      exact delivers_update hlt hw hτ

/-- The old value is kept in a temporary where it is asked for. -/
theorem correct_postStep {op : Source.StepOp} (h : Γ.type? n.type = some noted)
    (hv : Γ.Declares m v type) : CorrectExpr Γ k il ie (.postStep n op (.var m v)) type := by
  obtain ⟨id, hid, -⟩ := type?_eq_some_iff.1 h
  obtain ⟨id', hid', hint⟩ := type?_eq_some_iff.1 hv.note
  have hlt : v.index < Γ.entities.size := index_lt_of_varType? hv.var
  have hw : v ∈ (Source.Expr.postStep n op (.var m v)).writes Γ k := Source.Expr.mem_writes rfl
  have heval (τ : Store) : Source.Expr.evalUsing Γ ie (.postStep n op (.var m v)) τ =
      some (τ.read v type.width, τ.write v (op.value (τ.read v type.width))) := by
    simp only [Source.Expr.evalUsing, hv.var]
    rfl
  intro d s hs
  obtain ⟨ptr, hptr⟩ := hs.pointer
  -- the old value is needed only where a value is asked for
  cases d with
  | effects =>
    let z : Ir.Expr := .bin type.width (.ofStep op) (.var type.width v) (.int type.width 1)
    refine ⟨none, s.push ⟨.assign (.addr ptr v) z, n.location⟩,
      [⟨.assign (.addr ptr v) z, n.location⟩], ?_, ?_, by simp⟩
    · beta_reduce
      rw [Source.Expr.lowerUsing]
      refine .ask (hs.typeId_ok hid) (.ask (hs.typeId_ok hid') (.ask (width_ok (hs.int hint)) ?_))
      refine .ask (lowerUsing_var hv hs) (.ask needed_some ?_)
      rw [postStep]
      exact .ask (hptr hs) (makes_opAssign hs hint (hptr hs))
    · constructor
      · simp
      · simp
      -- without it the step is stored right away
      · intro body post σ τ _ hτ
        rw [heval, ← hτ.read hlt]
        exact .value (Ir.runs_assign value?_step) (.write_mem hlt hw _) (hτ.write v _) (by simp)
  | value =>
    obtain ⟨ref, href⟩ := TypeTable.refOf_of_int (hs.int hint)
    let old : EntityId := ⟨s.entities.size⟩
    let keep : Ir.Stmt := ⟨.assign (.addr ptr old) (.var type.width v), n.location⟩
    let z : Ir.Expr := .bin type.width (.ofStep op) (.var type.width old) (.int type.width 1)
    let store : Ir.Stmt := ⟨.assign (.addr ptr v) z, n.location⟩
    let s₁ := (s.takeTemporary id' ref).push keep
    -- the temporary is none of the variables
    have hs₀ : Ready Γ (s.takeTemporary id' ref) := hs.takeTemporary href
    have hs₁ : Ready Γ s₁ := hs₀.push rfl
    have hold : v ≠ old := by
      rintro rfl
      exact absurd hs.size_le (Nat.not_le.2 hlt)
    refine ⟨some (.var type.width old), s₁.push store, [keep, store], ?_, ?_, fun _ => rfl⟩
    · beta_reduce
      rw [Source.Expr.lowerUsing]
      refine .ask (hs.typeId_ok hid) (.ask (hs.typeId_ok hid') (.ask (width_ok (hs.int hint)) ?_))
      refine .ask (lowerUsing_var hv hs) (.ask needed_some ?_)
      rw [postStep]
      refine .ask (hptr hs) (.bind (a := [keep]) (makes_storeTemporary href (hptr hs₀)) ?_)
      exact .ask (arithmetic_ok (hs₁.int hint)) (.followed makes_store (.pure ..))
    · constructor
      · simp [Ir.Expr.width]
      · intro e he u hu
        obtain rfl := Option.some.inj he
        obtain rfl := List.mem_singleton.1 hu
        exact ⟨by simp [s₁, old], fun h => absurd h (Nat.lt_irrefl _)⟩
      -- the old value is read twice, first from the variable and then from the temporary
      · intro body post σ τ _ hτ
        let x := σ.read v type.width
        have hread : (Ir.Expr.var type.width old).value? (σ.write old x) = some x :=
          value?_var_write rfl
        have hz : z.value? (σ.write old x) = some (op.value x) := by
          have hx : (σ.write old x).read old type.width = x := σ.read_write old x
          rw [value?_step, hx]
        rw [heval, ← hτ.read hlt]
        refine .value ((Ir.runs_assign rfl).trans (Ir.runs_assign hz)) ?_ ?_ ?_
        -- the temporary lies beyond all entities, so that only the variable is written
        · exact (Keeps.write_beyond le_rfl x).trans (.write_mem hlt hw _)
        · exact (hτ.write_beyond hs.size_le x).write v _
        · intro e he
          obtain rfl := Option.some.inj he
          rw [value?_var_write_of_ne hold.symm, hread]

end Backend386.Lower
