import Backend386.Proofs.Lowering.Effects

/-!
# Lowering of short-circuiting operators

The operands of `&&`, `||` and `?:` become pieces of code of which only some are run. Each piece
leaves its value in one temporary, from which the value of the whole is read.

* `Lower.Stores` — a piece of code that leaves its value in a temporary, and `Lower.StoresOperand`
  the code of an operand that does so;
* `Lower.LogicalCode`, `Lower.CondCode` — the code of the operators, put together from such pieces;
* `Lower.correct_logical`, `Lower.correct_cond` — the operators.
-/

namespace Backend386.Lower

open Source (Context Store Evaluation Note)
open Source.Store (Agree)
open Source.Context (type?_eq_some_iff)

variable {Γ : Context} {k : Nat} {il : Entity → Source.Expr → Lower Ir.Expr}
  {ie : Source.Expr → Evaluation} {n : Note} {type : IntType} {s s' : LowerState}

/-- The value of a test for zero. -/
theorem value?_truth {σ : Store} {w : Width} {e : Ir.Expr} :
    (truth w e).value? σ = (e.value? σ).map fun x => .ofBool w x.holds := by
  rw [truth, Ir.Expr.value?_bin]
  cases hx : e.value? σ with
  | none => rfl
  | some x =>
    have hzero : (0 : Int64).toBitVec.setWidth e.width.bits = 0 := by
      cases e.width <;> rfl
    rw [Ir.Expr.value?_int, hzero]
    simp [Ir.Op.binary?, Ir.Op.isCompare, Ir.Op.compare?, Ir.Value.ofBool, Ir.Value.holds]

/-! ## Runs -/

/-- A piece of code from `start` to `post` leaves the value of an evaluation in a temporary. -/
def Stores (Γ : Context) (size : Nat) (writes : List EntityId) (body start post : List Ir.Stmt)
    (tmp : Ir.Expr) (f : Ir.Value → Ir.Value) (evaluation : Evaluation) : Prop :=
  ∀ σ τ, Agree Γ.entities.size σ τ →
    evaluation τ = none ∧ Ir.Fails body (start, σ) ∨
      ∃ x τ' σ', evaluation τ = some (x, τ') ∧ Ir.Runs body (start, σ) (post, σ') ∧
        Keeps Γ.entities.size size writes σ σ' ∧ Agree Γ.entities.size σ' τ' ∧
        tmp.value? σ' = some (f x)

/-- The code of an expression and a store to a new temporary. -/
theorem Implements.stores {mentions writes writes' : List EntityId} {evaluation : Evaluation}
    {code body post : List Ir.Stmt} {y z : Ir.Expr} {tmp : EntityId} {ptr w : Width} {size : Nat}
    {loc : Option Location} {f : Ir.Value → Ir.Value}
    (hi : Implements Γ mentions writes type evaluation s s' code (some y))
    (hw : writes ⊆ writes') (hsize : size ≤ s.entities.size) (hn : Γ.entities.size ≤ size)
    (htmp : size ≤ tmp.index) (hzw : z.width = w) (hz : ∀ σ, z.value? σ = (y.value? σ).map f)
    (hbody : body = s'.function.body.toList ++ ⟨.assign (.addr ptr tmp) z, loc⟩ :: post) :
    Stores Γ size writes' body (code ++ ⟨.assign (.addr ptr tmp) z, loc⟩ :: post) post
      (.var w tmp) f evaluation := by
  intro σ τ hτ
  rcases (hi.delivers hbody hτ).used fun σ' hy => Ir.fails_assign (by rw [hz, hy]; rfl) with
    hf | ⟨x, τ', σ', hout, hrun, hk, hτ', hx⟩
  · exact .inl hf
  · have hfx : z.value? σ' = some (f x) := by rw [hz, hx, Option.map_some]
    refine .inr ⟨x, τ', σ'.write tmp (f x), hout, hrun.trans (Ir.runs_assign hfx), ?_, ?_, ?_⟩
    · exact (hk.mono hsize hw).trans (.write_beyond htmp _)
    · exact hτ'.write_beyond (hn.trans htmp) _
    · exact value?_var_write ((Ir.Expr.width_of_value? hfx).trans hzw)

section

variable {d : Demand} {size : Nat} {writes : List EntityId} {w : Width} {t : Ir.Expr}
  {body start post rest : List Ir.Stmt} {loc : Option Location} {σ τ : Store}

/-- The left operand decides whether the right one is run, which then decides the value. -/
theorem delivers_logical {op : Source.LogicalOp} {left right : Evaluation} {mid : List Ir.Stmt}
    {yes no rightLabel endLabel : Ir.Label}
    (hl : Stores Γ size writes body start (⟨.branch t yes no, loc⟩ :: rest) t
      (fun x => .ofBool w x.holds) left)
    (hr : Stores Γ size writes body mid (⟨.label endLabel, none⟩ :: post) t
      (fun x => .ofBool w x.holds) right)
    (htarget : ∀ b, (if b then yes else no) = if b = (op == .or) then endLabel else rightLabel)
    (hmid : Ir.after? rightLabel body = some mid) (hend : Ir.after? endLabel body = some post)
    (hτ : Agree Γ.entities.size σ τ) :
    Delivers Γ.entities.size size writes body start post σ (d.answer t)
      ((left τ).bind fun p =>
        if p.1.holds = (op == .or) then some (.ofBool w p.1.holds, p.2)
        else (right p.2).bind fun q => some (.ofBool w q.1.holds, q.2)) := by
  -- the left operand may fail, decide, or lead to the right one
  rcases hl σ τ hτ with ⟨hout, hf⟩ | ⟨a, τ₁, σ₁, hout, hrun₁, hk₁, hτ₁, hv₁⟩
  · rw [hout]
    exact .fails hf
  rw [hout, Option.bind_some]
  have hjump := htarget (Ir.Value.ofBool w a.holds).holds
  rw [Ir.Value.holds_ofBool] at hjump
  -- it decides: the branch goes to the end, with its truth in the temporary
  by_cases hshort : a.holds = (op == .or)
  · rw [if_pos hshort] at hjump ⊢
    refine .value (hrun₁.tail (Ir.step_branch hv₁ ?_)) hk₁ hτ₁ fun e he => ?_
    · rw [Ir.Value.holds_ofBool, hjump, hend]
    · rw [mem_answer he, hv₁]
  -- it does not: the right operand is computed behind its label
  · rw [if_neg hshort] at hjump ⊢
    have hrun : Ir.Runs body (start, σ) (mid, σ₁) :=
      hrun₁.tail (Ir.step_branch hv₁ (by rw [Ir.Value.holds_ofBool, hjump, hmid]))
    rcases hr σ₁ τ₁ hτ₁ with ⟨hout, hf⟩ | ⟨b, τ₂, σ₂, hout, hrun₂, hk₂, hτ₂, hv₂⟩
    · rw [hout]
      exact .fails (hrun.fails hf)
    · rw [hout, Option.bind_some]
      refine .value ((hrun.trans hrun₂).trans Ir.runs_label) (hk₁.trans hk₂) hτ₂ fun e he => ?_
      rw [mem_answer he, hv₂]

/-- The condition decides which arm is run. -/
theorem delivers_cond {test yes no : Evaluation} {x : Ir.Expr}
    {rest' yesStart noStart : List Ir.Stmt} {yesLabel noLabel endLabel : Ir.Label}
    (ht : Delivers Γ.entities.size size writes body start
      (⟨.branch x yesLabel noLabel, loc⟩ :: rest) σ (some x) (test τ))
    (hy : Stores Γ size writes body yesStart (⟨.jump endLabel, none⟩ :: rest') t (fun x => x) yes)
    (hn : Stores Γ size writes body noStart (⟨.label endLabel, none⟩ :: post) t (fun x => x) no)
    (hyes : Ir.after? yesLabel body = some yesStart) (hno : Ir.after? noLabel body = some noStart)
    (hend : Ir.after? endLabel body = some post) :
    Delivers Γ.entities.size size writes body start post σ (d.answer t)
      ((test τ).bind fun p => if p.1.holds then yes p.2 else no p.2) := by
  -- the test may fail, or choose an arm
  rcases ht.used fun σ' hx => Ir.fails_branch hx with
    ⟨hout, hf⟩ | ⟨a, τ₁, σ₁, hout, hrun₁, hk₁, hτ₁, hv₁⟩
  · rw [hout]
    exact .fails hf
  rw [hout, Option.bind_some]
  -- the arm that is chosen stores its value, and goes on at the end
  by_cases ha : a.holds = true
  · have hrun : Ir.Runs body (start, σ) (yesStart, σ₁) :=
      hrun₁.tail (Ir.step_branch hv₁ (by rw [if_pos ha, hyes]))
    rw [if_pos ha]
    rcases hy σ₁ τ₁ hτ₁ with ⟨hout, hf⟩ | ⟨b, τ₂, σ₂, hout, hrun₂, hk₂, hτ₂, hv₂⟩
    · rw [hout]
      exact .fails (hrun.fails hf)
    · rw [hout]
      refine .value ((hrun.trans hrun₂).trans (Ir.runs_jump hend)) (hk₁.trans hk₂) hτ₂ ?_
      intro e he
      rw [mem_answer he, hv₂]
  · have hrun : Ir.Runs body (start, σ) (noStart, σ₁) :=
      hrun₁.tail (Ir.step_branch hv₁ (by rw [if_neg ha, hno]))
    rw [if_neg ha]
    rcases hn σ₁ τ₁ hτ₁ with ⟨hout, hf⟩ | ⟨b, τ₂, σ₂, hout, hrun₂, hk₂, hτ₂, hv₂⟩
    · rw [hout]
      exact .fails (hrun.fails hf)
    · rw [hout]
      refine .value ((hrun.trans hrun₂).trans Ir.runs_label) (hk₁.trans hk₂) hτ₂ ?_
      intro e he
      rw [mem_answer he, hv₂]

end

/-! ## Operands -/

/-- An operand is lowered for its value, and what is made of the value is stored in a temporary. -/
def storeOperand (il : Entity → Source.Expr → Lower Ir.Expr) (ptr : Width) (tmp : EntityId)
    (g : Ir.Expr → Ir.Expr) (e : Source.Expr) : Lower Unit := do
  let value ← needed e.location (← e.lowerUsing il .value)
  store e.location (.addr ptr tmp) (g value)

/-- The labels that are taken next. -/
def nextLabel (s : LowerState) (i : Nat) : Ir.Label :=
  ⟨s.labels.next + i⟩

section

variable {ptr w : Width} {tmp : EntityId} {g : Ir.Expr → Ir.Expr} {f : Ir.Value → Ir.Value}
  {e : Source.Expr}

/-- Code that leaves what is made of the value of an operand in a temporary. -/
structure StoresOperand (Γ : Context) (k : Nat) (il : Entity → Source.Expr → Lower Ir.Expr)
    (ie : Source.Expr → Evaluation) (ptr w : Width) (tmp : EntityId) (g : Ir.Expr → Ir.Expr)
    (f : Ir.Value → Ir.Value) (e : Source.Expr) (s s' : LowerState) (code : List Ir.Stmt) :
    Prop where
  makes : Makes s.labels.next (storeOperand il ptr tmp g e) s () s' code
  stores : ∀ {size : Nat} {writes : List EntityId} {body post : List Ir.Stmt},
    e.writes Γ k ⊆ writes → size ≤ s.entities.size → Γ.entities.size ≤ size → size ≤ tmp.index →
    body = s'.function.body.toList ++ post →
    Stores Γ size writes body (code ++ post) post (.var w tmp) f (e.evalUsing Γ ie)

/-- Storing an operand succeeds. What is stored is as wide as what is read. -/
theorem CorrectExpr.storesOperand {t : IntType} (h : CorrectExpr Γ k il ie e t) (hs : Ready Γ s)
    (ptr : Width) (tmp : EntityId) (hw : ∀ y : Ir.Expr, y.width = t.width → (g y).width = w)
    (hg : ∀ (y : Ir.Expr) σ, (g y).value? σ = (y.value? σ).map f) :
    ∃ s' code, StoresOperand Γ k il ie ptr w tmp g f e s s' code := by
  obtain ⟨y, s', code, hm, hi⟩ := h.value hs
  let last : Ir.Stmt := ⟨.assign (.addr ptr tmp) (g y), e.location⟩
  refine ⟨s'.push last, code ++ [last], hm.bind (.ask needed_some makes_store), ?_⟩
  intro size writes body post hwrites hsize hn htmp hbody
  have hbody : body = s'.function.body.toList ++ last :: post := by simpa using hbody
  rw [List.append_assoc]
  exact hi.stores hwrites hsize hn htmp (hw y (hi.width y rfl)) (hg y) hbody

/-- What follows the store of an operand. -/
theorem Makes.after_operand {β : Type} {m : Lower β} {x : β} {s₁ : LowerState} {lo : Nat}
    {a b : List Ir.Stmt} (h : Makes lo (storeOperand il ptr tmp g e) s () s₁ a)
    (hm : Makes lo m s₁ x s' b) : Makes lo (do
      let value ← needed e.location (← e.lowerUsing il .value)
      store e.location (.addr ptr tmp) (g value)
      m) s x s' (a ++ b) := by
  have hboth := h.bind (f := fun _ => m) hm
  rw [storeOperand, bind_assoc] at hboth
  simpa only [bind_assoc] using hboth

/-- What is left is a new temporary. -/
theorem Implements.of_temporary {mentions writes : List EntityId} {evaluation : Evaluation}
    {code : List Ir.Stmt} {d : Demand} (hnew : s.entities.size ≤ tmp.index)
    (hlt : tmp.index < s'.entities.size)
    (h : ∀ {body post : List Ir.Stmt} {σ τ : Store}, body = s'.function.body.toList ++ post →
      Agree Γ.entities.size σ τ → Delivers Γ.entities.size s.entities.size writes body
        (code ++ post) post σ (d.answer (.var type.width tmp)) (evaluation τ)) :
    Implements Γ mentions writes type evaluation s s' code (d.answer (.var type.width tmp)) where
  width e he := by
    rw [mem_answer he]
    rfl
  entities e he u hu := by
    rw [mem_answer he] at hu
    obtain rfl := List.mem_singleton.1 hu
    exact ⟨hlt, fun h => absurd h (Nat.not_lt.2 hnew)⟩
  delivers := h

end

/-! ## Two operands -/

/-- The branch between the operands of `&&` and `||`. -/
def logicalTest (op : Source.LogicalOp) (n : Note) (tmp : Ir.Expr)
    (rightLabel endLabel : Ir.Label) : Ir.Stmt :=
  ⟨.branch tmp (if op = .and then rightLabel else endLabel)
    (if op = .and then endLabel else rightLabel), n.location⟩

/-- The code of `&&` and `||` that is appended to a state. Both operands leave their truth in one
temporary. -/
structure LogicalCode (Γ : Context) (k : Nat) (il : Entity → Source.Expr → Lower Ir.Expr)
    (ie : Source.Expr → Evaluation) (op : Source.LogicalOp) (n : Note) (l r : Source.Expr)
    (type : IntType) (s : LowerState) where
  ptr : Width
  id : TypeId
  ref : TypeRef
  /-- the states after the operands, and their code -/
  s₁ : LowerState
  s₂ : LowerState
  code₁ : List Ir.Stmt
  code₂ : List Ir.Stmt
  ready : Ready Γ s
  lookup : Γ.types.lookup? n.type = some id
  int : Γ.types.intType? id = some type
  pointer : ∀ {s}, Ready Γ s → pointerWidth s = .ok (ptr, s)
  refOf : s.types.refOf id = .ok ref
  left : StoresOperand Γ k il ie ptr type.width ⟨s.entities.size⟩ (truth type.width)
    (fun x => .ofBool type.width x.holds) l (s.takeLabel.takeLabel.takeTemporary id ref) s₁ code₁
  right : StoresOperand Γ k il ie ptr type.width ⟨s.entities.size⟩ (truth type.width)
    (fun x => .ofBool type.width x.holds) r
    ((s₁.push (logicalTest op n (.var type.width ⟨s.entities.size⟩) (nextLabel s 0)
      (nextLabel s 1))).push ⟨.label (nextLabel s 0), none⟩) s₂ code₂

namespace LogicalCode

variable {op : Source.LogicalOp} {l r : Source.Expr} {left right : IntType}

section

variable (c : LogicalCode Γ k il ie op n l r type s) {d : Demand}

/-- What the operands are stored in. -/
def value (_ : LogicalCode Γ k il ie op n l r type s) : Ir.Expr :=
  .var type.width ⟨s.entities.size⟩

/-- The branch between the operands. -/
def test : Ir.Stmt :=
  logicalTest op n c.value (nextLabel s 0) (nextLabel s 1)

/-- The state after the operator. -/
def last : LowerState :=
  c.s₂.push ⟨.label (nextLabel s 1), none⟩

/-- From the right operand on. -/
def rest : List Ir.Stmt :=
  c.code₂ ++ [⟨.label (nextLabel s 1), none⟩]

/-- All that is appended. -/
def code : List Ir.Stmt :=
  c.code₁ ++ c.test :: ⟨.label (nextLabel s 0), none⟩ :: c.rest

/-- Both labels are taken before the operands are lowered. -/
theorem labels_le : s.labels.next + 2 ≤ c.s₁.labels.next ∧ c.s₁.labels.next ≤ c.s₂.labels.next :=
  ⟨c.left.makes.labels, c.right.makes.labels⟩

/-- And so is the temporary. -/
theorem size_lt : s.entities.size < c.s₁.entities.size ∧
    c.s₁.entities.size ≤ c.s₂.entities.size := by
  have hsize := c.left.makes.size_le
  rw [LowerState.size_takeTemporary] at hsize
  exact ⟨hsize, c.right.makes.size_le⟩

/-- From the label of the right operand on. -/
theorem makes_rest : Makes s.labels.next (do
      place (nextLabel s 0)
      let right ← needed r.location (← r.lowerUsing il .value)
      store r.location (.addr c.ptr ⟨s.entities.size⟩) (truth type.width right)
      place (nextLabel s 1)
      return d.answer c.value) (c.s₁.push c.test) (d.answer c.value) c.last
    (⟨.label (nextLabel s 0), none⟩ :: c.rest) := by
  obtain ⟨h₁, h₂⟩ := c.labels_le
  refine .bind (a := [⟨.label (nextLabel s 0), none⟩]) (makes_place ?_) ?_
  · simp only [LowerState.push_labels, nextLabel]
    omega
  · refine .after_operand (c.right.makes.mono ?_) (.followed (makes_place ?_) (.pure ..))
    · simp only [LowerState.push_labels]
      omega
    · simp only [nextLabel]
      omega

/-- The operator is lowered to this code. -/
theorem makes : Makes s.labels.next (Source.Expr.lowerUsing il d (.logical n op l r)) s
    (d.answer c.value) c.last c.code := by
  have hs₀ := c.ready.takeLabel.takeLabel
  rw [Source.Expr.lowerUsing]
  refine .ask (c.ready.typeId_ok c.lookup) (.take makes_newLabel (.take makes_newLabel ?_))
  refine .ask (width_ok (hs₀.int c.int)) (.ask (c.pointer hs₀) (.take (makes_temporary c.refOf) ?_))
  refine .after_operand (c.left.makes.mono (Nat.le_add_right _ 2)) ?_
  cases op with
  | and => exact .bind (a := [c.test]) makes_branch c.makes_rest
  | or => exact .bind (a := [c.test]) makes_branch c.makes_rest

section

variable {body post : List Ir.Stmt}

/-- Where the code of the operator is in a longer body. -/
theorem body_eq (hbody : body = c.last.function.body.toList ++ post) :
    body = c.s₁.function.body.toList ++ c.test :: ⟨.label (nextLabel s 0), none⟩ ::
      (c.rest ++ post) := by
  simp [hbody, last, rest, test, c.right.makes.body, value]

/-- The labels stand where they are looked for. -/
theorem after?_right (hbody : body = c.last.function.body.toList ++ post) :
    Ir.after? (nextLabel s 0) body = some (c.rest ++ post) := by
  have hlacks := c.left.makes.lacks (c.ready.lacks (l := nextLabel s 0) le_rfl)
    (Nat.lt_add_of_pos_right Nat.two_pos)
  rw [c.body_eq hbody, List.append_cons]
  apply Ir.after?_append
  simp [hlacks, Ir.Stmt.placed?, test, logicalTest]

/-- The end of a condition is found behind its second arm. -/
theorem after?_end (hbody : body = c.last.function.body.toList ++ post) :
    Ir.after? (nextLabel s 1) body = some post := by
  have hlt : (nextLabel s 1).index < s.labels.next + 2 := Nat.lt_succ_self _
  have hlacks := c.left.makes.lacks (c.ready.lacks (l := nextLabel s 1) (Nat.le_succ _)) hlt
  have hbody : body = c.s₂.function.body.toList ++ ⟨.label (nextLabel s 1), none⟩ :: post := by
    simpa [last] using hbody
  rw [hbody]
  apply Ir.after?_append
  refine c.right.makes.lacks ?_ (hlt.trans_le c.labels_le.1)
  have hne : nextLabel s 0 ≠ nextLabel s 1 := by simp [nextLabel]
  simp [hlacks, Ir.Stmt.placed?, logicalTest, hne]

end

/-- The operator decides after the left operand whether the right one is evaluated. -/
theorem evalUsing_eq (h : Γ.type? n.type = some type) (τ : Store) :
    Source.Expr.evalUsing Γ ie (.logical n op l r) τ = (l.evalUsing Γ ie τ).bind fun p =>
      if p.1.holds = (op == .or) then some (.ofBool type.width p.1.holds, p.2)
      else (r.evalUsing Γ ie p.2).bind fun q => some (.ofBool type.width q.1.holds, q.2) := by
  simp only [Source.Expr.evalUsing, h]
  cases l.evalUsing Γ ie τ <;> rfl

/-- The code of the operator stands for its evaluation. -/
theorem implements (h : Γ.type? n.type = some type) : Implements Γ
    ((Source.Expr.logical n op l r).mentions Γ k) ((Source.Expr.logical n op l r).writes Γ k) type
    (Source.Expr.evalUsing Γ ie (.logical n op l r)) s c.last c.code (d.answer c.value) := by
  obtain ⟨hsize₁, hsize₂⟩ := c.size_lt
  refine .of_temporary le_rfl (hsize₁.trans_le hsize₂) fun {body post σ τ} hbody hτ => ?_
  have hwl : l.writes Γ k ⊆ (Source.Expr.logical n op l r).writes Γ k :=
    Source.Expr.writes_subset (by simp)
  have hwr : r.writes Γ k ⊆ (Source.Expr.logical n op l r).writes Γ k :=
    Source.Expr.writes_subset (by simp)
  have hleft : Stores Γ s.entities.size _ body (c.code₁ ++ c.test ::
      ⟨.label (nextLabel s 0), none⟩ :: (c.rest ++ post)) _ _ _ _ :=
    c.left.stores hwl (by simp) c.ready.size_le le_rfl (c.body_eq hbody)
  have hright : Stores Γ s.entities.size _ body (c.code₂ ++ ⟨.label (nextLabel s 1), none⟩ :: post)
      _ _ _ _ :=
    c.right.stores hwr hsize₁.le c.ready.size_le le_rfl
      (by simpa [last] using hbody)
  have hmid : Ir.after? (nextLabel s 0) body =
      some (c.code₂ ++ ⟨.label (nextLabel s 1), none⟩ :: post) := by
    simpa [rest] using c.after?_right hbody
  rw [evalUsing_eq h, code, List.append_assoc]
  refine delivers_logical hleft hright (fun b => ?_) hmid (c.after?_end hbody) hτ
  cases op <;> cases b <;> rfl

end

end LogicalCode

/-- The temporary holds the truth of the left operand where it decides, and else of the right one.
-/
theorem correct_logical {op : Source.LogicalOp} {l r : Source.Expr} {left right : IntType}
    (h : Γ.type? n.type = some type) (hl : CorrectExpr Γ k il ie l left)
    (hr : CorrectExpr Γ k il ie r right) : CorrectExpr Γ k il ie (.logical n op l r) type := by
  obtain ⟨id, hid, hint⟩ := type?_eq_some_iff.1 h
  intro d s hs
  obtain ⟨ptr, hptr⟩ := hs.pointer
  obtain ⟨ref, href⟩ := TypeTable.refOf_of_int (hs.int hint)
  have hs₀ := hs.takeLabel.takeLabel.takeTemporary href
  obtain ⟨s₁, code₁, hleft⟩ := hl.storesOperand hs₀ ptr ⟨s.entities.size⟩
    (g := truth type.width) (fun _ _ => rfl) fun _ _ => value?_truth
  have hlabels := hleft.makes.labels
  have hs₁ : Ready Γ ((s₁.push (logicalTest op n (.var type.width ⟨s.entities.size⟩) (nextLabel s 0)
      (nextLabel s 1))).push ⟨.label (nextLabel s 0), none⟩) :=
    ((hs₀.emits hleft.makes.toEmits).push rfl).pushLabel
      ((Nat.lt_add_of_pos_right Nat.two_pos).trans_le hlabels)
  obtain ⟨s₂, code₂, hright⟩ := hr.storesOperand hs₁ ptr ⟨s.entities.size⟩
    (g := truth type.width) (fun _ _ => rfl) fun _ _ => value?_truth
  let c : LogicalCode Γ k il ie op n l r type s :=
    { ptr, id, ref, s₁, s₂, code₁, code₂, ready := hs, lookup := hid, int := hint, pointer := hptr,
      refOf := href, left := hleft, right := hright }
  exact ⟨_, _, _, c.makes, c.implements h, by rintro rfl; rfl⟩

/-! ## Two arms -/

/-- The code of `?:` that is appended to a state. Both arms leave their value in one temporary. -/
structure CondCode (Γ : Context) (k : Nat) (il : Entity → Source.Expr → Lower Ir.Expr)
    (ie : Source.Expr → Evaluation) (n : Note) (test yes no : Source.Expr) (tested type : IntType)
    (s : LowerState) where
  ptr : Width
  id : TypeId
  ref : TypeRef
  /-- the value of the condition -/
  x : Ir.Expr
  /-- the states after the condition and the arms, and their code -/
  s₁ : LowerState
  s₂ : LowerState
  s₃ : LowerState
  code₁ : List Ir.Stmt
  code₂ : List Ir.Stmt
  code₃ : List Ir.Stmt
  ready : Ready Γ s
  lookup : Γ.types.lookup? n.type = some id
  int : Γ.types.intType? id = some type
  pointer : ∀ {s}, Ready Γ s → pointerWidth s = .ok (ptr, s)
  refOf : s₁.types.refOf id = .ok ref
  makes_test : Makes (s.labels.next + 3) (test.lowerUsing il .value)
    s.takeLabel.takeLabel.takeLabel (some x) s₁ code₁
  implements_test : Implements Γ (test.mentions Γ k) (test.writes Γ k) tested
    (test.evalUsing Γ ie) s.takeLabel.takeLabel.takeLabel s₁ code₁ (some x)
  yes : StoresOperand Γ k il ie ptr type.width ⟨s₁.entities.size⟩ (fun y => y) (fun x => x) yes
    (((s₁.push ⟨.branch x (nextLabel s 0) (nextLabel s 1), n.location⟩).takeTemporary id ref).push
      ⟨.label (nextLabel s 0), none⟩) s₂ code₂
  no : StoresOperand Γ k il ie ptr type.width ⟨s₁.entities.size⟩ (fun y => y) (fun x => x) no
    ((s₂.push ⟨.jump (nextLabel s 2), none⟩).push ⟨.label (nextLabel s 1), none⟩) s₃ code₃

namespace CondCode

variable {test yes no : Source.Expr} {tested : IntType}
  (c : CondCode Γ k il ie n test yes no tested type s) {d : Demand}

/-- What the arms are stored in. -/
def value : Ir.Expr :=
  .var type.width ⟨c.s₁.entities.size⟩

/-- The branch to the arms. -/
def branch : Ir.Stmt :=
  ⟨.branch c.x (nextLabel s 0) (nextLabel s 1), n.location⟩

/-- The state before the first arm. -/
def mid : LowerState :=
  (c.s₁.push c.branch).takeTemporary c.id c.ref

/-- The state after the operator. -/
def last : LowerState :=
  c.s₃.push ⟨.label (nextLabel s 2), none⟩

/-- From the second arm on. -/
def noCode : List Ir.Stmt :=
  c.code₃ ++ [⟨.label (nextLabel s 2), none⟩]

/-- From the first arm on. -/
def yesCode : List Ir.Stmt :=
  c.code₂ ++ ⟨.jump (nextLabel s 2), none⟩ :: ⟨.label (nextLabel s 1), none⟩ :: c.noCode

/-- All that is appended. -/
def code : List Ir.Stmt :=
  c.code₁ ++ c.branch :: ⟨.label (nextLabel s 0), none⟩ :: c.yesCode

/-- The three labels are taken before the operands are lowered. -/
theorem labels_le : s.labels.next + 3 ≤ c.s₁.labels.next ∧ c.s₁.labels.next ≤ c.s₂.labels.next ∧
    c.s₂.labels.next ≤ c.s₃.labels.next :=
  ⟨c.makes_test.labels, c.yes.makes.labels, c.no.makes.labels⟩

/-- The temporary is taken after the condition is lowered. -/
theorem size_le : s.entities.size ≤ c.s₁.entities.size ∧
    c.s₁.entities.size < c.s₂.entities.size ∧ c.s₂.entities.size ≤ c.s₃.entities.size := by
  have hsize := c.yes.makes.size_le
  rw [LowerState.push_entities, LowerState.size_takeTemporary] at hsize
  exact ⟨c.makes_test.size_le, hsize, c.no.makes.size_le⟩

/-- From the label of the first arm on. -/
theorem makes_arms : Makes s.labels.next (do
      place (nextLabel s 0)
      let value ← needed yes.location (← yes.lowerUsing il .value)
      store yes.location (.addr c.ptr ⟨c.s₁.entities.size⟩) value
      jump none (nextLabel s 2)
      place (nextLabel s 1)
      let value ← needed no.location (← no.lowerUsing il .value)
      store no.location (.addr c.ptr ⟨c.s₁.entities.size⟩) value
      place (nextLabel s 2)
      return d.answer c.value) c.mid (d.answer c.value) c.last
    (⟨.label (nextLabel s 0), none⟩ :: c.yesCode) := by
  obtain ⟨h₁, h₂, h₃⟩ := c.labels_le
  -- the labels were taken before the test, so each is older than any state behind it
  have hnext {i : Nat} (hi : i < 3) {s' : LowerState} (h : c.s₁.labels.next ≤ s'.labels.next) :
      s.labels.next ≤ (nextLabel s i).index ∧ (nextLabel s i).index < s'.labels.next := by
    simp only [nextLabel]
    omega
  refine .bind (a := [⟨.label (nextLabel s 0), none⟩]) (makes_place (hnext (by decide) le_rfl)) ?_
  refine .after_operand (c.yes.makes.mono ?_) ?_
  · simp only [LowerState.push_labels, LowerState.takeTemporary_labels]
    omega
  refine .bind (a := [⟨.jump (nextLabel s 2), none⟩]) makes_jump ?_
  refine .bind (a := [⟨.label (nextLabel s 1), none⟩]) (makes_place (hnext (by decide) h₂)) ?_
  refine .after_operand (c.no.makes.mono ?_) ?_
  · simp only [LowerState.push_labels]
    omega
  · exact .followed (makes_place (hnext (by decide) (h₂.trans h₃))) (.pure ..)

/-- The operator is lowered to this code. -/
theorem makes : Makes s.labels.next (Source.Expr.lowerUsing il d (.cond n test yes no)) s
    (d.answer c.value) c.last c.code := by
  have hs₁ : Ready Γ (c.s₁.push c.branch) :=
    (c.ready.takeLabel.takeLabel.takeLabel.emits c.makes_test.toEmits).push rfl
  have hvoid : ask (·.isVoid c.id) (c.s₁.push c.branch) = .ok (false, c.s₁.push c.branch) :=
    ask_ok (TypeTable.isVoid_of_int (hs₁.int c.int))
  rw [Source.Expr.lowerUsing]
  refine .ask (c.ready.typeId_ok c.lookup) (.take makes_newLabel (.take makes_newLabel ?_))
  refine .take makes_newLabel (.bind (c.makes_test.mono (Nat.le_add_right _ 3)) ?_)
  refine .ask needed_some (.bind (a := [c.branch]) makes_branch ?_)
  refine .ask hvoid (.ask (isByAddress_ok (hs₁.int c.int)) ?_)
  refine .ask (x := c.id) rfl (.ask (width_ok (hs₁.int c.int)) (.ask (c.pointer hs₁) ?_))
  exact .take (makes_temporary c.refOf) c.makes_arms

section

variable {body post : List Ir.Stmt}

/-- Where the arms are in a longer body. -/
theorem body_eq_no (hbody : body = c.last.function.body.toList ++ post) :
    body = c.s₂.function.body.toList ++ ⟨.jump (nextLabel s 2), none⟩ ::
      ⟨.label (nextLabel s 1), none⟩ :: (c.noCode ++ post) := by
  simp [hbody, last, noCode, c.no.makes.body]

theorem body_eq_yes (hbody : body = c.last.function.body.toList ++ post) :
    body = c.s₁.function.body.toList ++ c.branch :: ⟨.label (nextLabel s 0), none⟩ ::
      (c.yesCode ++ post) := by
  simp [c.body_eq_no hbody, yesCode, branch, c.yes.makes.body]

/-- Before the first arm none of the labels is placed. -/
theorem lacks_test {i : Nat} (hi : i < 3) :
    Ir.Lacks (nextLabel s i) c.s₁.function.body.toList :=
  c.makes_test.lacks (c.ready.lacks (Nat.le_add_right _ i)) (Nat.add_lt_add_left hi _)

/-- Before the second arm only the first one is. -/
theorem lacks_yes {i : Nat} (h₀ : i ≠ 0) (hi : i < 3) :
    Ir.Lacks (nextLabel s i) c.s₂.function.body.toList := by
  refine c.yes.makes.lacks ?_ ((Nat.add_lt_add_left hi _).trans_le c.labels_le.1)
  have hne : nextLabel s 0 ≠ nextLabel s i := by simpa [nextLabel] using h₀
  simp [c.lacks_test hi, Ir.Stmt.placed?, hne]

/-- The labels stand where they are looked for. -/
theorem after?_yes (hbody : body = c.last.function.body.toList ++ post) :
    Ir.after? (nextLabel s 0) body = some (c.yesCode ++ post) := by
  rw [c.body_eq_yes hbody, List.append_cons]
  apply Ir.after?_append
  simp [c.lacks_test (i := 0) (by decide), Ir.Stmt.placed?, branch]

theorem after?_no (hbody : body = c.last.function.body.toList ++ post) :
    Ir.after? (nextLabel s 1) body = some (c.noCode ++ post) := by
  rw [c.body_eq_no hbody, List.append_cons]
  apply Ir.after?_append
  simp [c.lacks_yes (i := 1) (by decide) (by decide), Ir.Stmt.placed?]

/-- The end of a decision is found behind both of its values. -/
theorem after?_end (hbody : body = c.last.function.body.toList ++ post) :
    Ir.after? (nextLabel s 2) body = some post := by
  have hbody : body = c.s₃.function.body.toList ++ ⟨.label (nextLabel s 2), none⟩ :: post := by
    simpa [last] using hbody
  have hlt : (nextLabel s 2).index < s.labels.next + 3 := Nat.lt_succ_self _
  rw [hbody]
  apply Ir.after?_append
  refine c.no.makes.lacks ?_ (hlt.trans_le (c.labels_le.1.trans c.labels_le.2.1))
  have hne : nextLabel s 1 ≠ nextLabel s 2 := by simp [nextLabel]
  simp [c.lacks_yes (i := 2) (by decide) (by decide), Ir.Stmt.placed?, hne]

end

/-- The condition decides which arm is evaluated. -/
theorem evalUsing_eq (τ : Store) : Source.Expr.evalUsing Γ ie (.cond n test yes no) τ =
    (test.evalUsing Γ ie τ).bind fun p =>
      if p.1.holds then yes.evalUsing Γ ie p.2 else no.evalUsing Γ ie p.2 := by
  simp only [Source.Expr.evalUsing]
  cases test.evalUsing Γ ie τ <;> rfl

/-- The code of the operator stands for its evaluation. -/
theorem implements : Implements Γ ((Source.Expr.cond n test yes no).mentions Γ k)
    ((Source.Expr.cond n test yes no).writes Γ k) type
    (Source.Expr.evalUsing Γ ie (.cond n test yes no)) s c.last c.code (d.answer c.value) := by
  obtain ⟨hsize₁, hsize₂, hsize₃⟩ := c.size_le
  have hwrites {e : Source.Expr} (he : e ∈ [test, yes, no]) :
      e.writes Γ k ⊆ (Source.Expr.cond n test yes no).writes Γ k := by
    simp only [List.mem_cons, List.not_mem_nil, or_false] at he
    rcases he with rfl | rfl | rfl <;> exact Source.Expr.writes_subset fun e he => by simp [he]
  refine .of_temporary hsize₁ (hsize₂.trans_le hsize₃) fun {body post σ τ} hbody hτ => ?_
  have hbody₁ := c.body_eq_yes hbody
  have htest := (c.implements_test.delivers hbody₁ hτ).mono le_rfl (hwrites (by simp))
  have hyes : Stores Γ s.entities.size _ body (c.code₂ ++ ⟨.jump (nextLabel s 2), none⟩ ::
      ⟨.label (nextLabel s 1), none⟩ :: (c.noCode ++ post)) _ _ _ _ :=
    c.yes.stores (hwrites (by simp)) (by simpa using hsize₁.trans (Nat.le_succ _)) c.ready.size_le
      hsize₁ (c.body_eq_no hbody)
  have hno : Stores Γ s.entities.size _ body (c.code₃ ++ ⟨.label (nextLabel s 2), none⟩ :: post)
      _ _ _ _ :=
    c.no.stores (hwrites (by simp)) (hsize₁.trans hsize₂.le) c.ready.size_le hsize₁
      (by simpa [last] using hbody)
  rw [evalUsing_eq, code, List.append_assoc]
  refine delivers_cond htest hyes hno ?_ ?_ (c.after?_end hbody)
  · simpa [yesCode] using c.after?_yes hbody
  · simpa [noCode] using c.after?_no hbody

end CondCode

/-- Whichever arm is chosen leaves the value of the expression in the temporary. -/
theorem correct_cond {test yes no : Source.Expr} {tested : IntType}
    (h : Γ.type? n.type = some type) (ht : CorrectExpr Γ k il ie test tested)
    (hy : CorrectExpr Γ k il ie yes type) (hn : CorrectExpr Γ k il ie no type) :
    CorrectExpr Γ k il ie (.cond n test yes no) type := by
  obtain ⟨id, hid, hint⟩ := type?_eq_some_iff.1 h
  intro d s hs
  obtain ⟨ptr, hptr⟩ := hs.pointer
  have hs₀ := hs.takeLabel.takeLabel.takeLabel
  -- the test is lowered behind the three labels, the arms behind the branch
  obtain ⟨x, s₁, code₁, hm₁, hi₁⟩ := ht.value hs₀
  have hlabels₁ : s.labels.next + 3 ≤ s₁.labels.next := hm₁.labels
  have hs₁ := hs₀.emits hm₁.toEmits
  obtain ⟨ref, href⟩ := TypeTable.refOf_of_int (hs₁.int hint)
  let branch : Ir.Stmt := ⟨.branch x (nextLabel s 0) (nextLabel s 1), n.location⟩
  have hs₁' : Ready Γ ((s₁.push branch).takeTemporary id ref) := (hs₁.push rfl).takeTemporary href
  have hsame (y : Ir.Expr) (σ : Store) : y.value? σ = (y.value? σ).map fun x => x :=
    Option.map_id'.symm
  have hs₁' := hs₁'.pushLabel (l := nextLabel s 0) ((Nat.lt_add_of_pos_right
    (Nat.succ_pos 2)).trans_le hlabels₁)
  obtain ⟨s₂, code₂, hyes⟩ := hy.storesOperand hs₁' ptr ⟨s₁.entities.size⟩ (g := fun y => y)
    (fun _ h => h) hsame
  have hlabels₂ : s₁.labels.next ≤ s₂.labels.next := hyes.makes.labels
  -- the state in between is ready, since the first arm and the jump behind it only add code
  have hs₂ : Ready Γ ((s₂.push ⟨.jump (nextLabel s 2), none⟩).push
      ⟨.label (nextLabel s 1), none⟩) := by
    refine ((hs₁'.emits hyes.makes.toEmits).push rfl).pushLabel ?_
    simp only [LowerState.push_labels, nextLabel]
    omega
  obtain ⟨s₃, code₃, hno⟩ := hn.storesOperand hs₂ ptr ⟨s₁.entities.size⟩ (g := fun y => y)
    (fun _ h => h) hsame
  -- what is left is to put the pieces together
  let c : CondCode Γ k il ie n test yes no tested type s :=
    { ptr, id, ref, x, s₁, s₂, s₃, code₁, code₂, code₃, ready := hs, lookup := hid, int := hint,
      pointer := hptr, refOf := href, makes_test := hm₁, implements_test := hi₁, yes := hyes,
      no := hno }
  exact ⟨_, _, _, c.makes, c.implements, by rintro rfl; rfl⟩

end Backend386.Lower
