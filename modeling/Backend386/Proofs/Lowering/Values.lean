import Backend386.Proofs.Lowering.Pieces

/-!
# Widths of lowered expressions

What an expression is lowered to is as wide as its type, and all that is stored on the way is stored
inside its object. By recursion on the expression; the values of named constants are lowered by a
function that is passed in.

* `Lower.Course.Inside` — an object is inside a variable;
* `Lower.Course.Delivered` — the value of an expression, as wide as its type;
* `Lower.Course.leads_lowerWithin` — what every expression of the part leads to.
-/

namespace Backend386.Lower.Course

open Source.Expr (lowerUsing lowerArgs lowerWithin)


variable {α β : Type} {c : Course} {s s' : LowerState} {code : List Ir.Stmt} {type type' : TypeId}
  {x y a base target value : Ir.Expr} {w ptr : Width} {location : Option Location}
  {e l r test yes no : Source.Expr} {v id : EntityId} {n : Source.Note} {d : Demand}
  {result : Option Ir.Expr}

/-! ## Values -/

/-- An object of a type at an address is inside a variable. -/
def Inside (c : Course) (v : EntityId) (type : TypeId) (a : Ir.Expr) : Prop :=
  ∃ ptr k whole, c.TypeOf v whole ∧ Ir.Reaches [] (.addr ptr v) k a ∧
    ∀ size n, c.types.sizeOf type = .ok size → c.types.sizeOf whole = .ok n → k + size ≤ n

/-- An expression was lowered to a value that is as wide as its type. An object that is a member of
a variable is inside of it. -/
structure Delivered (c : Course) (e : Source.Expr) (type : TypeId) (x : Ir.Expr)
    (s : LowerState) : Prop where
  hasType : c.HasType e type
  gives : c.Gives e x
  valued : c.Valued type x s
  inside : ∀ v, Source.MemberOf c.last.entities v e → ∀ a, c.types.AddressOf type x a →
    c.Inside v type a

/-- The types that an expression carries are the same. -/
theorem Delivered.of_hasType (h : c.Delivered e type x s) (htype : c.HasType e type') :
    c.Delivered e type' x s := by
  obtain rfl := Option.some.inj (h.hasType.symm.trans htype)
  exact h

/-- What an expression was lowered to is as wide as its type, if it has a value. -/
def Delivers (c : Course) (e : Source.Expr) (result : Option Ir.Expr) (s : LowerState) : Prop :=
  ∀ x, result = some x → ∃ type, c.Delivered e type x s

/-- The same, when it is known that the expression gives it. -/
structure Made (c : Course) (e : Source.Expr) (type : TypeId) (result : Option Ir.Expr)
    (s : LowerState) : Prop where
  hasType : c.HasType e type
  answers : c.Answers e type result s
  inside : ∀ x, result = some x → ∀ v, Source.MemberOf c.last.entities v e → ∀ a,
    c.types.AddressOf type x a → c.Inside v type a

theorem made_of_answers (hmember : ∀ v, ¬ Source.MemberOf c.last.entities v e)
    (htype : c.HasType e type) (h : c.Answers e type result s) : c.Made e type result s :=
  ⟨htype, h, fun _ _ v hv => absurd hv (hmember v)⟩

section

variable {inline : Entity → Source.Expr → Lower Ir.Expr}

/-- With any demand, an expression leads to a value that is as wide as its type. -/
def Lowers (c : Course) (inline : Entity → Source.Expr → Lower Ir.Expr) (e : Source.Expr) : Prop :=
  ∀ d s, c.Leads s (lowerUsing inline d e) (c.Delivers e)

/-- The same, when it is known what the expression gives. -/
def Makes (c : Course) (inline : Entity → Source.Expr → Lower Ir.Expr) (e : Source.Expr) : Prop :=
  ∀ d s, c.Leads s (lowerUsing inline d e) fun result s' => ∃ type, c.Made e type result s'

/-- What an expression gives is known when it is lowered to so many levels of constants. -/
theorem Makes.lowers {depth : Nat} (hdepth : ∀ d e, lowerUsing inline d e = lowerWithin depth d e)
    (h : c.Makes inline e) : c.Lowers inline e := by
  intro d s hfirst hlast result s' hrun hend
  obtain ⟨hfine, type, hmade⟩ := h d s hfirst hlast hrun hend
  refine ⟨hfine, fun x hx => ⟨type, ?_⟩⟩
  subst hx
  have hgives : c.Gives e x := ⟨depth, d, s, s', hfirst, hdepth d e ▸ hrun, hend⟩
  exact ⟨hmade.hasType, hgives, hmade.answers x rfl hgives, hmade.inside x rfl⟩

/-! ## Literals and names -/

theorem makes_int {v : Int64} : c.Makes inline (.int n v) := by
  intro d s
  rw [lowerUsing]
  refine .bind .typeId fun type s₁ _ htype => .width fun w hw => .pure ⟨type, ?_⟩
  exact made_of_answers nofun htype (answers_of_valued fun _ => ⟨hw, nofun, trivial⟩)

/-- A literal is an address of its own. -/
theorem makes_str (hs : c.Sound) {v : String} (he : c.part.exprs (.str n v)) :
    c.Makes inline (.str n v) := by
  intro d s
  rw [lowerUsing]
  refine .bind .typeId fun type s₁ _ htype => .bind .stringId fun id s₂ _ _ =>
    .pointerWidth fun ptr hptr => .pure ⟨type, ?_⟩
  have hw := (hs.proper.expr _ he type htype).trans hptr
  exact made_of_answers nofun htype (answers_of_valued fun _ => ⟨hw, nofun, trivial⟩)

/-- The size of a type is a number. -/
theorem makes_sizeofType {t : TypeRef} : c.Makes inline (.sizeofType n t) := by
  intro d s
  rw [lowerUsing]
  refine .bind .typeId fun type s₁ _ htype => .bind .typeId fun _ s₂ _ _ => .width fun w hw =>
    .ask fun size _ => .pure ⟨type, ?_⟩
  exact made_of_answers nofun htype (answers_of_valued fun _ => ⟨hw, nofun, trivial⟩)

/-- So is that of an expression. -/
theorem makes_sizeofExpr : c.Makes inline (.sizeofExpr n e) := by
  intro d s
  rw [lowerUsing]
  refine .bind .typeId fun type s₁ _ htype => .bind .typeId fun _ s₂ _ _ => .width fun w hw =>
    .ask fun size _ => .pure ⟨type, ?_⟩
  exact made_of_answers nofun htype (answers_of_valued fun _ => ⟨hw, nofun, trivial⟩)

/-- A variable only adds code, and so does the value of a constant. -/
theorem additive_var (inline : Entity → Source.Expr → Lower Ir.Expr)
    [∀ e v A, Stepwise .any A (inline e v) [v]] (id : EntityId) (e : Entity) :
    Additive (match e.constantValue? with
    | some value => inline e value >>= fun x => pure (some x)
    | none => do
      let type ← (liftM e.typeId : Lower TypeId)
      let x ← designated type id
      pure (some x)) := by
  split <;> infer_instance

variable [hinl : ∀ e v A, Stepwise .any A (inline e v) [v]]

/-- A constant stands for its value, and anything else for itself or its address. -/
theorem makes_var (hs : c.Sound) (he : c.part.exprs (.var n id))
    (hinline : ∀ e v s, c.part.exprs v → c.Leads s (inline e v) fun x s' =>
      ∃ type, c.Delivered v type x s') : c.Makes inline (.var n id) := by
  intro d s
  have := additive_var inline id
  rw [lowerUsing]
  refine .bind .typeId fun type s₁ _ htype => .entity fun e e' hget hget' hnumbered => ?_
  obtain ⟨sequence, rfl⟩ := hnumbered
  obtain ⟨τ, hτ⟩ := hs.typed id _ hget'
  obtain ⟨hnode, hconstant⟩ := hs.annotated.expr _ he _ τ hget' hτ
  have hsame := hnode type htype
  -- a constant has the width of its value, any other name that of its type
  cases hvalue : e.constantValue? with
  | some value =>
    have hpart : c.part.exprs value := hs.closed.constant he hget' hvalue
    refine .bind (hinline e value s₁ hpart) fun x s₂ _ hdelivered => .pure ⟨type, htype, ?_, ?_⟩
    · obtain ⟨σ, hx⟩ := hdelivered
      have hw := hconstant value hvalue σ hx.hasType
      exact answers_of_valued fun _ =>
        hx.valued.retype ((hsame.registerWidth_eq hs.measured).trans hw.symm)
    -- no part of a constant is asked for, as it is no object
    · rintro _ _ v (⟨hv, hnone⟩ | _)
      obtain rfl := Except.ok.inj (hv.symm.trans hget')
      rw [Entity.constantValue?] at hvalue hnone
      rw [hnone] at hvalue
      cases hvalue
  | none =>
    refine .lift fun τ' hτ' => ?_
    obtain rfl : τ = τ' := by
      have hsettled : e.type = .settled τ := hτ
      rw [Entity.typeId, hsettled] at hτ'
      exact Except.ok.inj hτ'
    have hv : c.TypeOf id τ := ⟨_, hget', hτ⟩
    refine .bind (leads_designated hv (EntityTable.lt_of_get hget)) fun x s₂ _ hdesignated =>
      .pure ⟨type, htype, ?_, ?_⟩
    · exact answers_of_valued fun _ => hdesignated.1.retype (hsame.registerWidth_eq hs.measured)
    · rintro _ hx v hmember a ha
      obtain rfl := Option.some.inj hx
      -- the object is the whole variable
      cases hmember with
      | var _ _ =>
        rw [TypeTable.AddressOf, hsame.isByAddress_eq] at ha
        obtain ⟨ptr, rfl⟩ := hdesignated.2 a ha
        refine ⟨ptr, 0, τ, hv, .self, fun size n hsize hn => ?_⟩
        rw [hsame.sizeOf_eq hs.measured, hn] at hsize
        obtain rfl := Except.ok.inj hsize
        exact (Nat.zero_add _).le

/-- An operand whose value is used. -/
theorem Lowers.operand {f : Ir.Expr → Lower β} {K : β → LowerState → Prop}
    [hf : ∀ x, AdditiveAfter x (f x)] (h : c.Lowers inline e)
    (hnext : ∀ x type s₁, Grown s s₁ → c.Delivered e type x s₁ → c.Leads s₁ (f x) K) :
    c.Leads s (lowerUsing inline .value e >>= fun result => needed e.location result >>= f) K := by
  have (x : Ir.Expr) : AdditiveAfter ((), x) (f x) := (hf x).elsewhere
  have (result : Option Ir.Expr) : AdditiveAfter result (needed e.location result >>= f) :=
    AdditiveAfter.elsewhere (inferInstance : Additive _)
  refine .bind (h .value s) fun result s₁ hg hdelivers => ?_
  cases result with
  | none => exact Leads.fail _
  | some x =>
    obtain ⟨type, hx⟩ := hdelivers x rfl
    exact hnext x type s₁ hg hx

/-- A statement that stores nothing. -/
theorem typedAction_of_reads {action : Ir.Action} (h : ∀ r ∈ action.reads, c.Reads [] r)
    (hne : ∀ target value, action ≠ .assign target value) : c.TypedAction code action :=
  .plain (fun r hr => (h r hr).of_nil) fun target value heq => absurd heq (hne target value)

/-! ## Operators -/

/-- A unary operation has a value of its type. -/
theorem makes_unary (hs : c.Sound) {op : Source.UnaryOp} (he : c.part.exprs (.unary n op e))
    (ho : c.Lowers inline e) : c.Makes inline (.unary n op e) := by
  intro d s
  have hcompute : op ≠ .plus → c.Leads s (do
      let type ← typeId n.type
      let operand ← needed e.location (← lowerUsing inline .value e)
      let w ← width type
      return some (.uni w (← Ir.Op.ofUnary op) operand)) fun result s' =>
        ∃ type, c.Made (.unary n op e) type result s' := by
    intro _
    refine .bind .typeId fun type s₁ _ htype => ho.operand fun x τ s₂ _ hx => .width fun w hw =>
      .lift fun op _ => .pure ⟨type, ?_⟩
    exact made_of_answers nofun htype (answers_of_valued fun _ => ⟨hw, hx.valued.reads, trivial⟩)
  rw [lowerUsing]
  cases op with
  | plus =>
    refine .bind .typeId fun type s₁ _ htype => (ho d s₁).mono fun result s₂ hresult => ⟨type, ?_⟩
    refine made_of_answers nofun htype fun x hx _ => ?_
    obtain ⟨τ, hx⟩ := hresult x hx
    have hsame := hs.annotated.expr _ he type htype τ hx.hasType
    exact hx.valued.retype (hsame.registerWidth_eq hs.measured)
  | _ => exact hcompute (by decide)

/-- So has a binary operation. -/
theorem makes_binary {op : Source.BinaryOp} (hl : c.Lowers inline l) (hr : c.Lowers inline r) :
    c.Makes inline (.binary n op l r) := by
  intro d s
  rw [lowerUsing]
  refine .bind .typeId fun type s₁ _ htype => .bind .typeId fun _ s₂ _ _ => .bind .typeId
    fun _ s₃ _ _ => hr.operand fun y τ s₄ _ hy => hl.operand fun x σ s₅ _ hx => ?_
  refine .bind (leads_binary hx.valued.reads hy.valued.reads) fun z s₆ _ hz => .pure ⟨type, ?_⟩
  exact made_of_answers nofun htype (answers_of_valued fun _ => hz)

/-- Both sides leave their truth in a temporary. -/
theorem makes_logical (hs : c.Sound) {op : Source.LogicalOp}
    (he : c.part.exprs (.logical n op l r)) (hl : c.Lowers inline l) (hr : c.Lowers inline r) :
    c.Makes inline (.logical n op l r) := by
  intro d s
  -- the two operators differ in where they branch to
  have hrest (yes no : Ir.Label → Ir.Label → Ir.Label) : c.Leads s (do
      let type ← typeId n.type
      let rightLabel ← newLabel
      let endLabel ← newLabel
      let w ← width type
      let ptr ← pointerWidth
      let tmp ← temporary type
      let left ← needed l.location (← lowerUsing inline .value l)
      store l.location (.addr ptr tmp) (truth w left)
      branch n.location (.var w tmp) (yes rightLabel endLabel) (no rightLabel endLabel)
      place rightLabel
      let right ← needed r.location (← lowerUsing inline .value r)
      store r.location (.addr ptr tmp) (truth w right)
      place endLabel
      return d.answer (.var w tmp)) fun result s' =>
        ∃ type, c.Made (.logical n op l r) type result s' := by
    refine .bind .typeId fun type s₁ _ htype => .bind .newLabel fun rightLabel s₂ _ _ =>
      .bind .newLabel fun endLabel s₃ _ _ => .width fun w hw => .pointerWidth fun ptr _ => ?_
    refine .bind .temporary fun v s₄ _ ⟨hnew, htypeOf, hv, hsize, _⟩ => ?_
    have hin := TypeTable.inRegister_of_isInteger (hs.annotated.expr _ he type htype)
    have htemp : c.IsTemporary v type := ⟨hnew, htypeOf, hin⟩
    have hvar := readsAll_var htypeOf hin.1 hw
    have hstore {code : List Ir.Stmt} {x : Ir.Expr} (hx : c.ReadsAll x) :
        c.TypedAction code (.assign (.addr ptr v) (truth w x)) := by
      have hzero : c.ReadsAll (.int x.width 0) := nofun
      exact typedAction_store_temporary htemp hw fun r hr => (readsAll_bin hx hzero r hr).of_nil
    refine hl.operand fun x σ s₅ hg₅ hx => ?_
    refine .bind (.emit (hstore hx.valued.reads)) fun _ s₆ hg₆ _ => ?_
    refine .bind (.emit (typedAction_of_reads hvar nofun)) fun _ s₇ hg₇ _ => ?_
    refine .bind (.emit (typedAction_of_reads nofun nofun)) fun _ s₈ hg₈ _ => ?_
    refine hr.operand fun y τ s₉ hg₉ hy => ?_
    refine .bind (.emit (hstore hy.valued.reads)) fun _ s₁₀ hg₁₀ _ => ?_
    refine .bind (.emit (typedAction_of_reads nofun nofun)) fun _ s₁₁ hg₁₁ _ => .pure ⟨type, ?_⟩
    have hg := hg₅.trans (hg₆.trans (hg₇.trans (hg₈.trans (hg₉.trans (hg₁₀.trans hg₁₁)))))
    have hlt : v.index < s₄.entities.size := by omega
    exact made_of_answers nofun htype (answers_answer fun _ =>
      ⟨hw, hvar, hlt.trans_le hg.carried.size_le⟩)
  rw [lowerUsing]
  cases op with
  | and => exact hrest (fun a _ => a) fun _ b => b
  | or => exact hrest (fun _ b => b) fun a _ => a

/-! ## Assignments -/

/-- A node that has the type of an operand. -/
theorem made_of_same (hs : c.Sound) (hmember : ∀ v, ¬ Source.MemberOf c.last.entities v e)
    (hsame : c.types.SameTypes e.type l.type) (htype : c.HasType e type)
    (htype' : c.HasType l type') (h : c.Answers e type' result s) :
    ∃ type, c.Made e type result s :=
  ⟨type, made_of_answers hmember htype
    (h.retype ((hsame type htype type' htype').registerWidth_eq hs.measured))⟩

/-- The object that an assignment selects. -/
theorem Delivered.assigned (h : c.Delivered l type x s) (he : c.part.exprs e)
    (hl : e.assigned? = some l) (hpart : c.part.exprs l) : c.Assigned e l type x s :=
  ⟨he, hl, hpart, h.hasType, h.gives, h.valued⟩

section

variable (hs : c.Sound) (he : c.part.exprs (.assign n l r)) (hl : c.Lowers inline l)
  (hr : c.Lowers inline r)

include hs he

theorem exprs_assign : c.part.exprs l ∧ c.part.exprs r :=
  ⟨hs.closed.operand he (by simp [Source.Expr.operands]),
    hs.closed.operand he (by simp [Source.Expr.operands])⟩

/-- The value that is assigned is as wide as the object. -/
theorem Delivered.width_assigned (hy : c.Delivered r type' y s) (htype : c.HasType l type) :
    c.types.registerWidth type = .ok y.width :=
  ((hs.annotated.expr _ he).2 type htype type' hy.hasType).trans hy.valued.width

include hl hr

/-- An aggregate is copied to its target. -/
theorem leads_assignCopy (htype : c.HasType l type)
    (haggregate : c.types.isAggregate type = .ok true) : c.Leads s (do
      let src ← needed r.location (← lowerUsing inline .value r)
      let dst ← needed l.location (← lowerUsing inline .value l)
      return d.answer (← copyAggregate n.location type dst src))
        (c.Answers (.assign n l r) type) := by
  have hbyAddress := TypeTable.isByAddress_of_isAggregate haggregate
  have hptr := TypeTable.registerWidth_of_isByAddress hbyAddress
  refine hr.operand fun src τ s₁ _ hsrc => hl.operand fun dst σ s₂ hg₂ hdst => ?_
  have hdst := hdst.of_hasType htype
  have hsrc' : c.Pointing src s₂ :=
    ⟨hptr.symm.trans (hsrc.width_assigned hs he htype), hsrc.valued.reads,
      .mono hg₂ hsrc.valued.located⟩
  have hreceives : c.Receives type dst r :=
    .assigned he htype ⟨dst, type, hdst.gives, htype, .inl ⟨hbyAddress, rfl⟩⟩
  exact .bind (leads_copyAggregate hs.measured haggregate (hdst.valued.pointing hptr) hsrc'
    hreceives hsrc.gives) fun x s₃ _ hx => .pure (answers_answer fun _ => hx.valued hptr)

/-- A value is stored without being asked for. -/
theorem leads_assignEffects (htype : c.HasType l type) (hin : c.types.InRegister type) :
    c.Leads s (do
      let value ← needed r.location (← lowerUsing inline .value r)
      let target ← needed l.location (← lowerUsing inline .value l)
      store n.location (← objectAddress l.location type target) value
      return none) (c.Answers (.assign n l r) type) := by
  refine hr.operand fun y τ s₁ _ hy => hl.operand fun x σ s₂ _ hx => ?_
  have hassigned := (hx.of_hasType htype).assigned he rfl (exprs_assign hs he).1
  refine .bind (leads_objectAddress hassigned.valued) fun a s₃ _ ⟨heq, haddress, ha⟩ => ?_
  subst heq
  exact .bind (.emit (hassigned.typedAction_store hin haddress .self (hy.width_assigned hs he htype)
    (fun r hr => (ha.reads r hr).of_nil) fun r hr => (hy.valued.reads r hr).of_nil))
      fun _ _ _ _ => .pure answers_none

/-- The value that is assigned is kept in a temporary. -/
theorem leads_assignValue (htype : c.HasType l type) (hin : c.types.InRegister type) :
    c.Leads s (do
      let w ← width type
      let ptr ← pointerWidth
      let tmp ← temporary type
      let value ← needed r.location (← lowerUsing inline .value r)
      store r.location (.addr ptr tmp) value
      let target ← needed l.location (← lowerUsing inline .value l)
      store l.location (← objectAddress l.location type target) (.var w tmp)
      return some (.var w tmp)) (c.Answers (.assign n l r) type) := by
  refine .width fun w hw => .pointerWidth fun ptr _ => ?_
  refine .bind .temporary fun v s₁ _ ⟨hnew, htypeOf, hv, hsize, _⟩ => ?_
  -- the temporary is as wide as the value that it is written with
  have hvar := readsAll_var htypeOf hin.1 hw
  refine hr.operand fun y τ s₂ hg₂ hy => ?_
  refine .bind (.emit (typedAction_store_temporary ⟨hnew, htypeOf, hin⟩
    (hy.width_assigned hs he htype) fun r hr => (hy.valued.reads r hr).of_nil)) fun _ s₃ hg₃ _ => ?_
  refine hl.operand fun x σ s₄ hg₄ hx => ?_
  have hassigned := (hx.of_hasType htype).assigned he rfl (exprs_assign hs he).1
  refine .bind (leads_objectAddress hassigned.valued) fun a s₅ _ ⟨heq, haddress, ha⟩ => ?_
  subst heq
  refine .bind (.emit (hassigned.typedAction_store hin haddress .self hw
    (fun r hr => (ha.reads r hr).of_nil) fun r hr => (hvar r hr).of_nil))
      fun _ s₆ hg₆ _ => .pure (answers_of_valued fun _ => ⟨hw, hvar, ?_⟩)
  have hlt : v.index < s₁.entities.size := by omega
  exact hlt.trans_le (hg₂.trans (hg₃.trans (hg₄.trans hg₆))).carried.size_le

/-- An assignment copies an aggregate, or stores a value. -/
theorem makes_assign : c.Makes inline (.assign n l r) := by
  intro d s
  have hnode {type type' : TypeId} (htype : c.HasType (.assign n l r) type)
      (htype' : c.HasType l type') (result : Option Ir.Expr) (s' : LowerState) :
      c.Answers (.assign n l r) type' result s' → ∃ type, c.Made (.assign n l r) type result s' :=
    made_of_same hs nofun (hs.annotated.expr _ he).1 htype htype'
  have hin {type : TypeId} (htype : c.HasType l type)
      (haggregate : c.types.isAggregate type = .ok false) : c.types.InRegister type := by
    obtain ⟨hvoid, hfunction⟩ := hs.proper.expr _ he type htype
    exact TypeTable.inRegister_of_not haggregate hfunction hvoid
  rw [lowerUsing]
  cases d with
  | effects =>
    refine .bind .typeId fun type s₁ _ htype => .bind .typeId fun type' s₂ _ htype' =>
      .ask fun b hb => .ite (fun hcopy => ?_) fun hcopy => ?_
    -- an aggregate is copied, whatever is asked for; anything else is stored, and its value can be
    -- asked
    · subst hcopy
      exact (leads_assignCopy hs he hl hr htype' hb).mono (hnode htype htype')
    · rw [Bool.not_eq_true] at hcopy
      subst hcopy
      exact (leads_assignEffects hs he hl hr htype' (hin htype' hb)).mono (hnode htype htype')
  | value =>
    refine .bind .typeId fun type s₁ _ htype => .bind .typeId fun type' s₂ _ htype' =>
      .ask fun b hb => .ite (fun hcopy => ?_) fun hcopy => ?_
    · subst hcopy
      exact (leads_assignCopy hs he hl hr htype' hb).mono (hnode htype htype')
    · rw [Bool.not_eq_true] at hcopy
      subst hcopy
      exact (leads_assignValue hs he hl hr htype' (hin htype' hb)).mono (hnode htype htype')

end

/-- An assignment with an operation stores in the width of its target. -/
theorem makes_opAssign (hs : c.Sound) {op : Source.BinaryOp}
    (he : c.part.exprs (.opAssign n op l r))
    (hl : c.Lowers inline l) (hr : c.Lowers inline r) : c.Makes inline (.opAssign n op l r) := by
  intro d s
  rw [lowerUsing]
  refine .bind .typeId fun type s₁ _ htype => .bind .typeId fun type' s₂ _ htype' => ?_
  refine hr.operand fun y τ s₃ _ hy => hl.operand fun x σ s₄ _ hx => .ask fun signed _ => ?_
  have hsame := hs.annotated.expr _ he
  have hin := TypeTable.inRegister_of_isScalar (hs.proper.expr _ he type' htype')
  have hassigned := (hx.of_hasType htype').assigned he rfl
    (hs.closed.operand he (by simp [Source.Expr.operands]))
  exact (leads_opAssign hs.measured hassigned hin htype (hsame type htype type' htype')
    hy.valued.reads).mono fun _ _ => made_of_same hs nofun hsame htype htype'

/-- So does a step in front. -/
theorem makes_preStep (hs : c.Sound) {op : Source.StepOp} (he : c.part.exprs (.preStep n op l))
    (hl : c.Lowers inline l) : c.Makes inline (.preStep n op l) := by
  intro d s
  rw [lowerUsing]
  refine .bind .typeId fun type s₁ _ htype => .bind .typeId fun type' s₂ _ htype' =>
    .width fun w hw => hl.operand fun x σ s₃ _ hx => ?_
  have hsame := hs.annotated.expr _ he
  have hin := TypeTable.inRegister_of_isScalar (hs.proper.expr _ he type' htype')
  have hassigned := (hx.of_hasType htype').assigned he rfl
    (hs.closed.operand he (by simp [Source.Expr.operands]))
  have hone : c.ReadsAll (.int w 1) := nofun
  exact (leads_opAssign hs.measured hassigned hin htype (hsame type htype type' htype')
    hone).mono fun _ _ => made_of_same hs nofun hsame htype htype'

/-- So does a step behind, and its value is the old one. -/
theorem makes_postStep (hs : c.Sound) {op : Source.StepOp} (he : c.part.exprs (.postStep n op l))
    (hl : c.Lowers inline l) : c.Makes inline (.postStep n op l) := by
  intro d s
  rw [lowerUsing]
  refine .bind .typeId fun type s₁ _ htype => .bind .typeId fun type' s₂ _ htype' =>
    .width fun w hw => hl.operand fun x σ s₃ _ hx => ?_
  have hsame := hs.annotated.expr _ he
  have hin := TypeTable.inRegister_of_isScalar (hs.proper.expr _ he type' htype')
  have hassigned := (hx.of_hasType htype').assigned he rfl
    (hs.closed.operand he (by simp [Source.Expr.operands]))
  exact (leads_postStep hs.measured hassigned hin htype (hsame type htype type' htype')
    hw).mono fun _ _ => made_of_same hs nofun hsame htype htype'

/-! ## Conditions -/

/-- What is left over of an expression is evaluated. -/
theorem leads_discard (h : c.Delivers e result s) :
    c.Leads s (discard location result) fun _ _ => True := by
  cases result with
  | none => exact .pure trivial
  | some x =>
    obtain ⟨type, hx⟩ := h x rfl
    have htyped : c.TypedAction s.function.body.toList (.eval x) :=
      typedAction_of_reads hx.valued.reads nofun
    exact (Leads.emit htyped).mono fun _ _ _ => trivial

/-- The branches of a condition without a value. -/
theorem leads_voidArms {yesLabel noLabel endLabel : Ir.Label} (hyes : c.Lowers inline yes)
    (hno : c.Lowers inline no) :
    c.Leads s (voidArms inline d yes no yesLabel noLabel endLabel) (c.Answers e type) := by
  rw [voidArms]
  have hlabel {code : List Ir.Stmt} {l : Ir.Label} : c.TypedAction code (.label l) :=
    typedAction_of_reads nofun nofun
  refine .bind (.emit hlabel) fun _ s₁ _ _ => .bind (hyes d s₁) fun result s₂ _ hresult => ?_
  refine .bind (leads_discard hresult) fun _ s₃ _ _ => ?_
  refine .bind (.emit (typedAction_of_reads nofun nofun)) fun _ s₄ _ _ => ?_
  refine .bind (.emit hlabel) fun _ s₅ _ _ => .bind (hno d s₅) fun result s₆ _ hresult => ?_
  refine .bind (leads_discard hresult) fun _ s₇ _ _ => ?_
  exact .bind (.emit hlabel) fun _ s₈ _ _ => .pure answers_none

/-- Both branches leave their value in a temporary. -/
theorem leads_valueArms {yesLabel noLabel endLabel : Ir.Label} {carried : TypeId}
    (hin : c.types.InRegister carried)
    (hcarried : c.types.registerWidth carried = c.types.registerWidth type)
    (hyes : c.Lowers inline yes) (hno : c.Lowers inline no)
    (hyesWidth : c.types.Known yes.type fun σ => c.types.registerWidth type =
      c.types.registerWidth σ)
    (hnoWidth : c.types.Known no.type fun σ => c.types.registerWidth type =
      c.types.registerWidth σ) :
    c.Leads s
      (valueArms inline d yes no yesLabel noLabel endLabel type carried) (c.Answers e type) := by
  rw [valueArms]
  have hlabel {code : List Ir.Stmt} {l : Ir.Label} : c.TypedAction code (.label l) :=
    typedAction_of_reads nofun nofun
  refine .width fun w hw => .pointerWidth fun ptr _ => ?_
  refine .bind .temporary fun v s₂ _ ⟨hnew, htypeOf, hv, hsize, _⟩ => ?_
  -- both arms write the same temporary, which is all that is read afterwards
  have htemp : c.IsTemporary v carried := ⟨hnew, htypeOf, hin⟩
  have hvar := readsAll_var htypeOf hin.1 (hcarried.trans hw)
  have hstore {code : List Ir.Stmt} {e : Source.Expr} {σ : TypeId} {x : Ir.Expr} {s : LowerState}
      (hwidth : c.types.Known e.type fun σ => c.types.registerWidth type = c.types.registerWidth σ)
      (hx : c.Delivered e σ x s) : c.TypedAction code (.assign (.addr ptr v) x) :=
    typedAction_store_temporary htemp (hcarried.trans ((hwidth σ hx.hasType).trans hx.valued.width))
      fun r hr => (hx.valued.reads r hr).of_nil
  refine .bind (.emit hlabel) fun _ s₃ hg₃ _ => hyes.operand fun x σ s₄ hg₄ hx => ?_
  refine .bind (.emit (hstore hyesWidth hx)) fun _ s₅ hg₅ _ => ?_
  refine .bind (.emit (typedAction_of_reads nofun nofun)) fun _ s₆ hg₆ _ => ?_
  refine .bind (.emit hlabel) fun _ s₇ hg₇ _ => hno.operand fun y τ s₈ hg₈ hy => ?_
  refine .bind (.emit (hstore hnoWidth hy)) fun _ s₉ hg₉ _ => ?_
  refine .bind (.emit hlabel) fun _ s₁₀ hg₁₀ _ => .pure (answers_answer fun _ => ⟨hw, hvar, ?_⟩)
  have hlt : v.index < s₂.entities.size := by omega
  exact hlt.trans_le (hg₃.trans (hg₄.trans (hg₅.trans (hg₆.trans (hg₇.trans (hg₈.trans
    (hg₉.trans hg₁₀))))))).carried.size_le

/-- The value of a condition is a temporary of its type. -/
theorem makes_cond (hs : c.Sound) (he : c.part.exprs (.cond n test yes no))
    (htest : c.Lowers inline test) (hyes : c.Lowers inline yes) (hno : c.Lowers inline no) :
    c.Makes inline (.cond n test yes no) := by
  intro d s
  rw [lowerUsing_cond]
  refine .bind .typeId fun type s₁ _ htype => .bind .newLabel fun _ s₂ _ _ =>
    .bind .newLabel fun _ s₃ _ _ => .bind .newLabel fun _ s₄ _ _ => ?_
  refine htest.operand fun x σ s₅ _ hx => ?_
  refine .bind (.emit (typedAction_of_reads hx.valued.reads nofun)) fun _ s₆ _ _ => ?_
  obtain ⟨hyesWidth, hnoWidth⟩ := hs.annotated.expr _ he
  have hmade (result : Option Ir.Expr) (s : LowerState)
      (h : c.Answers (.cond n test yes no) type result s) :
      ∃ type, c.Made (.cond n test yes no) type result s :=
    ⟨type, made_of_answers nofun htype h⟩
  refine .ask fun b hb => .ite (fun htrue => ?_) fun hfalse => ?_
  -- a conditional without a value only runs its arms
  · exact (leads_voidArms hyes hno).mono hmade
  · rw [Bool.not_eq_true] at hfalse
    subst hfalse
    refine .isByAddress fun b hbyAddress => .ite (fun htrue => ?_) fun hfalse => ?_
    · -- an aggregate is carried by its address
      subst htrue
      refine .bind .pointerTo fun pointer s₇ _ ⟨⟨ref, href⟩, _⟩ => ?_
      obtain ⟨hin, hw⟩ := hs.measured.registerWidth_of_lookup? href
      exact (leads_valueArms hin (hw.trans (TypeTable.registerWidth_of_isByAddress hbyAddress).symm)
        hyes hno (hyesWidth type htype) (hnoWidth type htype)).mono hmade
    · rw [Bool.not_eq_true] at hfalse
      subst hfalse
      exact (leads_valueArms ⟨hbyAddress, hb⟩ rfl hyes hno (hyesWidth type htype)
        (hnoWidth type htype)).mono hmade

/-! ## Casts -/

/-- A cast has a value of its type. -/
theorem makes_cast (hs : c.Sound) (he : c.part.exprs (.cast n e)) (ho : c.Lowers inline e) :
    c.Makes inline (.cast n e) := by
  intro d s
  rw [lowerUsing]
  dsimp only
  refine .bind .typeId fun type s₁ _ htype => .ask fun b hb => .ite (fun htrue => ?_)
    fun hfalse => ?_
  -- nothing is delivered by a cast to void
  · have hnone {s : LowerState} : c.Leads s (pure none) fun result s' =>
        ∃ type, c.Made (.cast n e) type result s' :=
      .pure ⟨type, made_of_answers nofun htype answers_none⟩
    refine .bind (ho d s₁) fun result s₂ _ hresult => .ite (fun _ => ?_) fun _ => hnone
    exact .bind (leads_discard hresult) fun _ _ _ _ => hnone
  · rw [Bool.not_eq_true] at hfalse
    subst hfalse
    refine .bind .typeId fun source s₂ _ hsource => .castChanges fun changes hchanges => ?_
    refine .ite (fun _ => ?_) fun hsame => ?_
    · refine .ask fun signed _ => .width fun w hw => ho.operand fun x τ s₃ _ hx => .pure ⟨type, ?_⟩
      exact made_of_answers nofun htype (answers_of_valued fun _ => ⟨hw, hx.valued.reads, trivial⟩)
    · rw [Bool.not_eq_true] at hsame
      -- the conversion changes nothing, so the value of the operand is the one of the cast
      subst hsame
      refine (ho d s₂).mono fun result s₃ hresult => ⟨type, ?_⟩
      refine made_of_answers nofun htype fun x hx _ => ?_
      obtain ⟨τ, hx⟩ := hresult x hx
      have hw := hs.annotated.expr _ he type htype source hsource hchanges hb
      exact (hx.of_hasType hsource).valued.retype hw

/-! ## Addresses and members -/

/-- The address of an object is a pointer. -/
theorem makes_addr (hs : c.Sound) (he : c.part.exprs (.addr n e)) (ho : c.Lowers inline e) :
    c.Makes inline (.addr n e) := by
  intro d s
  rw [lowerUsing]
  refine .bind .typeId fun type s₁ _ htype => .bind .typeId fun type' s₂ _ htype' =>
    ho.operand fun x τ s₃ _ hx => ?_
  refine .bind (leads_objectAddress (hx.of_hasType htype').valued) fun a s₄ _ ⟨heq, _, ha⟩ =>
    .pure ⟨type, ?_⟩
  subst heq
  have hw := hs.proper.expr _ he type htype
  exact made_of_answers nofun htype (answers_of_valued fun _ => ha.valued hw)

/-- What is read from an address, or is the address. -/
theorem makes_load (hmember : ∀ v, ¬ Source.MemberOf c.last.entities v e) (he : c.part.exprs e)
    (htype : c.HasType e type) (ha : c.Pointing a s) : c.Leads s (do return some (← load type a))
      fun result s' => ∃ type, c.Made e type result s' :=
  .bind (leads_load he htype ha) fun _ _ _ hx =>
    .pure ⟨type, made_of_answers hmember htype (answers_of_valued hx.1)⟩

/-- A dereference reads an object of the type that is pointed to. -/
theorem makes_deref (hs : c.Sound) (he : c.part.exprs (.deref n e)) (ho : c.Lowers inline e) :
    c.Makes inline (.deref n e) := by
  intro d s
  rw [lowerUsing]
  refine .bind .typeId fun type s₁ _ htype => ho.operand fun x τ s₂ _ hx => ?_
  refine makes_load nofun he htype (hx.valued.pointing ?_)
  rcases hs.annotated.expr _ he type htype τ hx.hasType with ⟨base, hbase, -⟩ | ⟨hfunction, -⟩
  · exact hs.measured.registerWidth_of_baseType hbase
  · exact TypeTable.registerWidth_of_isByAddress (TypeTable.isByAddress_of_isFunction hfunction)

/-- An index reads an element. -/
theorem makes_index (he : c.part.exprs (.index n l r)) (hl : c.Lowers inline l)
    (hr : c.Lowers inline r) : c.Makes inline (.index n l r) := by
  intro d s
  rw [lowerUsing]
  refine .bind .typeId fun type s₁ _ htype => .bind .typeId fun type' s₂ _ htype' =>
    .ask fun size hsize => hr.operand fun y τ s₃ _ hy => hl.operand fun x σ s₄ _ hx => ?_
  refine .bind (leads_scale hy.valued.reads) fun offset s₅ _ ⟨heq, hoffset⟩ =>
    .pointerWidth fun ptr hptr => ?_
  exact makes_load nofun he htype ⟨hptr, readsAll_bin hx.valued.reads hoffset, trivial⟩

/-- An object has one address. -/
theorem addressOf_unique {b : Ir.Expr} (ha : c.types.AddressOf type x a)
    (hb : c.types.AddressOf type x b) : a = b := by
  rcases ha with ⟨htrue, rfl⟩ | ⟨hfalse, ptr, hptr, ha⟩ <;>
    rcases hb with ⟨htrue', rfl⟩ | ⟨hfalse', ptr', hptr', hb⟩
  · rfl
  · cases htrue.symm.trans hfalse'
  · cases hfalse.symm.trans htrue'
  · obtain rfl := Except.ok.inj (hptr.symm.trans hptr')
    exact Option.some.inj (ha.symm.trans hb)

/-- A member of an object inside a variable is inside the variable. -/
theorem Inside.member {name : String} {composite part : TypeId} {offset : Nat} (hs : c.Sound)
    (h : c.Inside v composite base) (hsame : c.types.SameType type part)
    (hmember : c.types.member? composite name = .ok (some (part, offset)))
    (hreach : Ir.Reaches [] base offset a) : c.Inside v type a := by
  obtain ⟨ptr, k, whole, hv, hbase, hinside⟩ := h
  obtain ⟨m, hm⟩ := TypeTable.sizeOf_of_member? hmember
  refine ⟨ptr, k + offset, whole, hv, hbase.trans hreach, fun size n hsize hn => ?_⟩
  rw [hsame.sizeOf_eq hs.measured] at hsize
  have hpart := hs.measured.member_inside hmember hm hsize
  have hwhole := hinside m n hm hn
  omega

/-- A member reads the part of the object, which is inside of the variable that the object is inside
of. -/
theorem makes_member (hs : c.Sound) {name : String} (he : c.part.exprs (.member n e name))
    (ho : c.Lowers inline e) : c.Makes inline (.member n e name) := by
  intro d s
  rw [lowerUsing]
  refine .bind .typeId fun type s₁ _ htype => .bind .typeId fun composite s₂ _ hcomposite =>
    ho.operand fun x τ s₃ _ hx => ?_
  have hx := hx.of_hasType hcomposite
  refine .bind (leads_member he htype fun hb =>
    hx.valued.pointing (TypeTable.registerWidth_of_isByAddress hb))
      fun y s₄ _ ⟨hy, part, offset, a, hmember, hreach, haddress⟩ =>
        .pure ⟨type, htype, answers_of_valued hy, ?_⟩
  rintro _ heq v hv b hb
  obtain rfl := Option.some.inj heq
  obtain rfl := addressOf_unique haddress hb
  cases hv with
  | member hv =>
    have hsame := hs.annotated.expr _ he type htype composite hcomposite part offset hmember
    have hbase := hx.inside v hv x (.inl ⟨TypeTable.isByAddress_of_member? hmember, rfl⟩)
    exact hbase.member hs hsame hmember hreach

/-- A member behind a pointer reads the part of what is pointed to. -/
theorem makes_ptrMember (hs : c.Sound) {name : String} (he : c.part.exprs (.ptrMember n e name))
    (ho : c.Lowers inline e) : c.Makes inline (.ptrMember n e name) := by
  intro d s
  rw [lowerUsing]
  refine .bind .typeId fun type s₁ _ htype => .bind .typeId fun pointer s₂ _ hpointer =>
    .ask fun composite hcomposite => ho.operand fun x τ s₃ _ hx => ?_
  have hptr := hs.measured.registerWidth_of_baseType hcomposite
  refine .bind (leads_member he htype fun _ => (hx.of_hasType hpointer).valued.pointing hptr)
    fun y s₄ _ ⟨hy, _⟩ => .pure ⟨type, made_of_answers nofun htype (answers_of_valued hy)⟩

/-! ## Calls -/

/-- Arguments are read in the widths of their types. -/
theorem leads_lowerArgs {es : List Source.Expr} (h : ∀ e ∈ es, c.Lowers inline e) :
    c.Leads s (lowerArgs inline es) fun xs _ => ∀ r ∈ Ir.Expr.readsOfAll xs, c.Reads [] r := by
  induction es with
  | nil =>
    rw [lowerArgs]
    exact .pure nofun
  | cons e es ih =>
    rw [lowerArgs]
    refine .bind (ih fun e he => h e (List.mem_cons_of_mem _ he)) fun xs s₁ _ hxs =>
      .bind .typeId fun _ s₂ _ _ => .bind leads_refuseComposite fun _ s₃ _ _ => ?_
    refine (h e List.mem_cons_self).operand fun x _ s₄ _ hx => .pure fun r hr => ?_
    exact (List.mem_append.1 hr).elim (hx.valued.reads r) (hxs r)

/-- A call has the type that its function returns. -/
theorem makes_call (hs : c.Sound) {args : List Source.Expr} (he : c.part.exprs (.call n e args))
    (ho : c.Lowers inline e) (ha : ∀ e ∈ args, c.Lowers inline e) :
    c.Makes inline (.call n e args) := by
  intro d s
  rw [lowerUsing]
  refine .bind .typeId fun type s₁ _ htype => .bind leads_refuseComposite fun _ s₂ _ _ =>
    .bind (leads_lowerArgs ha) fun xs s₃ _ hxs => ho.operand fun x τ s₄ _ hx => ?_
  exact (leads_call (hs.annotated.expr _ he type htype) hx.valued.reads hxs).mono
    fun _ _ h => ⟨type, made_of_answers nofun htype h⟩

end

/-! ## Expressions -/

/-- How the values of constants are lowered: as expressions are, to a depth below. -/
structure Inlines (c : Course) (inline : Entity → Source.Expr → Lower Ir.Expr) (depth : Nat) :
    Prop where
  stepwise : ∀ e v A, Stepwise .any A (inline e v) [v]
  lowerUsing_eq : ∀ d e, lowerUsing inline d e = lowerWithin depth d e
  leads : ∀ e v s, c.part.exprs v → c.Leads s (inline e v) fun x s' =>
    ∃ type, c.Delivered v type x s'

section

variable {inline : Entity → Source.Expr → Lower Ir.Expr} {depth : Nat}

/-- One node, when its operands lead to values that are as wide as their types. -/
theorem makes_node (hinline : c.Inlines inline depth) (hs : c.Sound) (he : c.part.exprs e)
    (ho : ∀ o ∈ e.operands, c.Lowers inline o) : c.Makes inline e := by
  -- the depth at which constants are opened is the same for every node
  have := hinline.stepwise
  cases e with
  | int n v => exact makes_int
  | str n v => exact makes_str hs he
  | var n id => exact makes_var hs he hinline.leads
  | sizeofType n t => exact makes_sizeofType
  | sizeofExpr n e => exact makes_sizeofExpr
  | unary n op e => exact makes_unary hs he (ho e (by simp [Source.Expr.operands]))
  | binary n op l r =>
    exact makes_binary (ho l (by simp [Source.Expr.operands]))
      (ho r (by simp [Source.Expr.operands]))
  | logical n op l r =>
    exact makes_logical hs he (ho l (by simp [Source.Expr.operands]))
      (ho r (by simp [Source.Expr.operands]))
  | assign n l r =>
    exact makes_assign hs he (ho l (by simp [Source.Expr.operands]))
      (ho r (by simp [Source.Expr.operands]))
  | opAssign n op l r =>
    exact makes_opAssign hs he (ho l (by simp [Source.Expr.operands]))
      (ho r (by simp [Source.Expr.operands]))
  | preStep n op e => exact makes_preStep hs he (ho e (by simp [Source.Expr.operands]))
  | postStep n op e => exact makes_postStep hs he (ho e (by simp [Source.Expr.operands]))
  | cond n test yes no =>
    exact makes_cond hs he (ho test (by simp [Source.Expr.operands]))
      (ho yes (by simp [Source.Expr.operands])) (ho no (by simp [Source.Expr.operands]))
  | cast n e => exact makes_cast hs he (ho e (by simp [Source.Expr.operands]))
  | addr n e => exact makes_addr hs he (ho e (by simp [Source.Expr.operands]))
  | deref n e => exact makes_deref hs he (ho e (by simp [Source.Expr.operands]))
  | member n e name => exact makes_member hs he (ho e (by simp [Source.Expr.operands]))
  | ptrMember n e name => exact makes_ptrMember hs he (ho e (by simp [Source.Expr.operands]))
  | index n e i =>
    exact makes_index he (ho e (by simp [Source.Expr.operands]))
      (ho i (by simp [Source.Expr.operands]))
  | call n callee args =>
    exact makes_call hs he (ho callee List.mem_cons_self) fun e he =>
      ho e (List.mem_cons_of_mem _ he)

/-- By recursion along the operands. -/
theorem lowers_expr {e : Source.Expr} (hinline : c.Inlines inline depth) (hs : c.Sound)
    (he : c.part.exprs e) : c.Lowers inline e :=
  Makes.lowers hinline.lowerUsing_eq <| makes_node hinline hs he fun _ ho =>
    lowers_expr hinline hs (hs.closed.operand he ho)
termination_by sizeOf e
decreasing_by exact Source.Expr.sizeOf_operand ho

end

/-- The value of an expression that must have one. -/
theorem Delivers.needed (h : c.Delivers e result s) :
    c.Leads s (needed location result) fun x s' => ∃ type, c.Delivered e type x s' := by
  cases result with
  | none => exact .fail _
  | some x => exact .pure (h x rfl)

/-- Constants are followed to any depth. -/
theorem leads_lowerWithin (hs : c.Sound) (depth : Nat) (he : c.part.exprs e) :
    c.Leads s (e.lowerWithin depth d) (c.Delivers e) := by
  induction depth generalizing e d s with
  | zero =>
    have hinline : c.Inlines (fun e _ => throw (.endlessConstant e.name)) 0 :=
      ⟨fun _ _ _ => .of_error fun _ _ h => (by cases h), fun _ _ => rfl, fun _ _ _ _ => .fail _⟩
    exact lowers_expr hinline hs he d s
  | succ depth ih =>
    have hinline : c.Inlines (fun _ v => do needed v.location (← v.lowerWithin depth .value))
        (depth + 1) :=
      ⟨fun _ _ _ => .cast inferInstance (List.append_nil _), fun _ _ => rfl, fun _ _ _ hv =>
        .bind (ih hv) fun _ _ _ hresult => hresult.needed⟩
    exact lowers_expr hinline hs he d s

/-! ## What statements are made of -/

theorem leads_lower (hs : c.Sound) (he : c.part.exprs e) : c.Leads s (e.lower d) (c.Delivers e) :=
  .get (leads_lowerWithin hs _ he)

theorem leads_lowerValue (hs : c.Sound) (he : c.part.exprs e) :
    c.Leads s e.lowerValue fun x s' => ∃ type, c.Delivered e type x s' :=
  .bind (leads_lower hs he) fun _ _ _ hresult => hresult.needed

theorem leads_lowerEffects (hs : c.Sound) (he : c.part.exprs e) :
    c.Leads s e.lowerEffects fun _ _ => True :=
  .bind (leads_lower hs he) fun _ _ _ hresult => leads_discard hresult

end Backend386.Lower.Course
