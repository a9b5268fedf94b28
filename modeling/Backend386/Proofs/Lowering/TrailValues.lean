import Backend386.Proofs.Lowering.Trails

/-!
# Expressions on the trail

An expression is lowered to a value without calls, which reads only variables of the program and
temporaries that are written where the value is used. Its calls are made in the order of evaluation.

* `Lower.Answered` — what is known when expressions have been lowered;
* `Lower.goes_copyAggregate`, `Lower.goes_call`, … — the pieces that append statements;
* `Lower.goes_lowerWithin` — every expression keeps to the trail.
-/

namespace Backend386.Lower

open Source.Expr (lowerUsing lowerArgs lowerWithin)

variable {α β : Type} {p : Source.Part} {s₀ s s' s₁ : LowerState}
  {P : List (Ir.Label × Set EntityId)} {A A' A₁ A₂ : Set EntityId}
  {cs cs' cs₁ cs₂ : List Source.Expr} {es es' : List Source.Expr} {x y : Ir.Expr}
  {e l r test yes no : Source.Expr} {n : Source.Note} {location : Option Location} {d : Demand}
  {result result' : Option Ir.Expr} {type : TypeId} {op : Ir.Op}

/-! ## Values -/

/-- Some expressions have been lowered. What was written is written still, their calls were made,
and the result is plain, if there is one. -/
structure Answered (p : Source.Part) (s₀ : LowerState) (A : Set EntityId)
    (cs es : List Source.Expr) (result : Option Ir.Expr) (A' : Set EntityId)
    (cs' : List Source.Expr) (s' : LowerState) : Prop where
  written : A ⊆ A'
  calling : Source.Calling s₀.entities es cs cs'
  plain : ∀ x, result = some x → Plain p A' s' x

namespace Answered

theorem done (h : ∀ x, result = some x → Plain p A s x) : Answered p s₀ A cs [] result A cs s :=
  ⟨subset_rfl, .refl cs, h⟩

theorem value (h : Plain p A s x) : Answered p s₀ A cs [] (some x) A cs s :=
  done fun _ hx => Option.some.inj hx ▸ h

/-- Expressions that are lowered one after another. -/
theorem followed (h : Answered p s₀ A cs es result A₁ cs₁ s₁)
    (h' : Answered p s₀ A₁ cs₁ es' result' A₂ cs₂ s') :
    Answered p s₀ A cs (es ++ es') result' A₂ cs₂ s' :=
  ⟨h.written.trans h'.written, h.calling.trans h'.calling, h'.plain⟩

/-- The operands of an expression that is neither a constant nor a call have been lowered. -/
theorem node (h : Answered p s₀ A cs e.evaluated result A' cs' s')
    (hv : e.constant? s₀.entities = none) (hcall : e.ownCall = []) :
    Answered p s₀ A cs [e] result A' cs' s' := by
  have hcalling := h.calling.node hv
  rw [hcall, List.append_nil] at hcalling
  exact ⟨h.written, hcalling, h.plain⟩

theorem none (h : Answered p s₀ A cs es result A' cs' s') :
    Answered p s₀ A cs es .none A' cs' s' :=
  ⟨h.written, h.calling, nofun⟩

/-- The value is given only when it is asked for. -/
theorem answer (h : Answered p s₀ A cs es (some x) A' cs' s') :
    Answered p s₀ A cs es (d.answer x) A' cs' s' := by
  cases d with
  | effects => exact h.none
  | value => exact h

end Answered

/-- Statements are appended, and no call is made. -/
theorem Goes.answered {m : Lower (Option Ir.Expr)}
    (h : Goes p s₀ P A₁ cs₁ s m (Answered p s₀ A₁ cs₁ []))
    (ho : Answered p s₀ A cs e.evaluated result A₁ cs₁ s)
    (hv : e.constant? s₀.entities = none) (hcall : e.ownCall = []) :
    Goes p s₀ P A₁ cs₁ s m (Answered p s₀ A cs [e]) := by
  refine h.mono fun _ _ _ _ h => Answered.node ?_ hv hcall
  exact List.append_nil e.evaluated ▸ ho.followed h

/-! ## Pieces that append statements -/

/-- A value is kept in a temporary, which is then written. -/
theorem goes_storeTemporary (hx : Plain p A s x) :
    Goes p s₀ P A cs s (storeTemporary location type x) fun v A' cs' s' =>
      A ⊆ A' ∧ v ∈ A' ∧ cs' = cs ∧ v.index < s'.entities.size := by
  refine .temporary fun v s₁ hg₁ _ hlt => .skip fun ptr s₂ hstill => ?_
  have hlt₂ : v.index < s₂.entities.size := hstill.sameEntities ▸ hlt
  refine .bind (.write hlt₂ (hx.grown (hg₁.trans hstill.toGrown) subset_rfl))
    fun _ A₁ cs₁ s₃ _ ⟨hA, hcs, hs⟩ => .pure ⟨?_, ?_, hcs, ?_⟩
  · exact hA ▸ Set.subset_union_left
  · exact hA ▸ .inr rfl
  · exact hs ▸ hlt₂

/-- A call is kept in a temporary that is new. -/
theorem goes_storeCall {w : Width} {callee : Ir.Expr} {args : List Ir.Expr}
    (hcallee : Plain p A s callee) (hargs : ∀ x ∈ args, Plain p A s x)
    (hcall : CallOf s₀ s e (.call w callee args)) :
    Goes p s₀ P A cs s (storeTemporary location type (.call w callee args)) fun v A' cs' s' =>
      A ⊆ A' ∧ v ∈ A' ∧ cs' = cs ++ [e] ∧ v.index < s'.entities.size := by
  -- the call becomes a statement of its own, and the temporary is written by it
  intro htrail v s' hrun
  obtain ⟨v', s₁, hv, hrun⟩ := bind_eq_ok_iff.1 hrun
  obtain ⟨ref, -, rfl, rfl⟩ := temporary_eq_ok hv
  obtain ⟨ptr, s₂, hptr, hrun⟩ := bind_eq_ok_iff.1 hrun
  have hstill := Looks.still hptr
  obtain ⟨u, s₃, hstore, hrun⟩ := bind_eq_ok_iff.1 hrun
  obtain rfl := emit_eq_ok hstore
  obtain ⟨rfl, rfl⟩ := Prod.mk.inj (Except.ok.inj hrun)
  have hcalm : Calm s s₂ := Calm.trans ⟨grown_takeTemporary, rfl, rfl, rfl⟩ hstill.toCalm
  have hsize : s.entities.size < s₂.entities.size := by
    rw [hstill.sameEntities, LowerState.size_takeTemporary]
    exact Nat.lt_succ_self _
  have hgrown {x : Ir.Expr} (hx : Plain p A s x) : Plain p A s₂ x :=
    hx.grown hcalm.toGrown subset_rfl
  refine ⟨A ∪ {v | ∃ ptr', Ir.Expr.addr ptr ⟨s.entities.size⟩ = .addr ptr' v}, cs ++ [e],
    htrail.push hcalm ?_ ?_ nofun fun _ _ => rfl, Set.subset_union_left, .inr ⟨ptr, rfl⟩,
      rfl, hsize⟩
  -- its callee and its arguments are plain, so that it is the only call in the statement
  · exact .keep ⟨le_rfl, hsize⟩ (hgrown hcallee) fun x hx => hgrown (hargs x hx)
  · rw [Ir.Action.calls, Ir.Expr.calls_call hcallee hargs]
    exact .cons (hcall.mono hcalm.toGrown) .nil

/-- A call that stands as a statement. -/
theorem goes_evalCall {w : Width} {callee : Ir.Expr} {args : List Ir.Expr}
    (hcallee : Plain p A s callee) (hargs : ∀ x ∈ args, Plain p A s x)
    (hcall : CallOf s₀ s e (.call w callee args)) :
    Goes p s₀ P A cs s (emit location (.eval (.call w callee args))) fun _ A' cs' _ =>
      A ⊆ A' ∧ cs' = cs ++ [e] := by
  intro htrail u s' hrun
  obtain rfl := emit_eq_ok hrun
  refine ⟨A, cs ++ [e], htrail.push (Still.refl s).toCalm (.call hcallee hargs) ?_ nofun
    fun _ _ => rfl, subset_rfl, rfl⟩
  rw [Ir.Action.calls, Ir.Expr.calls_call hcallee hargs]
  exact .cons hcall .nil

/-- The call is made behind all that it needs. -/
theorem goes_call {callee : Ir.Expr} {args : List Ir.Expr} (hcallee : Plain p A s callee)
    (hargs : ∀ x ∈ args, Plain p A s x) (hcall : ∀ w, CallOf s₀ s e (.call w callee args)) :
    Goes p s₀ P A cs s (call d location type callee args) fun result A' cs' s' =>
      A ⊆ A' ∧ cs' = cs ++ [e] ∧ ∀ x, result = some x → Plain p A' s' x := by
  refine .skip fun w s₁ hstill => .skip fun isVoid s₂ hstill' => ?_
  have hg := (hstill.trans hstill').toGrown
  have hcallee' := hcallee.grown hg subset_rfl
  have hargs' (x : Ir.Expr) (hx : x ∈ args) := (hargs x hx).grown hg subset_rfl
  refine .ite (fun _ => ?_) fun _ => ?_
  · exact .bind (goes_evalCall hcallee' hargs' ((hcall w).mono hg))
      fun _ _ _ _ _ ⟨hA, hcs⟩ => .pure ⟨hA, hcs, nofun⟩
  · refine .bind (goes_storeCall hcallee' hargs' ((hcall w).mono hg))
      fun v A₁ cs₁ s₃ _ ⟨hA, hv, hcs, hlt⟩ => .pure ⟨hA, hcs, fun x hx => ?_⟩
    obtain rfl := Option.some.inj hx
    exact .var hlt (.inr hv)

/-- An address is computed once, and makes no further calls. -/
theorem goes_stable (hx : Plain p A s x) :
    Goes p s₀ P A cs s (stable location x) fun y => Answered p s₀ A cs [] (some y) := by
  unfold stable
  split
  · exact .pure (.value hx)
  · exact .pure (.value hx)
  · exact .pure (.value hx)
  · refine .skip fun void s₁ hstill => .skip fun ptr s₂ hstill' => ?_
    refine .bind (goes_storeTemporary (hx.still (hstill.trans hstill')))
      fun v A₁ cs₁ s₃ _ ⟨hA, hv, hcs, hlt⟩ => .skip fun w s₄ hstill₄ => .pure ⟨hA, .of_eq hcs, ?_⟩
    rintro _ hy
    obtain rfl := Option.some.inj hy
    exact .var (hstill₄.sameEntities ▸ hlt) (.inr hv)

/-- Addresses that are plain stay plain while an object is copied. -/
theorem goes_copyAggregate (hx : Plain p A s x) (hy : Plain p A s y) :
    Goes p s₀ P A cs s (copyAggregate location type x y) fun z =>
      Answered p s₀ A cs [] (some z) := by
  refine .bind (goes_stable hx) fun dst A₁ cs₁ s₁ hg₁ hdst => ?_
  refine .bind (goes_stable (hy.grown hg₁ hdst.written)) fun src A₂ cs₂ s₂ hg₂ hsrc => ?_
  refine .skip fun size s₃ hstill₃ => .skip fun alignment s₄ hstill₄ => ?_
  have hg := (hstill₃.trans hstill₄).toGrown
  dsimp only
  -- each piece is copied from plain addresses, and writes memory only
  refine .bind (.forM (I := fun A' cs' s' => A₂ ⊆ A' ∧ cs' = cs₂ ∧ Plain p A' s' dst ∧
    Plain p A' s' src) ⟨subset_rfl, rfl, ?_, ?_⟩ fun offset _ B cs₃ s₅ ⟨hB, hcs, hd, hsource⟩ => ?_)
      fun _ A₃ cs₃ s₅ _ ⟨hA₃, hcs, hd, _⟩ => .pure ?_
  · exact (hdst.plain dst rfl).grown (hg₂.trans hg) hsrc.written
  · exact (hsrc.plain src rfl).grown hg subset_rfl
  · refine .piece (ensures_offsetAddress hd) fun target s₆ hstill₆ htarget => ?_
    refine .piece (ensures_offsetAddress (hsource.still hstill₆))
      fun source s₇ hstill₇ hsource' => ?_
    refine (Goes.store (htarget.still hstill₇) (.mem hsource')).mono
      fun _ B' cs₄ s₈ ⟨hB', hcs', hs⟩ => ?_
    have hsub : B ⊆ B' := hB' ▸ Set.subset_union_left
    have hg₈ : Grown s₅ s₈ := hs ▸ (hstill₆.trans hstill₇).toGrown.trans grown_push
    exact ⟨hB.trans hsub, hcs'.trans hcs, hd.grown hg₈ hsub, hsource.grown hg₈ hsub⟩
  · subst hcs
    refine ⟨hdst.written.trans (hsrc.written.trans hA₃), ?_, fun z hz => Option.some.inj hz ▸ hd⟩
    exact hdst.calling.trans hsrc.calling

/-- A plain value is stored at a plain address, and a result that was plain is so still. -/
theorem goes_storeAnswer {z : Ir.Expr} (hx : Plain p A s x) (hy : Plain p A s y)
    (hz : Plain p A s z) : Goes p s₀ P A cs s (store location x y >>= fun _ => pure (d.answer z))
      (Answered p s₀ A cs []) := by
  refine .bind (.store hx hy) fun _ A₁ cs₁ s₁ hg ⟨hA, hcs, _⟩ => .pure (Answered.answer ?_)
  have hsub : A ⊆ A₁ := hA ▸ Set.subset_union_left
  exact ⟨hsub, .of_eq hcs, fun _ hz' => Option.some.inj hz' ▸ hz.grown hg hsub⟩

/-- Neither does an assignment of operands that were evaluated. -/
theorem goes_opAssign (hx : Plain p A s x) (hy : Plain p A s y) :
    Goes p s₀ P A cs s (opAssign d location op type x y) (Answered p s₀ A cs []) := by
  refine .skip fun ptr s₁ hstill => ?_
  replace hx := hx.still hstill
  replace hy := hy.still hstill
  -- a variable is stored to directly, anything else through an address that is held
  split
  · next w v =>
    have hv : Plain p A s₁ (.addr ptr v) := hx.addressOf? rfl
    refine .piece (ensures_arithmetic hx hy) fun z s₂ hstill₂ hz => ?_
    exact goes_storeAnswer (hv.still hstill₂) hz
      (hx.still hstill₂)
  · split
    · exact .fail _
    · next address haddress =>
      refine .skip fun pointer s₂ hstill₂ => ?_
      have haddress : Plain p A s₁ address := hx.addressOf? haddress
      refine .bind (goes_storeTemporary (haddress.still hstill₂))
        fun v A₁ cs₁ s₃ hg₃ hstored => ?_
      obtain ⟨hA, hv, hcs, hlt⟩ := hstored
      have hy := hy.grown (hstill₂.toGrown.trans hg₃) hA
      have hpointer : Plain p A₁ s₃ (.var ptr v) := .var hlt (.inr hv)
      refine .piece (ensures_arithmetic (.mem hpointer) hy) fun z s₄ hstill₄ hz => ?_
      have hpointer := hpointer.still hstill₄
      refine (goes_storeAnswer hpointer hz (.mem hpointer)).mono fun _ _ _ _ h => ?_
      exact ⟨hA.trans h.written, hcs ▸ h.calling, h.plain⟩

/-- Nor does a step. -/
theorem goes_postStep {w : Width} (hx : Plain p A s x) :
    Goes p s₀ P A cs s (postStep d location op type w x) (Answered p s₀ A cs []) := by
  refine .skip fun ptr s₁ hstill => ?_
  replace hx := hx.still hstill
  -- without a demand for its value, the step is an assignment
  split
  · exact goes_opAssign hx .int
  · next w' v =>
    have hv : Plain p A s₁ (.addr ptr v) := hx.addressOf? rfl
    refine .bind (goes_storeTemporary hx) fun old A₁ cs₁ s₂ hg₂ hstored => ?_
    obtain ⟨hA, hold, hcs, hlt⟩ := hstored
    have hold : Plain p A₁ s₂ (.var w old) := .var hlt (.inr hold)
    refine .piece (ensures_arithmetic hold .int) fun z s₃ hstill₃ hz => ?_
    refine (goes_storeAnswer (d := .value) (hv.grown (hg₂.trans hstill₃.toGrown) hA) hz
      (hold.still hstill₃)).mono fun _ _ _ _ h => ?_
    exact ⟨hA.trans h.written, hcs ▸ h.calling, h.plain⟩
  -- what lies in memory is found through an address that is held, and its old value is kept as well
  · split
    · exact .fail _
    · next address haddress =>
      have haddress : Plain p A s₁ address := hx.addressOf? haddress
      refine .skip fun pointer s₂ hstill₂ => .temporary fun holder s₃ hg₃ _ hholder => ?_
      refine .temporary fun old s₄ hg₄ _ hold => ?_
      have hg := hstill₂.toGrown.trans (hg₃.trans hg₄)
      have hholder : holder.index < s₄.entities.size := Nat.lt_of_lt_of_le hholder hg₄.size_le
      refine .bind (.write hholder (haddress.grown hg subset_rfl))
        fun _ A₁ cs₁ s₅ hg₅ hwritten => ?_
      obtain ⟨hA₁, hcs₁, -⟩ := hwritten
      have hheld : holder ∈ A₁ := hA₁ ▸ .inr rfl
      have hpointer : Plain p A₁ s₅ (.var ptr holder) :=
        .var (Nat.lt_of_lt_of_le hholder hg₅.size_le) (.inr hheld)
      have hold₅ : old.index < s₅.entities.size := Nat.lt_of_lt_of_le hold hg₅.size_le
      refine .bind (.write hold₅ (.mem hpointer)) fun _ A₂ cs₂ s₆ hg₆ hwritten => ?_
      obtain ⟨hA₂, hcs₂, -⟩ := hwritten
      have hsub : A₁ ⊆ A₂ := hA₂ ▸ Set.subset_union_left
      have hpointer := hpointer.grown hg₆ hsub
      have hold : Plain p A₂ s₆ (.var w old) :=
        .var (Nat.lt_of_lt_of_le hold₅ hg₆.size_le) (.inr (hA₂ ▸ .inr rfl))
      refine .piece (ensures_arithmetic (.mem hpointer) .int) fun z s₇ hstill₇ hz => ?_
      refine (goes_storeAnswer (d := .value) (hpointer.still hstill₇) hz
        (hold.still hstill₇)).mono fun _ _ _ _ h => ?_
      have hall : A ⊆ A₂ := (hA₁ ▸ Set.subset_union_left : A ⊆ A₁).trans hsub
      exact ⟨hall.trans h.written, hcs₁ ▸ hcs₂ ▸ h.calling, h.plain⟩

/-! ## Expressions -/

/-- An expression keeps to the trail wherever it is lowered. -/
def Handles (p : Source.Part) (s₀ : LowerState) (inline : Entity → Source.Expr → Lower Ir.Expr)
    (e : Source.Expr) : Prop :=
  ∀ d P A cs s, Goes p s₀ P A cs s (lowerUsing inline d e) (Answered p s₀ A cs [e])

section

variable {inline : Entity → Source.Expr → Lower Ir.Expr}

theorem handles_int {v : Int64} : Handles p s₀ inline (.int n v) := by
  intro d P A cs s
  rw [lowerUsing]
  exact .skip fun _ _ _ => .skip fun _ _ _ => .pure ((Answered.value .int).node rfl rfl)

theorem handles_str {v : String} : Handles p s₀ inline (.str n v) := by
  intro d P A cs s
  rw [lowerUsing]
  exact .skip fun _ _ _ => .skip fun _ _ _ => .skip fun _ _ _ =>
    .pure ((Answered.value .str).node rfl rfl)

theorem handles_sizeofType {t : TypeRef} : Handles p s₀ inline (.sizeofType n t) := by
  intro d P A cs s
  rw [lowerUsing]
  exact .skip fun _ _ _ => .skip fun _ _ _ => .skip fun _ _ _ => .skip fun _ _ _ =>
    .pure ((Answered.value .int).node rfl rfl)

theorem handles_sizeofExpr : Handles p s₀ inline (.sizeofExpr n e) := by
  intro d P A cs s
  rw [lowerUsing]
  exact .skip fun _ _ _ => .skip fun _ _ _ => .skip fun _ _ _ => .skip fun _ _ _ =>
    .pure ((Answered.value .int).node rfl rfl)

/-- A constant stands for its value, and anything else for itself or its address. -/
theorem handles_var {id : EntityId} (hc : p.Closed s₀.entities) (he : p.exprs (.var n id))
    [∀ c v, Additive (inline c v)] (hinline : ∀ c v P A cs s, p.exprs v →
      Goes p s₀ P A cs s (inline c v) fun x => Answered p s₀ A cs [v] (some x)) :
    Handles p s₀ inline (.var n id) := by
  intro d P A cs s
  rw [lowerUsing]
  refine .skip fun _ s₁ _ => .entity fun c hget => .on_trail fun htrail => ?_
  have hconstant : s₀.entities.constant? id = c.constantValue? := by
    rw [← htrail.grown.carried.constant?_eq, EntityTable.constant?_eq hget]
  cases hvalue : c.constantValue? with
  | some value =>
    rw [hvalue] at hconstant
    have hpart : p.exprs value := (htrail.grown.closed hc).constant he hget hvalue
    refine .bind (hinline c value P A cs s₁ hpart) fun x A' cs' s₂ _ hx => .pure ?_
    exact ⟨hx.written, hx.calling.constant hconstant, hx.plain⟩
  | none =>
    rw [hvalue] at hconstant
    refine .skip fun type s₂ hstill => .piece (ensures_designated ?_ (.inl ⟨n, he⟩))
      fun x s₃ hstill₃ hx => .pure ((Answered.value hx).node hconstant rfl)
    exact hstill.sameEntities ▸ EntityTable.lt_of_get hget

/-- An operand whose value is used, with the run that gives it. -/
theorem Handles.operand_run {f : Ir.Expr → Lower β}
    {K : β → Set EntityId → List Source.Expr → LowerState → Prop} (h : Handles p s₀ inline e)
    (hnext : ∀ x A₁ cs₁ s₁, lowerUsing inline .value e s = .ok (some x, s₁) →
      Answered p s₀ A cs [e] (some x) A₁ cs₁ s₁ → Goes p s₀ P A₁ cs₁ s₁ (f x) K) :
    Goes p s₀ P A cs s (lowerUsing inline .value e >>= fun result =>
      needed e.location result >>= f) K := by
  refine .bind_run (h .value P A cs s) fun result A₁ cs₁ s₁ hrun hanswered => ?_
  cases result with
  | none => exact Goes.fail _
  | some x => exact hnext x A₁ cs₁ s₁ hrun hanswered

variable [∀ e v A, Stepwise .any A (inline e v) [v]]

/-- An operand whose value is used. -/
theorem Handles.operand {f : Ir.Expr → Lower β}
    {K : β → Set EntityId → List Source.Expr → LowerState → Prop} (h : Handles p s₀ inline e)
    (hnext : ∀ x A₁ cs₁ s₁, Grown s s₁ → Answered p s₀ A cs [e] (some x) A₁ cs₁ s₁ →
      Goes p s₀ P A₁ cs₁ s₁ (f x) K) :
    Goes p s₀ P A cs s (lowerUsing inline .value e >>= fun result =>
      needed e.location result >>= f) K :=
  h.operand_run fun x A₁ cs₁ s₁ hrun => hnext x A₁ cs₁ s₁ (Additive.grown inferInstance hrun)

/-- A value is made from that of the only operand. -/
theorem Handles.unary {f : Ir.Expr → Lower (Option Ir.Expr)} (h : Handles p s₀ inline l)
    (hoperands : e.evaluated = [l]) (hv : e.constant? s₀.entities = none) (hcall : e.ownCall = [])
    (hnext : ∀ x A₁ cs₁ s₁, Plain p A₁ s₁ x →
      Goes p s₀ P A₁ cs₁ s₁ (f x) (Answered p s₀ A₁ cs₁ [])) :
    Goes p s₀ P A cs s (lowerUsing inline .value l >>= fun result =>
      needed l.location result >>= f) (Answered p s₀ A cs [e]) :=
  h.operand fun x A₁ cs₁ s₁ _ hx =>
    (hnext x A₁ cs₁ s₁ (hx.plain x rfl)).answered (hoperands ▸ hx) hv hcall

/-- A value is made from those of two operands, the second of which is lowered first. -/
theorem Handles.pair {f : Ir.Expr → Ir.Expr → Lower (Option Ir.Expr)} (hl : Handles p s₀ inline l)
    (hr : Handles p s₀ inline r) (hoperands : e.evaluated = [r, l])
    (hv : e.constant? s₀.entities = none) (hcall : e.ownCall = [])
    (hnext : ∀ x y A₁ cs₁ s₁, Plain p A₁ s₁ x → Plain p A₁ s₁ y →
      Goes p s₀ P A₁ cs₁ s₁ (f y x) (Answered p s₀ A₁ cs₁ [])) :
    Goes p s₀ P A cs s (lowerUsing inline .value r >>= fun result =>
      needed r.location result >>= fun y => lowerUsing inline .value l >>= fun result =>
        needed l.location result >>= f y) (Answered p s₀ A cs [e]) := by
  refine hr.operand fun y A₁ cs₁ s₁ _ hy => hl.operand fun x A₂ cs₂ s₂ hg₂ hx => ?_
  have hboth : Answered p s₀ A cs e.evaluated (some x) A₂ cs₂ s₂ := hoperands ▸ hy.followed hx
  exact (hnext x y A₂ cs₂ s₂ (hx.plain x rfl) ((hy.plain y rfl).grown hg₂ hx.written)).answered
    hboth hv hcall

/-- The result of looking something up is plain. -/
theorem Goes.look_value {m : Lower Ir.Expr} [Looks m] (h : Ensures m (Plain p A s)) :
    Goes p s₀ P A cs s (m >>= fun x => Pure.pure (some x)) (Answered p s₀ A cs []) :=
  .piece h fun _ _ _ hx => .pure (.value hx)

/-- A unary operation is handled if its operand is. -/
theorem handles_unary {op : Source.UnaryOp} (h : Handles p s₀ inline e) :
    Handles p s₀ inline (.unary n op e) := by
  intro d P A cs s
  have hcompute (op : Source.UnaryOp) : Goes p s₀ P A cs s (do
      let type ← typeId n.type
      let operand ← needed e.location (← lowerUsing inline .value e)
      let w ← width type
      return some (.uni w (← Ir.Op.ofUnary op) operand)) (Answered p s₀ A cs [.unary n op e]) := by
    refine .skip fun _ _ _ => h.unary rfl rfl rfl fun x A₁ cs₁ s₁ hx => ?_
    refine .skip fun _ s₂ hstill => .skip fun _ s₃ hstill' => .pure (.value (.uni ?_))
    exact hx.still (hstill.trans hstill')
  rw [lowerUsing]
  cases op with
  | plus => exact .skip fun _ s₁ _ => (h d P A cs s₁).mono fun _ _ _ _ h => h.node rfl rfl
  | _ => exact hcompute _

/-- A binary operation evaluates its right operand first. -/
theorem handles_binary {op : Source.BinaryOp} (hl : Handles p s₀ inline l)
    (hr : Handles p s₀ inline r) : Handles p s₀ inline (.binary n op l r) := by
  intro d P A cs s
  rw [lowerUsing]
  exact .skip fun _ _ _ => .skip fun _ _ _ => .skip fun _ _ _ => hl.pair hr rfl rfl rfl
    fun x y A₁ cs₁ s₁ hx hy => .look_value (ensures_binary hx hy)

/-- So does an index. -/
theorem handles_index (hl : Handles p s₀ inline l) (hr : Handles p s₀ inline r) :
    Handles p s₀ inline (.index n l r) := by
  intro d P A cs s
  rw [lowerUsing]
  refine .skip fun _ _ _ => .skip fun _ _ _ => .skip fun _ _ _ => hl.pair hr rfl rfl rfl
    fun x y A₁ cs₁ s₁ hx hy => .piece (ensures_scale hy) fun offset s₂ hstill hoffset =>
      .skip fun ptr s₃ hstill' => .look_value (ensures_load (.bin ?_ ?_))
  · exact hx.still (hstill.trans hstill')
  · exact hoffset.still hstill'

theorem handles_addr (h : Handles p s₀ inline e) : Handles p s₀ inline (.addr n e) := by
  intro d P A cs s
  rw [lowerUsing]
  exact .skip fun _ _ _ => .skip fun _ _ _ => h.unary rfl rfl rfl
    fun x A₁ cs₁ s₁ hx => .look_value (ensures_objectAddress hx)

theorem handles_deref (h : Handles p s₀ inline e) : Handles p s₀ inline (.deref n e) := by
  intro d P A cs s
  rw [lowerUsing]
  exact .skip fun _ _ _ => h.unary rfl rfl rfl
    fun x A₁ cs₁ s₁ hx => .look_value (ensures_load hx)

/-- A member is handled if its object is. -/
theorem handles_member {name : String} (h : Handles p s₀ inline e) :
    Handles p s₀ inline (.member n e name) := by
  intro d P A cs s
  rw [lowerUsing]
  exact .skip fun _ _ _ => .skip fun _ _ _ => h.unary rfl rfl rfl
    fun x A₁ cs₁ s₁ hx => .look_value (ensures_member hx)

/-- So is one behind a pointer. -/
theorem handles_ptrMember {name : String} (h : Handles p s₀ inline e) :
    Handles p s₀ inline (.ptrMember n e name) := by
  intro d P A cs s
  rw [lowerUsing]
  exact .skip fun _ _ _ => .skip fun _ _ _ => .skip fun _ _ _ => h.unary rfl rfl rfl
    fun x A₁ cs₁ s₁ hx => .look_value (ensures_member hx)

/-- An assignment with an operation evaluates its value first. -/
theorem handles_opAssign {op : Source.BinaryOp} (hl : Handles p s₀ inline l)
    (hr : Handles p s₀ inline r) : Handles p s₀ inline (.opAssign n op l r) := by
  intro d P A cs s
  rw [lowerUsing]
  refine .skip fun _ _ _ => .skip fun _ _ _ => hl.pair hr rfl rfl rfl
    fun x y A₁ cs₁ s₁ hx hy => .skip fun _ s₂ hstill => ?_
  exact goes_opAssign (hx.still hstill) (hy.still hstill)

/-- A step in front evaluates its object once. -/
theorem handles_preStep {op : Source.StepOp} (h : Handles p s₀ inline e) :
    Handles p s₀ inline (.preStep n op e) := by
  intro d P A cs s
  rw [lowerUsing]
  exact .skip fun _ _ _ => .skip fun _ _ _ => .skip fun _ _ _ => h.unary rfl rfl rfl
    fun x A₁ cs₁ s₁ hx => goes_opAssign hx .int

/-- So does a step behind. -/
theorem handles_postStep {op : Source.StepOp} (h : Handles p s₀ inline e) :
    Handles p s₀ inline (.postStep n op e) := by
  intro d P A cs s
  rw [lowerUsing]
  exact .skip fun _ _ _ => .skip fun _ _ _ => .skip fun _ _ _ => h.unary rfl rfl rfl
    fun x A₁ cs₁ s₁ hx => goes_postStep hx

/-- What is left over of an expression is evaluated. -/
theorem goes_discard (h : Answered p s₀ A cs es result A₁ cs₁ s) :
    Goes p s₀ P A₁ cs₁ s (discard location result) fun _ => Answered p s₀ A cs es none := by
  cases result with
  | none => exact .pure h
  | some x =>
    refine (Goes.eval (h.plain x rfl)).mono fun _ A₂ cs₂ s₂ ⟨hA, hcs, _⟩ => ?_
    exact ⟨hA ▸ h.written, hcs ▸ h.calling, nofun⟩

/-- A cast is handled if its operand is. -/
theorem handles_cast (h : Handles p s₀ inline e) : Handles p s₀ inline (.cast n e) := by
  intro d P A cs s
  rw [lowerUsing]
  refine .skip fun type s₁ _ => .skip fun isVoid s₂ _ => .ite (fun _ => ?_) fun _ => ?_
  · refine .bind (h d P A cs s₂) fun result A₁ cs₁ s₃ _ hanswered => .ite (fun _ => ?_) fun _ => ?_
    · exact .bind (goes_discard hanswered) fun _ _ _ _ _ hdone => .pure (hdone.node rfl rfl)
    · exact .pure (hanswered.none.node rfl rfl)
  · refine .skip fun source s₃ _ => .skip fun changes s₄ _ => .ite (fun _ => ?_) fun _ => ?_
    · refine .skip fun signed s₅ _ => ?_
      dsimp only
      refine .skip fun w s₆ _ => h.unary rfl rfl rfl fun x A₁ cs₁ s₇ hx => ?_
      exact .pure (.value (.uni hx))
    · exact (h d P A cs s₄).mono fun _ _ _ _ hanswered => hanswered.node rfl rfl

/-- The value that is assigned is kept in a temporary while the target is lowered. -/
theorem goes_assignValue (hl : Handles p s₀ inline l) (hr : Handles p s₀ inline r) :
    Goes p s₀ P A cs s (do
      let w ← width type
      let ptr ← pointerWidth
      let tmp ← temporary type
      let value ← needed r.location (← lowerUsing inline .value r)
      store r.location (.addr ptr tmp) value
      let target ← needed l.location (← lowerUsing inline .value l)
      store l.location (← objectAddress l.location type target) (.var w tmp)
      return some (.var w tmp)) (Answered p s₀ A cs [.assign n l r]) := by
  refine .skip fun w s₁ _ => .skip fun ptr s₂ _ => .temporary fun v s₃ _ _ hlt => ?_
  -- the value is evaluated into a temporary, then the target; the temporary is read in between by
  -- nobody
  refine hr.operand fun y A₁ cs₁ s₄ hg₄ hy => ?_
  have hlt₄ := Nat.lt_of_lt_of_le hlt hg₄.size_le
  refine .bind (.write hlt₄ (hy.plain y rfl)) fun _ A₂ cs₂ s₅ hg₅ ⟨hA₂, hcs₂, _⟩ => ?_
  have hsub : A₁ ⊆ A₂ := hA₂ ▸ Set.subset_union_left
  have hvar : Plain p A₂ s₅ (.var w v) :=
    .var (Nat.lt_of_lt_of_le hlt₄ hg₅.size_le) (.inr (hA₂ ▸ .inr rfl))
  subst hcs₂
  refine hl.operand fun x A₃ cs₃ s₆ hg₆ hx => ?_
  have hvar := hvar.grown hg₆ hx.written
  refine .piece (ensures_objectAddress (hx.plain x rfl)) fun a s₇ hstill ha => ?_
  have hvar := hvar.still hstill
  have hboth : Answered p s₀ A cs [r, l] none A₃ cs₃ s₇ :=
    ⟨hy.written.trans (hsub.trans hx.written), hy.calling.trans hx.calling, nofun⟩
  exact (goes_storeAnswer (d := .value) ha hvar hvar).answered hboth rfl rfl

/-- An assignment evaluates its value before its target. -/
theorem handles_assign (hl : Handles p s₀ inline l) (hr : Handles p s₀ inline r) :
    Handles p s₀ inline (.assign n l r) := by
  intro d P A cs s
  -- the copy has the same code for either demand
  have hcopy {type : TypeId} {s : LowerState} : Goes p s₀ P A cs s (do
      let src ← needed r.location (← lowerUsing inline .value r)
      let dst ← needed l.location (← lowerUsing inline .value l)
      return d.answer (← copyAggregate n.location type dst src))
        (Answered p s₀ A cs [.assign n l r]) :=
    hl.pair hr rfl rfl rfl fun x y A₁ cs₁ s₁ hx hy =>
      .bind (goes_copyAggregate hx hy) fun z _ _ _ _ hz => .pure hz.answer
  rw [lowerUsing]
  cases d with
  | effects =>
    refine .skip fun _ s₁ _ => .skip fun type s₂ _ => .skip fun aggregate s₃ _ =>
      .ite (fun _ => hcopy) fun _ => hl.pair hr rfl rfl rfl fun x y A₁ cs₁ s₄ hx hy => ?_
    refine .piece (ensures_objectAddress hx) fun a s₅ hstill ha => ?_
    have hy := hy.still hstill
    exact goes_storeAnswer (d := .effects) ha hy hy
  | value =>
    exact .skip fun _ s₁ _ => .skip fun type s₂ _ => .skip fun aggregate s₃ _ =>
      .ite (fun _ => hcopy) fun _ => goes_assignValue hl hr

/-- Both operands leave their truth in a temporary, which is written wherever the labels are
reached. -/
theorem handles_logical {op : Source.LogicalOp} (hl : Handles p s₀ inline l)
    (hr : Handles p s₀ inline r) : Handles p s₀ inline (.logical n op l r) := by
  intro d P A cs s
  -- the two operators differ in where they branch to
  have hrest (yes no : Ir.Label → Ir.Label → Ir.Label)
      (hyes : ∀ a b, yes a b = a ∨ yes a b = b) (hno : ∀ a b, no a b = a ∨ no a b = b) :
      Goes p s₀ P A cs s (do
        let type ← typeId n.type
        let rightLabel ← newLabel
        let endLabel ← newLabel
        let w ← width type
        let ptr ← pointerWidth
        let tmp ← temporary type
        let left ← needed l.location (← lowerUsing inline .value l)
        store l.location (.addr ptr tmp) (truth w left)
        branch n.location (.var w tmp) (yes rightLabel endLabel) (no rightLabel endLabel)
        place rightLabel
        let right ← needed r.location (← lowerUsing inline .value r)
        store r.location (.addr ptr tmp) (truth w right)
        place endLabel
        return d.answer (.var w tmp)) (Answered p s₀ A cs [.logical n op l r]) := by
    set B : Set EntityId := A ∪ {⟨s.entities.size⟩} with hB
    refine .skip fun type s₁ hstill₁ => .newLabel B fun rightLabel s₂ heq₂ =>
      .newLabel B fun endLabel s₃ heq₃ => .skip fun w s₄ hstill₄ => .skip fun ptr s₅ hstill₅ =>
        .temporary fun v s₆ _ hv hlt => ?_
    have hv : v = ⟨s.entities.size⟩ := by
      rw [hstill₅.sameEntities, hstill₄.sameEntities, heq₃, heq₂, hstill₁.sameEntities] at hv
      cases v
      exact congrArg _ hv
    subst hv
    have hlater {s' : LowerState} (hg : Grown s₆ s') : s.entities.size < s'.entities.size :=
      Nat.lt_of_lt_of_le hlt hg.size_le
    have hvar {s' : LowerState} {C : Set EntityId} (hg : Grown s₆ s') (hC : B ⊆ C) :
        Plain p C s' (.var w ⟨s.entities.size⟩) := .var (hlater hg) (.inr (hC (.inr rfl)))
    refine hl.operand fun x A₁ cs₁ s₇ hg₇ hx => ?_
    refine .bind (.write (hlater hg₇) (.bin (hx.plain x rfl) .int))
      fun _ A₂ cs₂ s₈ hg₈ ⟨hA₂, hcs₂, _⟩ => ?_
    have hB₂ : B ⊆ A₂ := hA₂ ▸ Set.union_subset_union_left _ hx.written
    have hg₈ := hg₇.trans hg₈
    have hlabel {l' : Ir.Label} (hl' : l' = rightLabel ∨ l' = endLabel) :
        (l', B) ∈ (endLabel, B) :: (rightLabel, B) :: P := by
      rcases hl' with rfl | rfl <;> simp
    refine .bind (.branch (hvar hg₈ hB₂) (hlabel (hyes _ _)) hB₂ (hlabel (hno _ _)) hB₂)
      fun _ A₃ cs₃ s₉ hg₉ ⟨hA₃, hcs₃, _⟩ => ?_
    refine .bind (.place (hlabel (.inl rfl)) (hA₃ ▸ Set.subset_univ B))
      fun _ A₄ cs₄ s₁₀ hg₁₀ ⟨hA₄, hcs₄, _⟩ => ?_
    refine hr.operand fun y A₅ cs₅ s₁₁ hg₁₁ hy => ?_
    have hg₁₁ := hg₈.trans (hg₉.trans (hg₁₀.trans hg₁₁))
    refine .bind (.write (hlater hg₁₁) (.bin (hy.plain y rfl) .int))
      fun _ A₆ cs₆ s₁₂ hg₁₂ ⟨hA₆, hcs₆, _⟩ => ?_
    have hA₅ : A ⊆ A₅ := (hA₄ ▸ Set.subset_union_left : A ⊆ A₄).trans hy.written
    have hB₆ : B ⊆ A₆ := hA₆ ▸ Set.union_subset_union_left _ hA₅
    refine .bind (.place (hlabel (.inr rfl)) hB₆) fun _ A₇ cs₇ s₁₃ hg₁₃ ⟨hA₇, hcs₇, _⟩ => .pure ?_
    have hcs : cs₄ = cs₁ := hcs₄.trans (hcs₃.trans hcs₂)
    have hcalling : Source.Calling s₀.entities [l, r] cs cs₇ := by
      rw [hcs₇, hcs₆]
      exact hx.calling.trans (hcs ▸ hy.calling)
    refine (Answered.answer ⟨?_, hcalling, fun z hz => ?_⟩).node rfl rfl
    · exact hA₇ ▸ Set.subset_union_left
    · exact Option.some.inj hz ▸ hvar (hg₁₁.trans (hg₁₂.trans hg₁₃)) hA₇.symm.subset
  rw [lowerUsing]
  cases op with
  | and => exact hrest (fun a _ => a) (fun _ b => b) (fun _ _ => .inl rfl) fun _ _ => .inr rfl
  | or => exact hrest (fun _ b => b) (fun a _ => a) (fun _ _ => .inr rfl) fun _ _ => .inl rfl

/-! ### Conditions -/

/-- The branches of a condition without a value, behind its test. -/
theorem goes_voidArms {yesLabel noLabel endLabel : Ir.Label} (hyes : Handles p s₀ inline yes)
    (hno : Handles p s₀ inline no) (hy : (yesLabel, A) ∈ P) (hn : (noLabel, A) ∈ P)
    (hend : (endLabel, A) ∈ P) :
    Goes p s₀ P Set.univ cs s (voidArms inline d yes no yesLabel noLabel endLabel)
      (Answered p s₀ A cs [yes, no]) := by
  rw [voidArms]
  refine .bind (.place hy (Set.subset_univ A)) fun _ A₁ cs₁ s₁ _ hstart => ?_
  obtain ⟨rfl, rfl, -⟩ := hstart
  refine .bind (hyes d P _ _ s₁) fun result A₂ cs₂ s₂ _ hresult => ?_
  refine .bind (goes_discard hresult) fun _ A₃ cs₃ s₃ _ hyes' => ?_
  refine .bind (.jump hend hyes'.written) fun _ A₄ cs₄ s₄ _ hjump => ?_
  obtain ⟨hA₄, rfl, -⟩ := hjump
  refine .bind (.place hn (hA₄ ▸ Set.subset_univ _)) fun _ A₅ cs₅ s₅ _ hstart => ?_
  obtain ⟨rfl, rfl, -⟩ := hstart
  refine .bind (hno d P _ _ s₅) fun result A₆ cs₆ s₆ _ hresult => ?_
  refine .bind (goes_discard hresult) fun _ A₇ cs₇ s₇ _ hno' => ?_
  refine .bind (.place hend hno'.written) fun _ A₈ cs₈ s₈ _ hended => .pure ?_
  obtain ⟨hA₈, rfl, -⟩ := hended
  refine ⟨hA₈.symm.subset, hyes'.calling.trans hno'.calling, fun x hx => ?_⟩
  cases hx

/-- Both branches leave their value in a temporary, which is written wherever the end is reached. -/
theorem goes_valueArms {yesLabel noLabel endLabel : Ir.Label} {carried : TypeId}
    (hyes : Handles p s₀ inline yes) (hno : Handles p s₀ inline no) (hy : (yesLabel, A) ∈ P)
    (hn : (noLabel, A) ∈ P) (hend : (endLabel, A ∪ {⟨s.entities.size⟩}) ∈ P) :
    Goes p s₀ P Set.univ cs s
      (valueArms inline d yes no yesLabel noLabel endLabel type carried)
      (Answered p s₀ A cs [yes, no]) := by
  rw [valueArms]
  refine .skip fun w s₁ hstill₁ => .skip fun ptr s₂ hstill₂ => .temporary fun v s₃ _ hv hlt => ?_
  -- the temporary is the next entity, so that its number is known at the end
  have hv : v = ⟨s.entities.size⟩ := by
    rw [hstill₂.sameEntities, hstill₁.sameEntities] at hv
    cases v
    exact congrArg _ hv
  subst hv
  have hstored {C C' : Set EntityId} (hC : A ⊆ C) (hC' : C' = C ∪ {⟨s.entities.size⟩}) :
      A ∪ {⟨s.entities.size⟩} ⊆ C' :=
    hC' ▸ Set.union_subset_union_left _ hC
  -- the first arm starts with what is written at its label
  refine .bind (.place hy (Set.subset_univ A)) fun _ A₁ cs₁ s₄ hg₄ hstart => ?_
  obtain ⟨rfl, rfl, -⟩ := hstart
  refine hyes.operand fun x A₂ cs₂ s₅ hg₅ hx => ?_
  have hg₅ := hg₄.trans hg₅
  refine .bind (.write (Nat.lt_of_lt_of_le hlt hg₅.size_le) (hx.plain x rfl))
    fun _ A₃ cs₃ s₆ hg₆ hwrite => ?_
  obtain ⟨hA₃, rfl, -⟩ := hwrite
  refine .bind (.jump hend (hstored hx.written hA₃)) fun _ A₄ cs₄ s₇ hg₇ hjump => ?_
  obtain ⟨hA₄, rfl, -⟩ := hjump
  -- the second arm does so, too, since nothing falls through to it
  refine .bind (.place hn (hA₄ ▸ Set.subset_univ _)) fun _ A₅ cs₅ s₈ hg₈ hstart => ?_
  obtain ⟨rfl, rfl, -⟩ := hstart
  refine hno.operand fun y A₆ cs₆ s₉ hg₉ hy => ?_
  have hg₉ := hg₅.trans (hg₆.trans (hg₇.trans (hg₈.trans hg₉)))
  refine .bind (.write (Nat.lt_of_lt_of_le hlt hg₉.size_le) (hy.plain y rfl))
    fun _ A₇ cs₇ s₁₀ hg₁₀ hwrite => ?_
  obtain ⟨hA₇, rfl, -⟩ := hwrite
  -- both arms have written the temporary where they meet
  refine .bind (.place hend (hstored hy.written hA₇)) fun _ A₈ cs₈ s₁₁ hg₁₁ hended => .pure ?_
  obtain ⟨hA₈, rfl, -⟩ := hended
  refine Answered.answer ⟨hA₈ ▸ Set.subset_union_left, hx.calling.trans hy.calling, fun z hz => ?_⟩
  obtain rfl := Option.some.inj hz
  have hg := hg₉.trans (hg₁₀.trans hg₁₁)
  exact .var (Nat.lt_of_lt_of_le hlt hg.size_le) (.inr (hA₈ ▸ .inr rfl))

/-- The temporaries that are written where a condition ends: the one that is made behind its test,
unless the condition has no value. -/
def condTemporaries (inline : Entity → Source.Expr → Lower Ir.Expr) (test : Source.Expr)
    (type : TypeId) (s : LowerState) : Set EntityId :=
  {v | ∃ result s₁, lowerUsing inline .value test s = .ok (result, s₁) ∧
    s₁.types.isVoid type = .ok false ∧ v.index = s₁.entities.size}

/-- A condition makes the calls of its test and of the arms that it lowers. -/
theorem handles_cond (htest : Handles p s₀ inline test) (hyes : Handles p s₀ inline yes)
    (hno : Handles p s₀ inline no) : Handles p s₀ inline (.cond n test yes no) := by
  intro d P A cs s
  rw [lowerUsing_cond]
  -- the end is known before the test is lowered, so what is written there depends on the test
  refine .skip fun type s₁ _ => .newLabel A fun yesLabel s₂ _ => .newLabel A fun noLabel s₃ _ =>
    .newLabel_of (fun s => A ∪ condTemporaries inline test type s) fun endLabel s₄ _ => ?_
  refine htest.operand_run fun x A₁ cs₁ s₅ hrun hx => ?_
  have hlabel {l : Ir.Label} (hl : l = yesLabel ∨ l = noLabel) :
      (l, A) ∈ (endLabel, A ∪ condTemporaries inline test type s₄) :: (noLabel, A) ::
        (yesLabel, A) :: P := by
    rcases hl with rfl | rfl <;> simp
  refine .bind (.branch (hx.plain x rfl) (hlabel (.inl rfl)) hx.written
    (hlabel (.inr rfl)) hx.written)
    fun _ A₂ cs₂ s₆ _ ⟨hA₂, hcs₂, hs₆⟩ => ?_
  subst hA₂ hcs₂ hs₆
  have hnode {result : Option Ir.Expr} {A' : Set EntityId} {cs' : List Source.Expr}
      {s' : LowerState} (h : Answered p s₀ A cs₂ [yes, no] result A' cs' s') :
      Answered p s₀ A cs [.cond n test yes no] result A' cs' s' :=
    Answered.node ⟨h.written, hx.calling.trans h.calling, h.plain⟩ rfl rfl
  refine .ask fun isVoid hvoid => .ite (fun htrue => ?_) fun hfalse => ?_
  · have hended : A ∪ condTemporaries inline test type s₄ = A := by
      refine Set.union_eq_self_of_subset_right ?_
      rintro v ⟨result, s', hrun', hnot, -⟩
      obtain ⟨rfl, rfl⟩ := Prod.mk.inj (Except.ok.inj (hrun.symm.trans hrun'))
      have hsame : Except.ok isVoid = Except.ok false := hvoid.symm.trans hnot
      obtain rfl := Except.ok.inj hsame
      cases htrue
    rw [hended]
    exact (goes_voidArms hyes hno (by simp) (by simp) (by simp)).mono fun _ _ _ _ => hnode
  · have hended : A ∪ condTemporaries inline test type s₄ = A ∪ {⟨s₅.entities.size⟩} := by
      rw [Bool.not_eq_true] at hfalse
      subst hfalse
      congr 1
      ext v
      constructor
      · rintro ⟨result, s', hrun', -, hv⟩
        obtain ⟨rfl, rfl⟩ := Prod.mk.inj (Except.ok.inj (hrun.symm.trans hrun'))
        cases v
        exact congrArg _ hv
      · rintro rfl
        exact ⟨_, s₅, hrun, hvoid, rfl⟩
    rw [hended]
    refine .skip fun isByAddress s₇ hstill₇ => .ite (fun _ => .skip fun carried s₈ hstill₈ => ?_)
      fun _ => ?_
    · refine (goes_valueArms hyes hno (by simp) (by simp) ?_).mono fun _ _ _ _ => hnode
      rw [hstill₈.sameEntities, hstill₇.sameEntities]
      exact List.mem_cons_self
    · refine (goes_valueArms hyes hno (by simp) (by simp) ?_).mono fun _ _ _ _ => hnode
      rw [hstill₇.sameEntities]
      exact List.mem_cons_self

/-! ### Calls -/

variable {depth : Nat}

/-- The arguments of a call are lowered last to first, and stand in their order. -/
theorem goes_lowerArgs (hdepth : ∀ d e, lowerUsing inline d e = lowerWithin depth d e)
    {args : List Source.Expr} (h : ∀ e ∈ args, Handles p s₀ inline e) :
    Goes p s₀ P A cs s (lowerArgs inline args) fun xs A' cs' s' => A ⊆ A' ∧
      Source.Calling s₀.entities args.reverse cs cs' ∧ (∀ x ∈ xs, Plain p A' s' x) ∧
      List.Forall₂ (Gives s₀ s') args xs := by
  -- by induction on the arguments: the last one is evaluated first, and its result stays plain
  induction args with
  | nil =>
    rw [lowerArgs]
    exact .pure ⟨subset_rfl, .refl cs, nofun, .nil⟩
  | cons e args ih =>
    rw [lowerArgs]
    refine .bind (ih fun e he => h e (List.mem_cons_of_mem _ he))
      fun xs A₁ cs₁ s₁ _ ⟨hA₁, hcalling, hplain, hgives⟩ => ?_
    refine .skip fun _ s₂ hstill₂ => .skip fun _ s₃ hstill₃ => .on_trail fun htrail => ?_
    refine (h e List.mem_cons_self).operand_run fun x A₂ cs₂ s₄ hrun hx => .pure ?_
    have hg₄ : Grown s₃ s₄ := Additive.grown inferInstance hrun
    have hg := (hstill₂.trans hstill₃).toGrown.trans hg₄
    refine ⟨hA₁.trans hx.written, ?_, ?_, .cons ?_ (hgives.imp fun _ _ h => h.mono hg)⟩
    · rw [List.reverse_cons]
      exact hcalling.trans hx.calling
    · intro y hy
      rcases List.mem_cons.1 hy with rfl | hy
      · exact hx.plain y rfl
      · exact (hplain y hy).grown hg hx.written
    · exact ⟨depth, s₃, s₄, htrail.grown, hdepth .value e ▸ hrun, .refl s₄⟩

/-- A call is made behind the calls of its arguments and of its callee. -/
theorem handles_call (hdepth : ∀ d e, lowerUsing inline d e = lowerWithin depth d e)
    {args : List Source.Expr} (h : Handles p s₀ inline e)
    (hargs : ∀ e ∈ args, Handles p s₀ inline e) : Handles p s₀ inline (.call n e args) := by
  intro d P A cs s
  rw [lowerUsing]
  refine .skip fun type s₁ _ => .skip fun _ s₂ _ => ?_
  refine .bind (goes_lowerArgs hdepth hargs)
    fun xs A₁ cs₁ s₃ _ ⟨hA₁, hcalling, hplain, hgives⟩ => ?_
  refine .on_trail fun htrail => h.operand_run fun x A₂ cs₂ s₄ hrun hx => ?_
  have hg : Grown s₃ s₄ := Additive.grown inferInstance hrun
  have hcallee : Gives s₀ s₄ e x := ⟨depth, s₃, s₄, htrail.grown, hdepth .value e ▸ hrun, .refl s₄⟩
  have hcall (w : Width) : CallOf s₀ s₄ (.call n e args) (.call w x xs) :=
    .mk hcallee (hgives.imp fun _ _ h => h.mono hg)
  have hplain (y : Ir.Expr) (hy : y ∈ xs) : Plain p A₂ s₄ y := (hplain y hy).grown hg hx.written
  refine (goes_call (hx.plain x rfl) hplain hcall).mono
    fun result A₃ cs₃ s₅ ⟨hA₃, hcs₃, hresult⟩ => ?_
  refine ⟨hA₁.trans (hx.written.trans hA₃), ?_, hresult⟩
  rw [hcs₃]
  exact (hcalling.trans hx.calling).node (e := .call n e args) rfl

end

/-! ### All expressions -/

/-- How the values of constants are lowered: as expressions are, to a depth below. -/
structure Follows (p : Source.Part) (s₀ : LowerState)
    (inline : Entity → Source.Expr → Lower Ir.Expr) (depth : Nat) : Prop where
  stepwise : ∀ e v A, Stepwise .any A (inline e v) [v]
  lowerUsing_eq : ∀ d e, lowerUsing inline d e = lowerWithin depth d e
  goes : ∀ c v P A cs s, p.exprs v → Goes p s₀ P A cs s (inline c v) fun x =>
    Answered p s₀ A cs [v] (some x)

section

variable {inline : Entity → Source.Expr → Lower Ir.Expr} {depth : Nat}

/-- One node, when its operands keep to the trail. -/
theorem handles_node (hinline : Follows p s₀ inline depth) (hc : p.Closed s₀.entities)
    (he : p.exprs e) (ho : ∀ o ∈ e.operands, Handles p s₀ inline o) : Handles p s₀ inline e := by
  have := hinline.stepwise
  -- one lemma per expression
  cases e with
  | int n v => exact handles_int
  | str n v => exact handles_str
  | var n id => exact handles_var hc he hinline.goes
  | sizeofType n t => exact handles_sizeofType
  | sizeofExpr n e => exact handles_sizeofExpr
  | unary n op e => exact handles_unary (ho e (.head _))
  | binary n op l r => exact handles_binary (ho l (.head _)) (ho r (.tail _ (.head _)))
  | logical n op l r => exact handles_logical (ho l (.head _)) (ho r (.tail _ (.head _)))
  | assign n l r => exact handles_assign (ho l (.head _)) (ho r (.tail _ (.head _)))
  | opAssign n op l r => exact handles_opAssign (ho l (.head _)) (ho r (.tail _ (.head _)))
  | preStep n op e => exact handles_preStep (ho e (.head _))
  | postStep n op e => exact handles_postStep (ho e (.head _))
  | cond n test yes no =>
    exact handles_cond (ho test (.head _)) (ho yes (.tail _ (.head _)))
      (ho no (.tail _ (.tail _ (.head _))))
  | cast n e => exact handles_cast (ho e (.head _))
  | addr n e => exact handles_addr (ho e (.head _))
  | deref n e => exact handles_deref (ho e (.head _))
  | member n e name => exact handles_member (ho e (.head _))
  | ptrMember n e name => exact handles_ptrMember (ho e (.head _))
  | index n e i => exact handles_index (ho e (.head _)) (ho i (.tail _ (.head _)))
  | call n callee args =>
    exact handles_call hinline.lowerUsing_eq (ho callee (.head _)) fun e he => ho e (.tail _ he)

/-- By recursion along the operands. -/
theorem handles_expr {e : Source.Expr} (hinline : Follows p s₀ inline depth)
    (hc : p.Closed s₀.entities) (he : p.exprs e) : Handles p s₀ inline e :=
  handles_node hinline hc he fun _ ho => handles_expr hinline hc (hc.operand he ho)
termination_by sizeOf e
decreasing_by exact Source.Expr.sizeOf_operand ho

end

/-- The value of an expression that must have one. -/
theorem goes_needed (h : Answered p s₀ A cs es result A₁ cs₁ s) :
    Goes p s₀ P A₁ cs₁ s (needed location result) fun x => Answered p s₀ A cs es (some x) := by
  cases result with
  | none => exact .fail _
  | some x => exact .pure h

/-- Constants are followed to any depth. -/
theorem goes_lowerWithin (hc : p.Closed s₀.entities) (depth : Nat) (he : p.exprs e) :
    Goes p s₀ P A cs s (e.lowerWithin depth d) (Answered p s₀ A cs [e]) := by
  induction depth generalizing e d P A cs s with
  | zero =>
    have hinline : Follows p s₀ (fun e _ => throw (.endlessConstant e.name)) 0 :=
      ⟨fun _ _ _ => .of_error fun _ _ h => (by cases h), fun _ _ => rfl,
        fun _ _ _ _ _ _ _ => .fail _⟩
    exact handles_expr hinline hc he d P A cs s
  | succ depth ih =>
    have hinline : Follows p s₀ (fun _ v => do needed v.location (← v.lowerWithin depth .value))
        (depth + 1) :=
      ⟨fun _ _ _ => .cast inferInstance (List.append_nil _), fun _ _ => rfl, fun _ _ _ _ _ _ hv =>
        .bind (ih hv) fun _ _ _ _ _ hresult => goes_needed hresult⟩
    exact handles_expr hinline hc he d P A cs s

theorem goes_lower (hc : p.Closed s₀.entities) (he : p.exprs e) :
    Goes p s₀ P A cs s (e.lower d) (Answered p s₀ A cs [e]) :=
  fun htrail _ _ hrun => goes_lowerWithin hc _ he htrail (get_bind_eq_ok hrun)

theorem goes_lowerValue (hc : p.Closed s₀.entities) (he : p.exprs e) :
    Goes p s₀ P A cs s e.lowerValue fun x => Answered p s₀ A cs [e] (some x) :=
  .bind (goes_lower hc he) fun _ _ _ _ _ hresult => goes_needed hresult

theorem goes_lowerEffects (hc : p.Closed s₀.entities) (he : p.exprs e) :
    Goes p s₀ P A cs s e.lowerEffects fun _ => Answered p s₀ A cs [e] none :=
  .bind (goes_lower hc he) fun _ _ _ _ _ hresult => goes_discard hresult

end Backend386.Lower
