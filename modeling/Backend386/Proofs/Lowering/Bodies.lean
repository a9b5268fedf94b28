import Backend386.Proofs.Lowering.Units
import Backend386.Proofs.Lowering.Values

/-!
# Widths in the bodies of functions

Statements store the initial values of variables, and what a switch compares. So all accesses of a
function fit the types.

* `Lower.Course.Initialized` — a variable that is initialized, and
  `Lower.Course.leads_storeInitial`;
* `Lower.Course.leads_block` — the accesses of a block fit the types;
* `Lower.Course.typedCode_function` — and so are those of a function.
-/

namespace Backend386.Lower

open Source (Block Stmt Case lowerStmts lowerCases exprsOfStmts exprsOfCases scopesOfStmts
  scopesOfCases switchesOfStmts switchesOfCases)
open Scope (variablesOfTree variablesOfTrees variablesOfTrees_append)


/-! ## Statements only add to the state -/

instance {exits : Exits} {cs : List Case} {ls : List Ir.Label} :
    Additive (lowerCases exits cs ls) := by
  induction cs generalizing ls with
  | nil => exact inferInstanceAs (Additive (pure ()))
  | cons c cs ih =>
    cases c with
    | mk values body =>
      cases ls with
      | nil => exact inferInstanceAs (Additive (pure ()))
      | cons l ls => exact inferInstanceAs (Additive do
          place l
          body.lower exits
          lowerCases exits cs ls)

namespace Course

variable {c : Course} {s s' : LowerState} {code : List Ir.Stmt} {type type' : TypeId}
  {x target value : Ir.Expr} {location : Option Location} {v id : EntityId} {e init : Source.Expr}
  {exits : Exits}

theorem leads_report {problem : LoweringProblem} :
    c.Leads s (report location problem) fun _ _ => True := by
  refine .of_step fun _ u s' hm _ => ?_
  obtain ⟨-, rfl⟩ := Prod.mk.inj (Except.ok.inj hm)
  exact ⟨rfl, trivial⟩

theorem typedAction_label {l : Ir.Label} : c.TypedAction code (.label l) :=
  typedAction_of_reads nofun nofun

theorem typedAction_jump {l : Ir.Label} : c.TypedAction code (.jump l) :=
  typedAction_of_reads nofun nofun

/-- The last statement of a piece. -/
theorem leads_emit {action : Ir.Action} (h : c.TypedAction s.function.body.toList action) :
    c.Leads s (emit location action) fun _ _ => True :=
  (Leads.emit h).mono fun _ _ _ => trivial

/-! ## Initial values -/

/-- A variable of a type that is initialized with an expression of the part. -/
structure Initialized (c : Course) (v : EntityId) (type : TypeId) (init : Source.Expr) : Prop where
  initializes : c.Initializes v type init
  expr : c.part.exprs init
  width : c.types.Known init.type fun σ => c.types.registerWidth σ = c.types.registerWidth type
  object : c.types.isVoid type = .ok false ∧ c.types.isFunction type = .ok false

/-- A store of a value that fits the types. -/
theorem typedAction_store (htarget : c.ReadsAll target) (hvalue : c.ReadsAll value)
    (hstores : c.Stores code target value) : c.TypedAction code (.assign target value) := by
  refine .plain (fun r hr => ?_) ?_
  · exact (List.mem_append.1 hr).elim (fun hr => (htarget r hr).of_nil)
      fun hr => (hvalue r hr).of_nil
  · rintro _ _ heq
    obtain ⟨rfl, rfl⟩ := Ir.Action.assign.inj heq
    exact hstores

/-- A variable is initialized with a value of its width. -/
theorem Initialized.valued (h : c.Initialized v type init) (hx : c.Delivered init type' x s) :
    c.Valued type x s :=
  hx.valued.retype (h.width type' hx.hasType).symm

/-- A char of a string is stored in the array that it initializes, or a zero behind the string. -/
theorem leads_storeInitialChar {n : Source.Note} {text : String} {ptr : Width} {k : Nat}
    {src : Ir.Expr} (h : c.Initializes v type (.str n text)) (hchar : c.types.CharOf type k)
    (hdst : c.Pointing (.addr ptr v) s) (hsrc : c.Pointing src s)
    (hgives : c.Gives (.str n text) src) :
    c.Leads s (do
      let target ← offsetAddress (.addr ptr v) k
      if k ≤ text.utf8ByteSize then
        store location target (.mem .w8 (← offsetAddress src k))
      else
        store location target (.int .w8 0)) fun _ _ => True := by
  refine .bind (leads_offsetAddress hdst) fun target s₁ _ ⟨heq, htarget, hreach, _⟩ => ?_
  subst heq
  refine .ite (fun hk => ?_) fun hk => ?_
  · refine .bind (leads_offsetAddress hsrc) fun source s₂ _ ⟨heq, hsource, hreach', _⟩ => ?_
    subst heq
    refine leads_emit (.copy (fun r hr => ?_) (.char h hgives hchar hk (hreach _) (hreach' _)))
    exact (List.mem_append.1 hr).elim (fun hr => (htarget.reads r hr).of_nil)
      fun hr => (hsource.reads r hr).of_nil
  · have hzero : c.ReadsAll (.int .w8 0) := nofun
    exact leads_emit (typedAction_store htarget.reads hzero
      (.zero h hchar (Nat.lt_of_not_le hk) (hreach _)))

/-- The chars of a string and the zeros behind them are inside the array. -/
theorem leads_storeInitialChars {n : Source.Note} {text : String} (hs : c.Sound)
    (h : c.Initialized v type (.str n text)) {ptr : Width} (hv : c.Pointing (.addr ptr v) s)
    (harray : c.types.isArray type = .ok true) :
    c.Leads s (storeInitialChars location type (.addr ptr v) (.str n text) text.utf8ByteSize)
      fun _ _ => True := by
  have hptr := TypeTable.registerWidth_of_isByAddress
    (TypeTable.isByAddress_of_isAggregate (TypeTable.isAggregate_of_isArray harray))
  -- the address of a variable is stable
  have hstable : stable location (.addr ptr v) = pure (.addr ptr v) := rfl
  unfold storeInitialChars
  refine .ask fun size hsize => .ite (fun _ => leads_report) fun _ => ?_
  rw [hstable, pure_bind]
  refine .bind (leads_lowerValue hs h.expr) fun src s₁ hg₁ ⟨σ, hsrc⟩ => ?_
  refine (Leads.forM (I := fun s => c.Pointing (.addr ptr v) s ∧ c.Pointing src s)
    ⟨hv.mono hg₁, (h.valued hsrc).pointing hptr⟩ fun k hk s₂ ⟨hdst, hsrc'⟩ => ?_).mono
      fun _ _ _ => trivial
  exact (leads_storeInitialChar h.initializes ⟨harray, size, hsize, List.mem_range.1 hk⟩ hdst hsrc'
    hsrc.gives).grown fun _ s₃ hg _ => ⟨hdst.mono hg, hsrc'.mono hg⟩

/-- Whatever is not a string in an array. -/
theorem leads_storeInitialValue (hs : c.Sound) (h : c.Initialized v type init) {ptr : Width}
    (hv : c.Pointing (.addr ptr v) s) : c.Leads s (do
      if ← ask (·.isAggregate type) then
        let _ ← copyAggregate location type (.addr ptr v) (← init.lowerValue)
      else
        store location (.addr ptr v) (← init.lowerValue)) fun _ _ => True := by
  refine .ask fun b hb => .ite (fun hcopy => ?_) fun hcopy => ?_
  · subst hcopy
    have hptr := TypeTable.registerWidth_of_isByAddress (TypeTable.isByAddress_of_isAggregate hb)
    refine .bind (leads_lowerValue hs h.expr) fun src s₁ hg₁ ⟨σ, hsrc⟩ => ?_
    exact .bind (leads_copyAggregate hs.measured hb (hv.mono hg₁) ((h.valued hsrc).pointing hptr)
      (.initialized h.initializes) hsrc.gives) fun _ _ _ _ => .pure trivial
  · rw [Bool.not_eq_true] at hcopy
    subst hcopy
    have hin := TypeTable.inRegister_of_not hb h.object.2 h.object.1
    refine .bind (leads_lowerValue hs h.expr) fun x s₁ _ ⟨σ, hx⟩ => ?_
    exact leads_emit (typedAction_store nofun hx.valued.reads
      (.initial h.initializes hx.gives (fills_of_inRegister hin (h.valued hx).width)))

/-- The initializer is stored piece by piece. -/
theorem leads_storeInitial (hs : c.Sound) (h : c.Initialized v type init) {ptr : Width}
    (hv : c.Pointing (.addr ptr v) s) :
    c.Leads s (storeInitial location type (.addr ptr v) init) fun _ _ => True := by
  unfold storeInitial
  split
  · refine .ask fun b hb => .ite (fun harray => ?_) fun _ => leads_storeInitialValue hs h hv
    subst harray
    exact leads_storeInitialChars hs h hv hb
  · exact leads_storeInitialValue hs h hv

/-- Entering a variable only adds code. -/
theorem additive_enterVariable (v : EntityId) (e : Entity) :
    Additive (if e.isPrivate then pure PUnit.unit else
    match e.initializer? with
    | some init => do
      let type ← (liftM e.typeId : Lower TypeId)
      storeInitial (init.location.or e.location) type (.addr (← pointerWidth) v) init
    | _ => pure PUnit.unit) := by
  split
  · infer_instance
  · split <;> infer_instance

/-- A variable of the part is entered. -/
theorem leads_enterVariable (hs : c.Sound) (hv : c.part.vars v) :
    c.Leads s (enterVariable v) fun _ _ => True := by
  unfold enterVariable
  have := additive_enterVariable v
  refine .entity fun e e' hget hget' hnumbered => .ite (fun _ => .pure trivial) fun hauto => ?_
  obtain ⟨sequence, rfl⟩ := hnumbered
  obtain ⟨τ, hτ⟩ := hs.typed v _ hget'
  cases hinit : e.initializer? with
  | none => exact .pure trivial
  | some init =>
    refine .lift fun type htype => .pointerWidth fun ptr hptr => ?_
    obtain rfl : τ = type := by
      have hsettled : e.type = .settled τ := hτ
      rw [Entity.typeId, hsettled] at htype
      exact Except.ok.inj htype
    have hinitial : c.last.entities.initial? v = some init := by
      rw [EntityTable.initial?_eq hget']
      exact (if_neg hauto).trans hinit
    have hexpr := hs.closed.initial hv hget' (Bool.eq_false_iff.2 hauto) hinit
    refine leads_storeInitial hs ⟨⟨⟨_, hget', hτ⟩, hinitial⟩, hexpr, ?_, ?_⟩
      ⟨hptr, List.forall_mem_nil _, EntityTable.lt_of_get hget⟩
    · exact hs.annotated.initial v _ τ init hv hget' hτ hinit
    · exact hs.proper.initial v _ τ init hv hget' hτ hinit

/-! ## Switches -/

/-- So does keeping the value of a switch. -/
theorem additive_switchValue (location : Option Location) (type : TypeId) (x : Ir.Expr) :
    Additive (match x with
    | .int .. | .var .. => pure x
    | x => do
      let tmp ← storeTemporary location type x
      pure (Ir.Expr.var x.width tmp)) := by
  split <;> infer_instance

/-- What a switch compares is an integer, or a temporary that holds it. -/
theorem leads_switchValue (hs : c.Sound) (he : c.part.exprs e) (hswitch : c.part.switches e) :
    c.Leads s (switchValue location e) fun x _ => c.ReadsAll x := by
  unfold switchValue
  have := additive_switchValue location
  refine .bind .typeId fun type s₁ _ htype => .bind (leads_lowerValue hs he) fun x s₂ _ hx => ?_
  obtain ⟨σ, hx⟩ := hx
  have hx := (hx.of_hasType htype).valued
  have hin := TypeTable.inRegister_of_isInteger (hs.annotated.switch e hswitch type htype)
  split
  · exact .pure hx.reads
  · exact .pure hx.reads
  · refine .bind (leads_storeTemporary hin hx.width hx.reads) fun v s₃ _ htemp => .pure ?_
    exact readsAll_var htemp.1.typeOf hin.1 hx.width

/-- A case compares the value with its own. -/
theorem leads_testCase {target : Ir.Label} (hs : c.Sound) (he : c.part.exprs e)
    (hvalue : c.ReadsAll value) :
    c.Leads s (testCase location value target e) fun _ _ => True := by
  unfold testCase
  refine .bind (leads_lowerValue hs he) fun x s₁ _ ⟨σ, hx⟩ => .bind .newLabel fun next s₂ _ _ =>
    .ask fun int _ => .width fun w _ => ?_
  have htest : c.ReadsAll (.bin w .eq value x) := readsAll_bin hvalue hx.valued.reads
  refine .bind (.emit (typedAction_of_reads htest nofun)) fun _ s₃ _ _ => ?_
  exact leads_emit typedAction_label

/-- So do all cases of a switch, one after another. -/
theorem leads_testCases {cases : List Case} (hs : c.Sound)
    (he : ∀ e ∈ exprsOfCases cases, c.part.exprs e) (hvalue : c.ReadsAll value) :
    c.Leads s (testCases location value cases) fun _ _ => True := by
  induction cases generalizing s with
  | nil => exact .pure trivial
  | cons k cases ih =>
    cases k with
    | mk values body =>
      simp only [exprsOfCases, List.mem_append, or_imp, forall_and] at he
      rw [testCases]
      refine .bind .newLabel fun l s₁ _ _ => .bind (Q := fun _ _ => True) ?_ fun _ s₂ _ _ =>
        .bind (ih he.2) fun _ s₃ _ _ => .pure trivial
      exact .forM trivial fun e hmem s _ => leads_testCase hs (he.1.1 e hmem) hvalue

/-! ## Statements -/

theorem leads_forM_option {α : Type} {o : Option α} {f : α → Lower Unit}
    (h : ∀ a ∈ o, c.Leads s (f a) fun _ _ => True) : c.Leads s (o.forM f) fun _ _ => True := by
  cases o with
  | none => exact .pure trivial
  | some a => exact h a rfl

theorem leads_jumpOut {l : Option Ir.Label} {problem : LoweringProblem} :
    c.Leads s (jumpOut location l problem) fun _ _ => True := by
  cases l with
  | none => exact leads_report
  | some l => exact leads_emit typedAction_jump

/-- Names of labels leave no statements behind. -/
theorem leads_labelNamed {name : String} :
    c.Leads s (labelNamed name location) fun _ _ => True := by
  refine .of_step fun _ entry s' hm _ => ⟨?_, trivial⟩
  rcases labelNamed_eq_ok hm with ⟨-, -, rfl⟩ | ⟨-, -, rfl⟩ <;> rfl

theorem leads_functionName : c.Leads s functionName fun _ _ => True :=
  .get (.entity fun _ _ _ _ _ => .pure trivial)

/-- A label is placed, and nothing is accessed. -/
theorem leads_placeNamed {name : String} :
    c.Leads s (placeNamed name location) fun _ _ => True := by
  unfold placeNamed
  refine .bind leads_labelNamed fun entry s₁ _ _ => .ite (fun _ => ?_) fun _ => ?_
  · exact .bind leads_functionName fun _ _ _ _ => .bind leads_report fun _ _ _ _ => .newLabel
  · refine .bind (Q := fun _ _ => True) (.of_step fun _ u s₂ hm _ => ?_)
      fun _ s₂ _ _ => .pure trivial
    obtain ⟨-, rfl⟩ := Prod.mk.inj (Except.ok.inj hm)
    exact ⟨rfl, trivial⟩

/-- The test of a statement. -/
theorem leads_test {β : Type} {yes no : Ir.Label} {f : Unit → Lower β} {K : β → LowerState → Prop}
    [hf : ∀ u, AdditiveAfter u (f u)] (hs : c.Sound) (he : c.part.exprs e)
    (hnext : ∀ s, c.Leads s (f ()) K) :
    c.Leads s (e.lowerValue >>= fun x => branch location x yes no >>= f) K :=
  .bind (leads_lowerValue hs he) fun _ _ _ ⟨_, hx⟩ =>
    .bind (.emit (typedAction_of_reads hx.valued.reads nofun)) fun _ s₂ _ _ => hnext s₂

theorem leads_place {β : Type} {l : Ir.Label} {f : Unit → Lower β} {K : β → LowerState → Prop}
    [hf : ∀ u, AdditiveAfter u (f u)] (hnext : ∀ s, c.Leads s (f ()) K) :
    c.Leads s (place l >>= f) K :=
  .bind (.emit typedAction_label) fun _ s₁ _ _ => hnext s₁

theorem leads_jump {β : Type} {l : Ir.Label} {f : Unit → Lower β} {K : β → LowerState → Prop}
    [hf : ∀ u, AdditiveAfter u (f u)] (hnext : ∀ s, c.Leads s (f ()) K) :
    c.Leads s (jump location l >>= f) K :=
  .bind (.emit typedAction_jump) fun _ s₁ _ _ => hnext s₁

theorem leads_newLabel {β : Type} {f : Ir.Label → Lower β} {K : β → LowerState → Prop}
    [hf : ∀ l, AdditiveAfter l (f l)] (hnext : ∀ l s, c.Leads s (f l) K) :
    c.Leads s (newLabel >>= f) K :=
  .bind .newLabel fun l s₁ _ _ => hnext l s₁

/-- The last label of a statement. -/
theorem leads_end {l : Ir.Label} : c.Leads s (place l) fun _ _ => True :=
  leads_emit typedAction_label

/-- Statements whose expressions, variables and switches are those of the part. -/
structure Holds (c : Course) (exprs : List Source.Expr) (vars : List EntityId)
    (switches : List Source.Expr) : Prop where
  expr : ∀ e ∈ exprs, c.part.exprs e
  var : ∀ id ∈ vars, c.part.vars id
  switch : ∀ e ∈ switches, c.part.switches e

/-- The parts of two pieces. -/
theorem Holds.append (e₁ : List Source.Expr) (v₁ : List EntityId) (w₁ : List Source.Expr)
    {e₂ w₂ : List Source.Expr} {v₂ : List EntityId}
    (h : c.Holds (e₁ ++ e₂) (v₁ ++ v₂) (w₁ ++ w₂)) : c.Holds e₁ v₁ w₁ ∧ c.Holds e₂ v₂ w₂ :=
  ⟨⟨fun e he => h.expr e (List.mem_append_left _ he), fun v hv =>
    h.var v (List.mem_append_left _ hv),
    fun e he => h.switch e (List.mem_append_left _ he)⟩,
   ⟨fun e he => h.expr e (List.mem_append_right _ he), fun v hv =>
     h.var v (List.mem_append_right _ hv),
    fun e he => h.switch e (List.mem_append_right _ he)⟩⟩

mutual

/-- The accesses of a block fit the types. -/
theorem leads_block (hs : c.Sound) (exits : Exits) (b : Block)
    (h : c.Holds b.exprs b.scope.variablesOfTree b.switches) (s : LowerState) :
    c.Leads s (b.lower exits) fun _ _ => True := by
  cases b with
  | mk vars stmts =>
    rw [Block.exprs, Block.scope, variablesOfTree, Block.switches] at h
    obtain ⟨hvars, hstmts⟩ := h.append [] _ []
    rw [Block.lower]
    refine .bind (.forM (I := fun _ => True) trivial fun v hv s _ => ?_) fun _ s₁ _ _ => ?_
    · exact leads_enterVariable hs (hvars.var v hv)
    · exact leads_stmts hs exits stmts hstmts s₁

/-- The code of a statement is typed if its expressions, its variables and its switches are. -/
theorem leads_stmt (hs : c.Sound) (exits : Exits) (st : Stmt)
    (h : c.Holds st.exprs (variablesOfTrees st.scopes) st.switches) (s : LowerState) :
    c.Leads s (st.lower exits) fun _ _ => True := by
  -- one case per statement: what stands in it is split along its parts, and its labels, jumps and
  -- tests are chained with the code of those parts
  cases st with
  | expr here e =>
    rw [Stmt.lower]
    exact leads_lowerEffects hs (h.expr e List.mem_cons_self)
  | block here body =>
    rw [Stmt.exprs, Stmt.scopes, Stmt.switches, variablesOfTrees, variablesOfTrees,
      List.append_nil] at h
    rw [Stmt.lower]
    exact leads_block hs exits body h s
  | ifThen here test yes =>
    rw [Stmt.exprs, Stmt.scopes, Stmt.switches] at h
    obtain ⟨htest, hyes⟩ := h.append [test] [] []
    rw [Stmt.lower]
    refine leads_newLabel fun yesLabel _ => leads_newLabel fun endLabel _ => ?_
    refine leads_test hs (htest.expr test List.mem_cons_self) fun _ => leads_place fun s₁ => ?_
    exact .bind (leads_stmt hs exits yes hyes s₁) fun _ _ _ _ => leads_end
  | ifElse here test yes no =>
    rw [Stmt.exprs, Stmt.scopes, Stmt.switches, variablesOfTrees_append] at h
    obtain ⟨htest, hrest⟩ := h.append [test] [] []
    obtain ⟨hyes, hno⟩ := hrest.append _ _ _
    rw [Stmt.lower]
    refine leads_newLabel fun yesLabel _ => leads_newLabel fun endLabel _ => ?_
    refine .bind (leads_lowerValue hs (htest.expr test List.mem_cons_self)) fun x s₁ _ ⟨_, hx⟩ => ?_
    refine leads_newLabel fun noLabel _ => ?_
    refine .bind (.emit (typedAction_of_reads hx.valued.reads nofun)) fun _ _ _ _ =>
      leads_place fun s₂ => ?_
    refine .bind (leads_stmt hs exits yes hyes s₂) fun _ _ _ _ => ?_
    refine leads_jump fun _ => leads_place fun s₃ => ?_
    exact .bind (leads_stmt hs exits no hno s₃) fun _ _ _ _ => leads_end
  | whileLoop here test body =>
    rw [Stmt.exprs, Stmt.scopes, Stmt.switches] at h
    obtain ⟨htest, hbody⟩ := h.append [test] [] []
    rw [Stmt.lower]
    refine leads_newLabel fun start _ => leads_newLabel fun bodyLabel _ =>
      leads_newLabel fun endLabel _ => leads_place fun _ => ?_
    refine leads_test hs (htest.expr test List.mem_cons_self) fun _ => leads_place fun s₁ => ?_
    exact .bind (leads_stmt hs _ body hbody s₁) fun _ _ _ _ => leads_jump fun _ => leads_end
  | doLoop here body test =>
    rw [Stmt.exprs, Stmt.scopes, Stmt.switches] at h
    obtain ⟨htest, hbody⟩ := h.append [test] [] []
    rw [Stmt.lower]
    refine leads_newLabel fun start _ => leads_newLabel fun testLabel _ =>
      leads_newLabel fun endLabel _ => leads_place fun s₁ => ?_
    refine .bind (leads_stmt hs _ body hbody s₁) fun _ _ _ _ => leads_place fun _ => ?_
    exact leads_test hs (htest.expr test List.mem_cons_self) fun _ => leads_end
  | forLoop here init test step body =>
    rw [Stmt.exprs, Stmt.scopes, Stmt.switches] at h
    -- the three optional expressions are lowered in their own places
    obtain ⟨hheads, hbody⟩ := h.append _ [] []
    have hheads := hheads.expr
    simp only [List.mem_append, Option.mem_toList, or_imp, forall_and] at hheads
    obtain ⟨⟨hinit, htest⟩, hstep⟩ := hheads
    rw [Stmt.lower]
    refine leads_newLabel fun start _ => leads_newLabel fun bodyLabel _ =>
      leads_newLabel fun stepLabel _ => leads_newLabel fun endLabel s₁ => ?_
    refine .bind (leads_forM_option fun e he => leads_lowerEffects hs (hinit e he))
      fun _ _ _ _ => leads_place fun s₂ => ?_
    refine .bind (leads_forM_option fun e he => ?_) fun _ _ _ _ => ?_
    · refine .bind (leads_lowerValue hs (htest e he)) fun x _ _ ⟨_, hx⟩ => ?_
      exact leads_emit (typedAction_of_reads hx.valued.reads nofun)
    · refine leads_place fun s₃ => .bind (leads_stmt hs _ body hbody s₃) fun _ _ _ _ => ?_
      refine leads_place fun s₄ => .bind (leads_forM_option fun e he => ?_) fun _ _ _ _ => ?_
      · exact leads_lowerEffects hs (hstep e he)
      · exact leads_jump fun _ => leads_end
  | switch here value cases =>
    rw [Stmt.exprs, Stmt.scopes, Stmt.switches] at h
    obtain ⟨hvalue, hcases⟩ := h.append [value] [] [value]
    rw [Stmt.lower]
    refine .bind (leads_switchValue hs (hvalue.expr value List.mem_cons_self)
      (hvalue.switch value List.mem_cons_self)) fun x _ _ hx => leads_newLabel fun endLabel _ => ?_
    refine .bind (leads_testCases hs hcases.expr hx) fun labels _ _ _ => leads_jump fun s₁ => ?_
    exact .bind (leads_cases hs _ cases labels hcases s₁) fun _ _ _ _ => leads_end
  | breakOut here =>
    rw [Stmt.lower]
    exact leads_jumpOut
  | continueOn here =>
    rw [Stmt.lower]
    exact leads_jumpOut
  | goto here target =>
    rw [Stmt.lower]
    exact .bind leads_labelNamed fun _ _ _ _ => leads_emit typedAction_jump
  | label here name body =>
    rw [Stmt.exprs, Stmt.scopes, Stmt.switches] at h
    rw [Stmt.lower]
    refine .bind leads_placeNamed fun _ _ _ _ => leads_place fun s₁ => ?_
    exact leads_stmt hs exits body h s₁
  | ret here value =>
    cases value with
    | none =>
      rw [Stmt.lower]
      exact leads_emit (typedAction_of_reads nofun nofun)
    | some e =>
      rw [Stmt.lower]
      refine .bind .typeId fun _ _ _ _ => .bind leads_refuseComposite fun _ _ _ _ => ?_
      refine .bind (leads_lowerValue hs (h.expr e List.mem_cons_self)) fun x _ _ ⟨_, hx⟩ => ?_
      exact leads_emit (typedAction_of_reads hx.valued.reads nofun)

/-- So is that of a list of statements. -/
theorem leads_stmts (hs : c.Sound) (exits : Exits) (ss : List Stmt)
    (h : c.Holds (exprsOfStmts ss) (variablesOfTrees (scopesOfStmts ss)) (switchesOfStmts ss))
    (s : LowerState) : c.Leads s (lowerStmts exits ss) fun _ _ => True := by
  cases ss with
  | nil =>
    rw [lowerStmts]
    exact .pure trivial
  | cons st ss =>
    rw [exprsOfStmts, scopesOfStmts, switchesOfStmts, variablesOfTrees_append] at h
    obtain ⟨hst, hss⟩ := h.append _ _ _
    rw [lowerStmts]
    exact .bind (leads_stmt hs exits st hst s) fun _ s₁ _ _ => leads_stmts hs exits ss hss s₁

/-- So is that of the cases of a switch. -/
theorem leads_cases (hs : c.Sound) (exits : Exits) (cs : List Case) (ls : List Ir.Label)
    (h : c.Holds (exprsOfCases cs) (variablesOfTrees (scopesOfCases cs)) (switchesOfCases cs))
    (s : LowerState) : c.Leads s (lowerCases exits cs ls) fun _ _ => True := by
  match cs, ls with
  | [], _ | _ :: _, [] =>
    rw [lowerCases]
    · exact .pure trivial
    · simp
  | .mk values body :: cs, l :: ls =>
    rw [exprsOfCases, scopesOfCases, switchesOfCases, variablesOfTrees, List.append_assoc] at h
    obtain ⟨-, hrest⟩ := h.append values [] []
    obtain ⟨hbody, hcases⟩ := hrest.append _ _ _
    rw [lowerCases]
    refine leads_place fun s₁ => .bind (leads_block hs exits body hbody s₁) fun _ s₂ _ _ => ?_
    exact leads_cases hs exits cs ls hcases s₂

end

/-- All that a function reads and stores fits the types. -/
theorem typedCode_function {f : Ir.Function} (hs : c.Sound) (hfirst : Carried c.first s)
    (hrun : function id s = .ok (f, s')) (hlast : Carried s' c.last)
    (h : ∀ e params body, s.entities.get id = .ok e → e.kind = .definedFunction params body →
      c.Holds body.exprs body.scope.variablesOfTree body.switches) : c.TypedCode f.body.toList := by
  obtain ⟨e, params, body, s₁, he, hkind, hbody, rfl, rfl⟩ := function_eq_body hrun
  have hstart : Carried s (entered s id params body) := { Carried.refl s with }
  have hgrown : Grown (entered s id params body) s₁ := Additive.grown inferInstance hbody
  have hend : Carried s₁ c.last := by
    refine Carried.trans ?_ hlast
    exact { Carried.refl s₁ with diagnostics := List.prefix_append .. }
  have hleads := leads_block hs {} body (h e params body he hkind) (entered s id params body)
  exact (hleads (hfirst.trans hstart) (hgrown.carried.trans hend) hbody hend).1 typedCode_nil

end Course

end Backend386.Lower
