import Backend386.Proofs.Lowering.Stepwise

/-!
# Runs of the lowering

Expressions and statements are lowered by the steps of a walk alone, and the literals of what they
evaluate are looked up in order.

* `Lower.stepwise_lower`, `Lower.stepwise_block` — expressions and blocks of a part of a program;
* `Lower.Walk.IsWhole` — walks over all of a program, of which expressions and blocks are instances.
-/

namespace Backend386

namespace Lower

open Relation (ReflTransGen)
open Lasting (known base)
open Source.Expr (lowerUsing lowerArgs lowerWithin)

variable {α β : Type} {s s' s₁ s₂ : LowerState} {w : Walk} {location : Option Location}
  {A : Lasting} {entities : EntityTable}

/-! ## Expressions -/

section

variable {inline : Entity → Source.Expr → Lower Ir.Expr}

/-- The type of an expression of the part is one that the part mentions. -/
theorem mentions_type {e : Source.Expr} (he : w.part.exprs e) : Fact (w.part.Mentions e.type) :=
  ⟨e, he, e.type_mem_refs⟩

/-- A node is lowered by lowering what it evaluates. -/
theorem Stepwise.node [Refers α] {m : Lower α} {e : Source.Expr} (h : Stepwise w A m e.evaluated)
    (hconstant : e.constant? w.source = none) (hliteral : e.literal? = none) :
    Stepwise w A m [e] :=
  h.of_interns fun _ _ hi => hi.node hconstant hliteral

/-- A constant stands for its value, which the part holds as well. -/
theorem stepwise_var {d : Demand} {n : Source.Note} {id : EntityId} (he : w.part.exprs (.var n id))
    (hinline : ∀ c v A, w.part.exprs v → Stepwise w A (inline c v) [v]) :
    Stepwise w A (lowerUsing inline d (.var n id)) [.var n id] := by
  have : Fact (w.part.Mentions n.type) := mentions_type he
  rw [lowerUsing]
  refine .after inferInstance fun _ => ?_
  refine .bind_entity (g := fun c => c.constantValue?.toList) (fun c t hc hget => ?_)
    fun c t hr hget s s' hi => ?_
  -- a name becomes an entity of the part, unless it is a constant, whose value is lowered
  · cases hvalue : c.constantValue? with
    | none =>
      have (A : Lasting) : Given (A.and (.entity id c)) (known w id) := by
        refine ⟨fun s h => ⟨List.forall_mem_singleton.2 fun _ => ?_, List.forall_mem_nil _⟩⟩
        exact .inr (.inr ⟨n, c, he, h.2, hvalue⟩)
      infer_instance
    | some value =>
      have (A : Lasting) := hinline c value A (hc.constant he hget hvalue)
      exact .cast inferInstance (List.append_nil _)
  -- the literals that are interned are those of the value
  · have hconstant := hr.constant?_eq hget
    cases hvalue : c.constantValue? with
    | none =>
      rw [hvalue] at hconstant hi
      exact hi.node hconstant rfl
    | some value =>
      rw [hvalue] at hconstant hi
      exact hi.constant hconstant

section

/-- The value of an operand, and what is done with it. -/
theorem Stepwise.operand [Refers α] {e : Source.Expr} {es : List Source.Expr}
    {f : Ir.Expr → Lower α}
    [hm : ∀ A, Stepwise w A (lowerUsing inline .value e) [e]]
    (hf : ∀ x, Stepwise w (A.and (known w x)) (f x) es) :
    Stepwise w A (lowerUsing inline .value e >>= fun result => needed e.location result >>= f)
      (e :: es) := by
  have hvalue : Stepwise w A (lowerUsing inline .value e >>= needed e.location) ([e] ++ []) :=
    inferInstance
  have hall := hvalue.and_then hf
  rw [bind_assoc] at hall
  exact hall

variable {n : Source.Note} {d : Demand} {l r test yes no : Source.Expr}

/-- Whether an assigned object is copied depends on its type. -/
theorem stepwise_assign [Fact (w.part.Mentions n.type)] [Fact (w.part.Mentions l.type)]
    [∀ A, Stepwise w A (lowerUsing inline .value l) [l]]
    [∀ A, Stepwise w A (lowerUsing inline .value r) [r]] :
    Stepwise w A (lowerUsing inline d (.assign n l r)) [.assign n l r] := by
  rw [lowerUsing]
  refine .node (.after_typeId fun _ => .after_typeId fun type => .after inferInstance
    fun isAggregate => ?_) rfl rfl
  split
  · infer_instance
  · cases d with
    | effects => infer_instance
    | value =>
      refine .after inferInstance fun width => .after inferInstance fun ptr => ?_
      refine .after_temporary fun tmp => .operand fun y => .after inferInstance fun _ => ?_
      exact .operand fun x => inferInstance

variable [Fact w.hasLabels]

/-- The two operators differ in where they branch to. -/
theorem stepwise_logical {op : Source.LogicalOp} [Fact (w.part.Mentions n.type)]
    [∀ A, Stepwise w A (lowerUsing inline .value l) [l]]
    [∀ A, Stepwise w A (lowerUsing inline .value r) [r]] :
    Stepwise w A (lowerUsing inline d (.logical n op l r)) [.logical n op l r] := by
  rw [lowerUsing]
  refine .node (.after_typeId fun type => .after inferInstance fun rightLabel =>
    .after inferInstance fun endLabel => .after inferInstance fun width =>
    .after inferInstance fun ptr => ?_) rfl rfl
  cases op <;>
  · refine .after_temporary fun tmp => .operand fun x => .after inferInstance fun _ => ?_
    refine .after inferInstance fun _ => .after inferInstance fun _ => ?_
    exact .operand fun y => inferInstance

end

end

/-! ### Arms -/

section

variable (inline : Entity → Source.Expr → Lower Ir.Expr) (d : Demand) (yes no : Source.Expr)
  (yesLabel noLabel endLabel : Ir.Label)

/-- The arms of a condition that has no value. -/
def voidArms : Lower (Option Ir.Expr) := do
  place yesLabel
  discard yes.location (← lowerUsing inline d yes)
  jump none endLabel
  place noLabel
  discard no.location (← lowerUsing inline d no)
  place endLabel
  return none

/-- The arms of a condition, both of which leave their value in one temporary. -/
def valueArms (type carried : TypeId) : Lower (Option Ir.Expr) := do
  let w ← width type
  let ptr ← pointerWidth
  let tmp ← temporary carried
  place yesLabel
  let value ← needed yes.location (← lowerUsing inline .value yes)
  store yes.location (.addr ptr tmp) value
  jump none endLabel
  place noLabel
  let value ← needed no.location (← lowerUsing inline .value no)
  store no.location (.addr ptr tmp) value
  place endLabel
  return d.answer (.var w tmp)

/-- A condition makes its labels first, then its test and its arms. -/
theorem lowerUsing_cond (n : Source.Note) (test : Source.Expr) :
    lowerUsing inline d (.cond n test yes no) = (do
      let type ← typeId n.type
      let yesLabel ← newLabel
      let noLabel ← newLabel
      let endLabel ← newLabel
      let test' ← needed test.location (← lowerUsing inline .value test)
      branch n.location test' yesLabel noLabel
      if ← ask (·.isVoid type) then
        voidArms inline d yes no yesLabel noLabel endLabel
      else if ← isByAddress type then
        valueArms inline d yes no yesLabel noLabel endLabel type (← pointerTo type)
      else
        valueArms inline d yes no yesLabel noLabel endLabel type type) := by
  rw [lowerUsing]
  rfl

end

section

variable {inline : Entity → Source.Expr → Lower Ir.Expr} {d : Demand} {n : Source.Note}
  {test yes no : Source.Expr} {yesLabel noLabel endLabel : Ir.Label} {type carried : TypeId}
  [Fact w.hasLabels]

instance [∀ A, Stepwise w A (lowerUsing inline d yes) [yes]]
    [∀ A, Stepwise w A (lowerUsing inline d no) [no]] :
    Stepwise w A (voidArms inline d yes no yesLabel noLabel endLabel) [yes, no] := by
  unfold voidArms
  infer_instance

instance [Given A (Lasting.carried w carried)]
    [∀ A, Stepwise w A (lowerUsing inline .value yes) [yes]]
    [∀ A, Stepwise w A (lowerUsing inline .value no) [no]] :
    Stepwise w A (valueArms inline d yes no yesLabel noLabel endLabel type carried) [yes, no] := by
  unfold valueArms
  refine .after inferInstance fun width => .after inferInstance fun ptr => ?_
  refine .after_temporary fun tmp => .after inferInstance fun _ => .operand fun y => ?_
  refine .after inferInstance fun _ => .after inferInstance fun _ => .after inferInstance
    fun _ => ?_
  exact .operand fun z => inferInstance

/-- The arms leave nothing, or an address or a value. -/
theorem stepwise_cond [Fact (w.part.Mentions n.type)]
    [∀ A, Stepwise w A (lowerUsing inline .value test) [test]]
    [∀ d A, Stepwise w A (lowerUsing inline d yes) [yes]]
    [∀ d A, Stepwise w A (lowerUsing inline d no) [no]] :
    Stepwise w A (lowerUsing inline d (.cond n test yes no)) [.cond n test yes no] := by
  rw [lowerUsing_cond]
  refine .node (.after_typeId fun type => .after inferInstance fun yesLabel => .after inferInstance
    fun noLabel => .after inferInstance fun endLabel => ?_) rfl rfl
  refine .operand fun x => .after inferInstance fun _ => .after inferInstance fun isVoid => ?_
  split
  · infer_instance
  · refine .after inferInstance fun isByAddress => ?_
    split
    · exact .after_pointerTo fun pointer => inferInstance
    · infer_instance

end

section

variable {inline : Entity → Source.Expr → Lower Ir.Expr}

mutual

/-- An expression of the part is lowered by steps of the walk, if the constants in it are. -/
theorem stepwise_lowerUsing [Fact w.hasLabels] (hc : w.part.Closed entities)
    (hinline : ∀ c v A, w.part.exprs v → Stepwise w A (inline c v) [v]) (d : Demand)
    (e : Source.Expr) (he : w.part.exprs e) (A : Lasting) :
    Stepwise w A (lowerUsing inline d e) [e] := by
  have hmentions : Fact (w.part.Mentions e.type) := mentions_type he
  -- one case per expression: what it mentions and what its operands lower is found by instance
  -- search
  cases e with
  | var n id => exact stepwise_var he hinline
  | str n v =>
    have : Fact (w.part.Mentions n.type) := hmentions
    have (A : Lasting) : Stepwise w A (stringId v) [.str n v] := stepwise_stringId he
    rw [lowerUsing]
    exact .cast inferInstance (List.append_nil _)
  | int n v =>
    have : Fact (w.part.Mentions n.type) := hmentions
    rw [lowerUsing]
    exact .node inferInstance rfl rfl
  | sizeofType n t =>
    have : Fact (w.part.Mentions n.type) := hmentions
    have : Fact (w.part.Mentions t) := ⟨_, he, List.mem_cons_of_mem _ List.mem_cons_self⟩
    rw [lowerUsing]
    exact .node inferInstance rfl rfl
  | sizeofExpr n e =>
    have : Fact (w.part.Mentions n.type) := hmentions
    have : Fact (w.part.Mentions e.type) := ⟨_, he, List.mem_cons_of_mem _ List.mem_cons_self⟩
    rw [lowerUsing]
    exact .node inferInstance rfl rfl
  | unary n op e =>
    have hoperand : w.part.exprs e := hc.operand he (by simp [Source.Expr.operands])
    have : Fact (w.part.Mentions n.type) := hmentions
    have := fun d => stepwise_lowerUsing hc hinline d e hoperand
    rw [lowerUsing]
    refine .node (.after inferInstance fun _ => ?_) rfl rfl
    cases op <;> infer_instance
  | preStep n _ e | postStep n _ e | addr n e | deref n e | member n e _ | ptrMember n e _ =>
    have hoperand : w.part.exprs e := hc.operand he (by simp [Source.Expr.operands])
    have : Fact (w.part.Mentions n.type) := hmentions
    have : Fact (w.part.Mentions e.type) := mentions_type hoperand
    have := stepwise_lowerUsing hc hinline .value e hoperand
    rw [lowerUsing]
    exact .node inferInstance rfl rfl
  | cast n e =>
    have hoperand : w.part.exprs e := hc.operand he (by simp [Source.Expr.operands])
    have : Fact (w.part.Mentions n.type) := hmentions
    have : Fact (w.part.Mentions e.type) := mentions_type hoperand
    have := fun d => stepwise_lowerUsing hc hinline d e hoperand
    rw [lowerUsing]
    dsimp only
    refine .node (.after_typeId fun type => .after inferInstance fun isVoid => ?_) rfl rfl
    split
    · infer_instance
    · refine .after_typeId fun source => .after inferInstance fun changes => ?_
      split <;> infer_instance
  | binary n _ l r | opAssign n _ l r | index n l r =>
    have hl : w.part.exprs l := hc.operand he (by simp [Source.Expr.operands])
    have hr : w.part.exprs r := hc.operand he (by simp [Source.Expr.operands])
    have : Fact (w.part.Mentions n.type) := hmentions
    have : Fact (w.part.Mentions l.type) := mentions_type hl
    have : Fact (w.part.Mentions r.type) := mentions_type hr
    have := stepwise_lowerUsing hc hinline .value l hl
    have := stepwise_lowerUsing hc hinline .value r hr
    rw [lowerUsing]
    exact .node inferInstance rfl rfl
  | assign n l r =>
    have hl : w.part.exprs l := hc.operand he (by simp [Source.Expr.operands])
    have hr : w.part.exprs r := hc.operand he (by simp [Source.Expr.operands])
    have : Fact (w.part.Mentions n.type) := hmentions
    have : Fact (w.part.Mentions l.type) := mentions_type hl
    have := stepwise_lowerUsing hc hinline .value l hl
    have := stepwise_lowerUsing hc hinline .value r hr
    exact stepwise_assign
  | logical n op l r =>
    have : Fact (w.part.Mentions n.type) := hmentions
    have hl : w.part.exprs l := hc.operand he (by simp [Source.Expr.operands])
    have hr : w.part.exprs r := hc.operand he (by simp [Source.Expr.operands])
    have := stepwise_lowerUsing hc hinline .value l hl
    have := stepwise_lowerUsing hc hinline .value r hr
    exact stepwise_logical
  | cond n test yes no =>
    have : Fact (w.part.Mentions n.type) := hmentions
    have := stepwise_lowerUsing hc hinline .value test
      (hc.operand he (by simp [Source.Expr.operands]))
    have := fun d => stepwise_lowerUsing hc hinline d yes
      (hc.operand he (by simp [Source.Expr.operands]))
    have := fun d => stepwise_lowerUsing hc hinline d no
      (hc.operand he (by simp [Source.Expr.operands]))
    exact stepwise_cond
  | call n callee args =>
    have : Fact (w.part.Mentions n.type) := hmentions
    have := stepwise_lowerUsing hc hinline .value callee
      (hc.operand he (by simp [Source.Expr.operands]))
    have := stepwise_lowerArgs hc hinline args fun e he' =>
      hc.operand he (by simp [Source.Expr.operands, he'])
    rw [lowerUsing]
    exact .node inferInstance rfl rfl

/-- Arguments are lowered last to first. -/
theorem stepwise_lowerArgs [Fact w.hasLabels] (hc : w.part.Closed entities)
    (hinline : ∀ c v A, w.part.exprs v → Stepwise w A (inline c v) [v])
    (es : List Source.Expr) (hes : ∀ e ∈ es, w.part.exprs e) (A : Lasting) :
    Stepwise w A (lowerArgs inline es) es.reverse := by
  cases es with
  | nil =>
    rw [lowerArgs]
    infer_instance
  | cons e es =>
    have he := hes e List.mem_cons_self
    have : Fact (w.part.Mentions e.type) := mentions_type he
    have := stepwise_lowerUsing hc hinline .value e he
    have := stepwise_lowerArgs hc hinline es fun e he => hes e (List.mem_cons_of_mem _ he)
    rw [lowerArgs, List.reverse_cons]
    infer_instance

end

/-- An expression takes steps of a walk over the part that it belongs to, however deep its constants
go. -/
theorem stepwise_lowerWithin [Fact w.hasLabels] (hc : w.part.Closed entities) (depth : Nat)
    {d : Demand} {e : Source.Expr} (he : w.part.exprs e) :
    Stepwise w A (lowerWithin depth d e) [e] := by
  induction depth generalizing d e A with
  | zero =>
    rw [lowerWithin]
    exact stepwise_lowerUsing hc (fun _ _ _ _ => .of_error fun _ _ h => by cases h) d e he A
  | succ depth ih =>
    rw [lowerWithin]
    refine stepwise_lowerUsing hc (fun c v A hv => ?_) d e he A
    have := ih (A := A) (d := .value) hv
    exact Stepwise.cast (m := lowerWithin depth .value v >>= needed v.location) inferInstance
      (List.append_nil [v])

/-- So it does with all levels of constants that there may be. -/
theorem stepwise_lower [Fact w.hasLabels] (hc : w.part.Closed entities) {d : Demand}
    {e : Source.Expr} (he : w.part.exprs e) : Stepwise w A (e.lower d) [e] := by
  have (depth : Nat) (A : Lasting) : Stepwise w A (lowerWithin depth d e) [e] :=
    stepwise_lowerWithin hc depth he
  unfold Source.Expr.lower
  infer_instance

theorem stepwise_lowerValue [Fact w.hasLabels] (hc : w.part.Closed entities) {e : Source.Expr}
    (he : w.part.exprs e) : Stepwise w A e.lowerValue [e] := by
  have : Stepwise w A (e.lower .value) [e] := stepwise_lower hc he
  unfold Source.Expr.lowerValue
  exact .cast inferInstance (List.append_nil _)

theorem stepwise_lowerEffects [Fact w.hasLabels] (hc : w.part.Closed entities) {e : Source.Expr}
    (he : w.part.exprs e) : Stepwise w A e.lowerEffects [e] := by
  have : Stepwise w A (e.lower .effects) [e] := stepwise_lower hc he
  unfold Source.Expr.lowerEffects
  exact .cast inferInstance (List.append_nil _)

end

/-! ## Statements -/

section

open Source (Block Stmt Case lowerStmts lowerCases exprsOfStmts exprsOfCases scopesOfStmts
  scopesOfCases evaluatedOfStmts evaluatedOfCases)
open Scope (variablesOfTree variablesOfTrees variablesOfTrees_append)

variable {name : String} {problem : LoweringProblem}

/-- Noting a name is a step of its own. -/
theorem stepwise_note [hn : Fact w.hasNames] (note : List NamedLabel → List NamedLabel) :
    Stepwise w A (modify fun s => { s with named := note s.named } : Lower Unit) [] := by
  refine .of_supply fun s x s' h => ?_
  obtain ⟨-, rfl⟩ := Prod.mk.inj (Except.ok.inj h)
  exact ⟨.name hn.out, rfl, rfl⟩

variable [Fact w.hasLabels]

instance [Fact w.hasNames] : Stepwise w A (labelNamed name location) [] := by
  have (A : Lasting) (e : NamedLabel) : Stepwise w A (modify fun s =>
      { s with named := s.named ++ [e] } : Lower Unit) [] := stepwise_note (· ++ [e])
  unfold labelNamed
  refine .after inferInstance fun s => ?_
  split
  · infer_instance
  · dsimp only
    infer_instance

instance [Fact w.hasNames] : Stepwise w A (markPlaced name location) [] :=
  stepwise_note _

instance [Fact w.hasNames] : Stepwise w A (placeNamed name location) [] := by
  unfold placeNamed
  infer_instance

instance [Fact w.hasNames] : Stepwise w A reportUnplaced [] := by
  unfold reportUnplaced
  infer_instance

instance [Fact w.hasNames] {target : Option Ir.Label} :
    Stepwise w A (jumpOut location target problem) [] := by
  cases target <;> unfold jumpOut <;> infer_instance

/-- Either there is an error, or the chars of the string are looked up. -/
theorem stepwise_storeInitialChars (hc : w.part.Closed entities) {type : TypeId}
    {address : Ir.Expr} [Given A (known w address)] {init : Source.Expr} {length : Nat}
    (hi : w.part.exprs init) :
    Stepwise w A (storeInitialChars location type address init length) [init] := by
  have (A : Lasting) : Stepwise w A init.lowerValue [init] := stepwise_lowerValue hc hi
  have hl : w.hasLabels := Fact.out
  unfold storeInitialChars
  refine .after inferInstance fun size => ?_
  split
  · exact stepwise_report hl (.inr rfl)
  · infer_instance

/-- Storing an initializer lowers it. -/
theorem stepwise_storeInitial (hc : w.part.Closed entities) {type : TypeId} {address : Ir.Expr}
    [Given A (known w address)] {init : Source.Expr} (hi : w.part.exprs init) :
    Stepwise w A (storeInitial location type address init) [init] := by
  have (A : Lasting) : Stepwise w A init.lowerValue [init] := stepwise_lowerValue hc hi
  unfold storeInitial
  dsimp only
  split
  · refine .after inferInstance fun isArray => ?_
    split
    · exact stepwise_storeInitialChars hc hi
    · infer_instance
  · infer_instance

/-- The initial value of a variable is stored, unless it is static. -/
theorem stepwise_enterVariable (hc : w.part.Closed entities) {id : EntityId}
    (hid : w.part.vars id) :
    Stepwise w A (enterVariable id) (w.source.initial? id).toList := by
  have (A : Lasting) : Given A (known w id) :=
    ⟨fun _ _ => ⟨List.forall_mem_singleton.2 fun _ => .inl hid, List.forall_mem_nil _⟩⟩
  unfold enterVariable
  refine .bind_entity (g := fun v => (if v.isPrivate then none else v.initializer?).toList)
    (fun v t hclosed hget => ?_) fun v t hr hget s s' hi => ?_
  · cases hprivate : v.isPrivate with
    | true => exact inferInstanceAs (Stepwise w _ (pure ()) [])
    | false =>
      cases hinit : v.initializer? with
      | none => exact inferInstanceAs (Stepwise w _ (pure ()) [])
      | some init =>
        have hstore (A : Lasting) (location : Option Location) (type : TypeId) (address : Ir.Expr)
            [Given A (known w address)] :
            Stepwise w A (storeInitial location type address init) [init] :=
          stepwise_storeInitial hc (hclosed.initial hid hget hprivate hinit)
        exact inferInstanceAs
          (Stepwise w _ (liftM v.typeId >>= fun type => pointerWidth >>= fun ptr =>
            storeInitial (init.location.or v.location) type (.addr ptr id) init) [init])
  · rwa [hr.initial?_eq hget]

theorem stepwise_branch (hc : w.part.Closed entities) {test : Source.Expr} {yes no : Ir.Label}
    (ht : w.part.exprs test) :
    Stepwise w A (test.lowerValue >>= fun x => branch location x yes no) [test] := by
  have : Stepwise w A test.lowerValue [test] := stepwise_lowerValue hc ht
  exact .cast inferInstance (List.append_nil _)

/-- The value of a switch is lowered once. -/
theorem stepwise_switchValue (hc : w.part.Closed entities) {value : Source.Expr}
    (hv : w.part.exprs value) : Stepwise w A (switchValue location value) [value] := by
  have : Fact (w.part.Mentions value.type) := mentions_type hv
  have (A : Lasting) : Stepwise w A value.lowerValue [value] := stepwise_lowerValue hc hv
  unfold switchValue
  refine .after_typeId fun type => .cast (.and_then inferInstance fun x => ?_) (List.append_nil _)
  split <;> infer_instance

/-- Every case gets a label. -/
theorem length_testCases {value : Ir.Expr} {cases : List Case} {ls : List Ir.Label}
    (h : testCases location value cases s = .ok (ls, s')) : ls.length = cases.length := by
  induction cases generalizing ls s s' with
  | nil =>
    obtain ⟨rfl, -⟩ := Prod.mk.inj (Except.ok.inj h)
    rfl
  | cons c cs ih =>
    obtain ⟨l, s₁, -, h⟩ := bind_eq_ok_iff.1 h
    obtain ⟨u, s₂, -, h⟩ := bind_eq_ok_iff.1 h
    obtain ⟨ls', s₃, hls, h⟩ := bind_eq_ok_iff.1 h
    obtain ⟨rfl, -⟩ := Prod.mk.inj (Except.ok.inj h)
    rw [List.length_cons, List.length_cons, ih hls]

/-- The value of a case is lowered where it is compared. -/
theorem stepwise_testCase (hc : w.part.Closed entities) {value : Ir.Expr} {target : Ir.Label}
    {e : Source.Expr} (he : w.part.exprs e) [Given A (known w value)] :
    Stepwise w A (testCase location value target e) [e] := by
  have : Stepwise w A e.lowerValue [e] := stepwise_lowerValue hc he
  unfold testCase
  exact .cast inferInstance (List.append_nil _)

/-- The values of all cases are compared in order. -/
theorem stepwise_testCases (hc : w.part.Closed entities) {value : Ir.Expr} {cases : List Case}
    (h : ∀ e ∈ exprsOfCases cases, w.part.exprs e) [Given A (known w value)] :
    Stepwise w A (testCases location value cases) (cases.flatMap (·.values)) := by
  induction cases generalizing A with
  | nil =>
    rw [testCases]
    infer_instance
  | cons c cs ih =>
    obtain ⟨values, body⟩ := c
    simp only [exprsOfCases, List.mem_append, or_imp, forall_and] at h
    have (A : Lasting) [Given A (known w value)] := ih (A := A) h.2
    have (A : Lasting) [Given A (known w value)] (l : Ir.Label) :
        Stepwise w A ((Case.mk values body).values.forM (testCase location value l)) values :=
      (Stepwise.forM_of (g := fun e => [e]) fun e he => stepwise_testCase hc (h.1.1 e he)).cast
        (List.flatMap_singleton' _)
    rw [testCases, List.flatMap_cons]
    refine .after inferInstance fun l => .and_then inferInstance fun _ => ?_
    exact .cast inferInstance (List.append_nil _)

/-- The initial values of the variables of a block are stored one after another. -/
theorem stepwise_enterVariables (hc : w.part.Closed entities) {vars : List EntityId}
    (hv : ∀ id ∈ vars, w.part.vars id) :
    Stepwise w A (vars.forM enterVariable) (vars.filterMap w.source.initial?) :=
  (Stepwise.forM_of fun id hid => stepwise_enterVariable hc (hv id hid)).cast
    (List.filterMap_eq_flatMap_toList _ _).symm

end

section

open Source (Block Stmt Case lowerStmts lowerCases exprsOfStmts exprsOfCases scopesOfStmts
  scopesOfCases evaluatedOfStmts evaluatedOfCases)
open Scope (variablesOfTree variablesOfTrees variablesOfTrees_append)

mutual

/-- Blocks are lowered by the steps of a walk over a part that holds their expressions and their
variables. -/
theorem stepwise_block [Fact w.hasLabels] [Fact w.hasNames] (hc : w.part.Closed entities)
    (exits : Exits) (b : Block) (he : ∀ e ∈ b.exprs, w.part.exprs e)
    (hv : ∀ id ∈ b.scope.variablesOfTree, w.part.vars id) (A : Lasting) :
    Stepwise w A (b.lower exits) (b.evaluated w.source) := by
  cases b with
  | mk vars stmts =>
    simp only [Block.exprs, Block.scope, variablesOfTree, List.mem_append, or_imp,
      forall_and] at he hv
    rw [Block.lower, Block.evaluated]
    exact (stepwise_enterVariables hc hv.1).and_then fun _ =>
      stepwise_stmts hc exits stmts he hv.2 _

/-- A statement lowers the expressions that it evaluates, in their order. -/
theorem stepwise_stmt [Fact w.hasLabels] [Fact w.hasNames] (hc : w.part.Closed entities)
    (exits : Exits) (st : Stmt) (he : ∀ e ∈ st.exprs, w.part.exprs e)
    (hv : ∀ id ∈ variablesOfTrees st.scopes, w.part.vars id)
    (A : Lasting) : Stepwise w A (st.lower exits) (st.evaluated w.source) := by
  cases st with
  | expr here e =>
    rw [Stmt.lower, Stmt.evaluated]
    exact stepwise_lowerEffects hc (he e (by simp [Stmt.exprs]))
  | block here body =>
    rw [Stmt.lower, Stmt.evaluated]
    refine stepwise_block hc exits body (by simpa [Stmt.exprs] using he) ?_ A
    simpa [Stmt.scopes, variablesOfTrees] using hv
  | ifThen here test yes =>
    simp only [Stmt.exprs, List.mem_cons, forall_eq_or_imp] at he
    have (A : Lasting) : Stepwise w A test.lowerValue [test] := stepwise_lowerValue hc he.1
    have := stepwise_stmt hc exits yes he.2 (by simpa [Stmt.scopes] using hv)
    rw [Stmt.lower, Stmt.evaluated]
    exact .cast inferInstance (by simp)
  | ifElse here test yes no =>
    simp only [Stmt.exprs, List.mem_cons, List.mem_append, or_imp, forall_and, forall_eq] at he
    simp only [Stmt.scopes, variablesOfTrees_append, List.mem_append, or_imp, forall_and] at hv
    have (A : Lasting) : Stepwise w A test.lowerValue [test] := stepwise_lowerValue hc he.1
    have := stepwise_stmt hc exits yes he.2.1 hv.1
    have := stepwise_stmt hc exits no he.2.2 hv.2
    rw [Stmt.lower, Stmt.evaluated]
    exact .cast inferInstance (by simp)
  | whileLoop here test body | doLoop here body test =>
    simp only [Stmt.exprs, List.mem_cons, forall_eq_or_imp] at he
    have (A : Lasting) : Stepwise w A test.lowerValue [test] := stepwise_lowerValue hc he.1
    have := fun exits => stepwise_stmt hc exits body he.2 (by simpa [Stmt.scopes] using hv)
    rw [Stmt.lower, Stmt.evaluated]
    exact .cast inferInstance (by simp)
  | forLoop here init test step body =>
    simp only [Stmt.exprs, List.mem_append, Option.mem_toList, or_imp, forall_and] at he
    have := fun exits => stepwise_stmt hc exits body he.2 (by simpa [Stmt.scopes] using hv)
    have (A : Lasting) : Stepwise w A (init.forM Source.Expr.lowerEffects) init.toList :=
      .forM_option_of fun e h => stepwise_lowerEffects hc (he.1.1.1 e h)
    have (A : Lasting) : Stepwise w A (step.forM Source.Expr.lowerEffects) step.toList :=
      .forM_option_of fun e h => stepwise_lowerEffects hc (he.1.2 e h)
    have (yes no : Ir.Label) (A : Lasting) : Stepwise w A (test.forM fun test => do
        branch here (← test.lowerValue) yes no) test.toList :=
      .forM_option_of fun e h => stepwise_branch hc (he.1.1.2 e h)
    rw [Stmt.lower, Stmt.evaluated]
    exact .cast inferInstance (by simp)
  | switch here value cases =>
    simp only [Stmt.exprs, List.mem_cons, forall_eq_or_imp] at he
    rw [Stmt.lower, Stmt.evaluated]
    refine (stepwise_switchValue hc he.1).and_then fun v => .after inferInstance fun endLabel => ?_
    -- every case has a label, so that all bodies are lowered
    refine .bind_of (P := fun labels => labels.length = cases.length) (Q := fun _ => .always)
      (stepwise_testCases hc he.2) (fun _ _ _ _ h => length_testCases h) (fun _ _ _ _ _ => trivial)
      fun labels hlength => .after inferInstance fun _ => ?_
    have := fun exits => stepwise_cases hc exits cases labels hlength he.2
      (by simpa [Stmt.scopes] using hv)
    exact .cast inferInstance (List.append_nil _)
  | breakOut here | continueOn here | goto here target =>
    rw [Stmt.lower, Stmt.evaluated]
    infer_instance
  | label here name body =>
    have := stepwise_stmt hc exits body (by simpa [Stmt.exprs] using he)
      (by simpa [Stmt.scopes] using hv)
    rw [Stmt.lower, Stmt.evaluated]
    infer_instance
  | ret here value =>
    cases value with
    | none =>
      rw [Stmt.lower, Stmt.evaluated]
      infer_instance
    | some e =>
      have he := he e (by simp [Stmt.exprs])
      have : Fact (w.part.Mentions e.type) := mentions_type he
      have (A : Lasting) : Stepwise w A e.lowerValue [e] := stepwise_lowerValue hc he
      rw [Stmt.lower, Stmt.evaluated]
      exact .cast inferInstance (List.append_nil _)

/-- So does a list of statements. -/
theorem stepwise_stmts [Fact w.hasLabels] [Fact w.hasNames] (hc : w.part.Closed entities)
    (exits : Exits) (ss : List Stmt)
    (he : ∀ e ∈ exprsOfStmts ss, w.part.exprs e)
    (hv : ∀ id ∈ variablesOfTrees (scopesOfStmts ss), w.part.vars id) (A : Lasting) :
    Stepwise w A (lowerStmts exits ss) (evaluatedOfStmts w.source ss) := by
  cases ss with
  | nil =>
    rw [lowerStmts, evaluatedOfStmts]
    infer_instance
  | cons st ss =>
    simp only [exprsOfStmts, List.mem_append, or_imp, forall_and] at he
    simp only [scopesOfStmts, variablesOfTrees_append, List.mem_append, or_imp, forall_and] at hv
    rw [lowerStmts, evaluatedOfStmts]
    exact (stepwise_stmt hc exits st he.1 hv.1 A).and_then fun _ =>
      stepwise_stmts hc exits ss he.2 hv.2 _

/-- So do the cases of a switch. -/
theorem stepwise_cases [Fact w.hasLabels] [Fact w.hasNames] (hc : w.part.Closed entities)
    (exits : Exits) (cs : List Case) (ls : List Ir.Label) (hl : ls.length = cs.length)
    (he : ∀ e ∈ exprsOfCases cs, w.part.exprs e)
    (hv : ∀ id ∈ variablesOfTrees (scopesOfCases cs), w.part.vars id) (A : Lasting) :
    Stepwise w A (lowerCases exits cs ls) (evaluatedOfCases w.source cs) := by
  match cs, ls with
  | [], [] =>
    rw [lowerCases, evaluatedOfCases]
    · infer_instance
    · simp
  | .mk values body :: cs, l :: ls =>
    simp only [exprsOfCases, List.mem_append, or_imp, forall_and] at he
    simp only [scopesOfCases, variablesOfTrees, List.mem_append, or_imp, forall_and] at hv
    rw [lowerCases, evaluatedOfCases]
    refine .after inferInstance fun _ => ?_
    exact (stepwise_block hc exits body he.1.2 hv.1 _).and_then fun _ =>
      stepwise_cases hc exits cs ls (Nat.succ_injective hl) he.2 hv.2 _

end

end

/-! ## Whole programs -/

/-- A walk over all of a program. -/
class Walk.IsWhole (w : Walk) : Prop where
  part_eq : w.part = .all

namespace Walk.IsWhole

instance : Walk.any.IsWhole := ⟨rfl⟩
instance : Walk.unnamed.IsWhole := ⟨rfl⟩

variable [hw : w.IsWhole]

theorem closed : w.part.Closed ⟨[]⟩ :=
  hw.part_eq ▸ Source.Part.closed_all _

theorem covers (t : EntityTable) : w.part.Covers t :=
  hw.part_eq ▸ Source.Part.covers_all t

theorem exprs (e : Source.Expr) : w.part.exprs e := by
  rw [hw.part_eq]
  trivial

theorem vars (id : EntityId) : w.part.vars id := by
  rw [hw.part_eq]
  trivial

end Walk.IsWhole

section

open Walk.IsWhole (closed exprs vars)

variable [w.IsWhole] [Fact w.hasLabels] {e value : Source.Expr} {x address : Ir.Expr}

instance {depth : Nat} {d : Demand} : Stepwise w A (lowerWithin depth d e) [e] :=
  stepwise_lowerWithin closed depth (exprs e)

instance {d : Demand} : Stepwise w A (e.lower d) [e] :=
  stepwise_lower closed (exprs e)

instance : Stepwise w A e.lowerValue [e] :=
  stepwise_lowerValue closed (exprs e)

instance : Stepwise w A e.lowerEffects [e] :=
  stepwise_lowerEffects closed (exprs e)

instance {type : TypeId} [Given A (known w address)] :
    Stepwise w A (storeInitial location type address value) [value] :=
  stepwise_storeInitial closed (exprs value)

instance {target : Ir.Label} [Given A (known w x)] :
    Stepwise w A (testCase location x target value) [value] :=
  stepwise_testCase closed (exprs value)

instance {e : Option Source.Expr} : Stepwise w A (e.forM Source.Expr.lowerEffects) e.toList :=
  .forM_option_of fun e _ => stepwise_lowerEffects closed (exprs e)

instance {test : Option Source.Expr} {yes no : Ir.Label} : Stepwise w A (test.forM fun test => do
    branch location (← test.lowerValue) yes no) test.toList :=
  .forM_option_of fun e _ => stepwise_branch closed (exprs e)

instance {id : EntityId} : Stepwise w A (enterVariable id) (w.source.initial? id).toList :=
  stepwise_enterVariable closed (vars id)

instance {ids : List EntityId} :
    Stepwise w A (ids.forM enterVariable) (ids.filterMap w.source.initial?) :=
  stepwise_enterVariables closed fun id _ => vars id

instance : Stepwise w A (switchValue location value) [value] :=
  stepwise_switchValue closed (exprs value)

instance {cases : List Source.Case} [Given A (known w x)] :
    Stepwise w A (testCases location x cases) (cases.flatMap (·.values)) :=
  stepwise_testCases closed fun e _ => exprs e

section

variable {inline : Entity → Source.Expr → Lower Ir.Expr}
  [hinline : ∀ c v A, Stepwise w A (inline c v) [v]]

instance {d : Demand} : Stepwise w A (lowerUsing inline d e) [e] :=
  stepwise_lowerUsing closed (fun c v A _ => hinline c v A) d e (exprs e) A

instance {es : List Source.Expr} : Stepwise w A (lowerArgs inline es) es.reverse :=
  stepwise_lowerArgs closed (fun c v A _ => hinline c v A) es (fun e _ => exprs e) A

end

variable [Fact w.hasNames] {exits : Exits}

instance {b : Source.Block} : Stepwise w A (b.lower exits) (b.evaluated w.source) :=
  stepwise_block closed exits b (fun e _ => exprs e) (fun id _ => vars id) A

instance {st : Source.Stmt} : Stepwise w A (st.lower exits) (st.evaluated w.source) :=
  stepwise_stmt closed exits st (fun e _ => exprs e) (fun id _ => vars id) A

instance {ss : List Source.Stmt} :
    Stepwise w A (Source.lowerStmts exits ss) (Source.evaluatedOfStmts w.source ss) :=
  stepwise_stmts closed exits ss (fun e _ => exprs e) (fun id _ => vars id) A

end

end Lower

end Backend386
