import Backend386.Proofs.Source.Entities

/-!
# The expressions of a program

Which expressions are lowered along with which others: the operands of an expression, and the values
of the constants that it names. The operand of `sizeof` is not evaluated, so only its type counts.

* `Source.Expr.operands`, `Source.Expr.refs` — the parts of one expression;
* `Source.Block.exprs`, `Entity.exprs` — the expressions that stand in a block or a definition;
* `Source.Part` — a part of a program, and `Source.Part.Closed` — it holds whatever is lowered along
  with its expressions and variables;
* `Source.Part.closure` — a part with whatever is lowered along with it.
-/

namespace Backend386

namespace Scope

theorem variablesOfTree_eq (s : Scope) :
    s.variablesOfTree = s.vars ++ variablesOfTrees s.children := by
  cases s
  rw [variablesOfTree]

theorem variablesOfTrees_append (a b : List Scope) :
    variablesOfTrees (a ++ b) = variablesOfTrees a ++ variablesOfTrees b := by
  induction a with
  | nil => rfl
  | cons s ss ih => simp [variablesOfTrees, ih]

end Scope

namespace Source

/-- The operands that are lowered with an expression. -/
def Expr.operands : Expr → List Expr
  | .int .. | .str .. | .var .. | .sizeofType .. | .sizeofExpr .. => []
  | .unary _ _ e | .preStep _ _ e | .postStep _ _ e | .cast _ e | .addr _ e | .deref _ e
  | .member _ e _ | .ptrMember _ e _ => [e]
  | .binary _ _ l r | .logical _ _ l r | .assign _ l r | .opAssign _ _ l r | .index _ l r => [l, r]
  | .cond _ test yes no => [test, yes, no]
  | .call _ callee args => callee :: args

/-- The types that an expression itself mentions. -/
def Expr.refs : Expr → List TypeRef
  | .sizeofType n t => [n.type, t]
  | .sizeofExpr n e => [n.type, e.type]
  | e => [e.type]

theorem Expr.type_mem_refs (e : Expr) : e.type ∈ e.refs := by
  cases e <;> exact List.mem_cons_self

/-- An operand is smaller than its expression. -/
theorem Expr.sizeOf_operand {e operand : Expr} (h : operand ∈ e.operands) :
    sizeOf operand < sizeOf e := by
  cases e with
  | call n callee args =>
    rw [Expr.call.sizeOf_spec]
    rcases List.mem_cons.1 h with rfl | h
    · omega
    · have hlt := List.sizeOf_lt_of_mem h
      omega
  | _ =>
    simp only [operands, List.mem_cons, List.not_mem_nil, or_false] at h
    all_goals
      rcases h with rfl | rfl | rfl
      all_goals decreasing_tactic

/-! ## Statements -/

mutual

/-- The expressions that stand in a block, the initializers of its variables apart. -/
def Block.exprs : Block → List Expr
  | .mk _ stmts => exprsOfStmts stmts

/-- The expressions that stand in a statement. -/
def Stmt.exprs : Stmt → List Expr
  | .expr _ e => [e]
  | .block _ body => body.exprs
  | .ifThen _ test yes => test :: yes.exprs
  | .ifElse _ test yes no => test :: (yes.exprs ++ no.exprs)
  | .whileLoop _ test body | .doLoop _ body test => test :: body.exprs
  | .forLoop _ init test step body =>
    init.toList ++ test.toList ++ step.toList ++ body.exprs
  | .switch _ value cases => value :: exprsOfCases cases
  | .label _ _ body => body.exprs
  | .ret _ value => value.toList
  | .breakOut _ | .continueOn _ | .goto .. => []

/-- The expressions that stand in a list of statements. -/
def exprsOfStmts : List Stmt → List Expr
  | [] => []
  | s :: ss => s.exprs ++ exprsOfStmts ss

/-- The expressions that stand in the cases of a switch. -/
def exprsOfCases : List Case → List Expr
  | [] => []
  | .mk values body :: cs => values ++ body.exprs ++ exprsOfCases cs

end

mutual

/-- The values that the switches of a block compare. -/
def Block.switches : Block → List Expr
  | .mk _ stmts => switchesOfStmts stmts

/-- The values that the switches of a statement compare. -/
def Stmt.switches : Stmt → List Expr
  | .block _ body => body.switches
  | .ifThen _ _ body | .whileLoop _ _ body | .doLoop _ body _ | .forLoop _ _ _ _ body
  | .label _ _ body => body.switches
  | .ifElse _ _ yes no => yes.switches ++ no.switches
  | .switch _ value cases => value :: switchesOfCases cases
  | .expr .. | .ret .. | .breakOut _ | .continueOn _ | .goto .. => []

/-- The values that the switches of a list of statements compare. -/
def switchesOfStmts : List Stmt → List Expr
  | [] => []
  | s :: ss => s.switches ++ switchesOfStmts ss

/-- The values that the switches in the cases of a switch compare. -/
def switchesOfCases : List Case → List Expr
  | [] => []
  | .mk _ body :: cs => body.switches ++ switchesOfCases cs

end

end Source

/-- The expressions that stand in the definition of an entity. -/
def Entity.exprs (e : Entity) : List Source.Expr :=
  match e.kind with
  | .definedVariable init => init.toList
  | .constant value => [value]
  | .definedFunction _ body => body.exprs
  | .undefinedVariable | .undefinedFunction | .parameter => []

/-- The values that the switches in the definition of an entity compare. -/
def Entity.switches (e : Entity) : List Source.Expr :=
  match e.kind with
  | .definedFunction _ body => body.switches
  | _ => []

/-- An initializer stands in its entity. -/
theorem Entity.mem_exprs_of_initializer {e : Entity} {init : Source.Expr}
    (h : e.initializer? = some init) : init ∈ e.exprs := by
  unfold initializer? at h
  unfold exprs
  split at h
  · simp_all
  · cases h

/-- So does the value of a constant. -/
theorem Entity.mem_exprs_of_constantValue {e : Entity} {value : Source.Expr}
    (h : e.constantValue? = some value) : value ∈ e.exprs := by
  unfold constantValue? at h
  unfold exprs
  split at h
  · simp_all
  · cases h

namespace Source

/-! ## Parts of a program -/

/-- A part of a program: some of its expressions, and some of its variables. -/
structure Part where
  exprs : Expr → Prop
  vars : EntityId → Prop
  /-- the expressions that a switch compares -/
  switches : Expr → Prop

/-- The whole of a program, and of any other. -/
def Part.all : Part :=
  ⟨fun _ => True, fun _ => True, fun _ => True⟩

/-- A part holds whatever is lowered along with its expressions and its variables. The initial
values of private variables are not lowered with the code. -/
structure Part.Closed (entities : EntityTable) (p : Part) : Prop where
  operand {e operand : Expr} : p.exprs e → operand ∈ e.operands → p.exprs operand
  constant {n : Note} {id : EntityId} {c : Entity} {value : Expr} : p.exprs (.var n id) →
    entities.get id = .ok c → c.constantValue? = some value → p.exprs value
  initial {id : EntityId} {v : Entity} {init : Expr} : p.vars id → entities.get id = .ok v →
    v.isPrivate = false → v.initializer? = some init → p.exprs init

/-- The type references that the expressions of a part mention. -/
def Part.Mentions (p : Part) (ref : TypeRef) : Prop :=
  ∃ e, p.exprs e ∧ ref ∈ e.refs

theorem Part.closed_all (entities : EntityTable) : all.Closed entities where
  operand := fun _ _ => trivial
  constant := fun _ _ _ => trivial
  initial := fun _ _ _ _ => trivial

/-- What is lowered along with some expressions and some variables. -/
inductive Occurs (entities : EntityTable) (p : Part) : Expr → Prop where
  | root {e : Expr} (h : p.exprs e) : Occurs entities p e
  | operand {e operand : Expr} (h : Occurs entities p e) (ho : operand ∈ e.operands) :
    Occurs entities p operand
  | constant {n : Note} {id : EntityId} {c : Entity} {value : Expr}
    (h : Occurs entities p (.var n id)) (hc : entities.get id = .ok c)
    (hv : c.constantValue? = some value) : Occurs entities p value
  | initial {id : EntityId} {v : Entity} {init : Expr} (h : p.vars id)
    (hv : entities.get id = .ok v) (hi : v.initializer? = some init) : Occurs entities p init

theorem Expr.uses_of_mem {e : Expr} {es : List Expr} (h : e ∈ es) : e.uses ⊆ usesAll es := by
  intro v hv
  induction h with
  | head es => exact List.mem_append_left _ hv
  | tail e _ ih => exact List.mem_append_right _ ih

/-- An expression mentions what its operands mention. -/
theorem Expr.uses_operand {e operand : Expr} (h : operand ∈ e.operands) :
    operand.uses ⊆ e.uses := by
  intro v hv
  cases e with
  | call n callee args =>
    rcases List.mem_cons.1 h with rfl | h
    · exact List.mem_append_left _ hv
    · exact List.mem_append_right _ (uses_of_mem h hv)
  | _ => simp only [operands, List.mem_cons, List.not_mem_nil, or_false] at h <;> grind [uses]

/-- What is lowered along with a part mentions only what the part, the constants and the
initializers of its variables mention. -/
theorem Occurs.uses {entities : EntityTable} {p : Part} {e : Expr} (h : Occurs entities p e)
    (ok : EntityId → Prop) (hroot : ∀ e, p.exprs e → ∀ v ∈ e.uses, ok v)
    (hconstant : ∀ c ∈ entities.entries, ∀ value, c.constantValue? = some value →
      ∀ v ∈ value.uses, ok v)
    (hinitial : ∀ id, p.vars id → ∀ d, entities.get id = .ok d → ∀ init,
      d.initializer? = some init → ∀ v ∈ init.uses, ok v) : ∀ v ∈ e.uses, ok v := by
  induction h with
  | root h => exact hroot _ h
  | operand _ ho ih => exact fun v hv => ih v (Expr.uses_operand ho hv)
  | constant _ hc hv => exact hconstant _ (EntityTable.mem_of_get hc) _ hv
  | initial h hv hi => exact hinitial _ h _ hv _ hi

/-- A part with whatever is lowered along with it. -/
def Part.closure (entities : EntityTable) (p : Part) : Part :=
  ⟨Occurs entities p, p.vars, p.switches⟩

theorem Part.closed_closure (entities : EntityTable) (p : Part) :
    (p.closure entities).Closed entities where
  operand := .operand
  constant := .constant
  initial := fun h hv _ hi => .initial h hv hi

/-- A part holds all that is defined in a table, and the operands of its expressions. -/
structure Part.Covers (entities : EntityTable) (p : Part) : Prop where
  operand {e operand : Expr} : p.exprs e → operand ∈ e.operands → p.exprs operand
  defined {id : EntityId} {d : Entity} {e : Expr} : entities.get id = .ok d → e ∈ d.exprs →
    p.exprs e
  vars (id : EntityId) : p.vars id

/-- The whole of a program covers any table. -/
theorem Part.covers_all (entities : EntityTable) : Part.all.Covers entities where
  operand := fun _ _ => trivial
  defined := fun _ _ => trivial
  vars := fun _ => trivial

theorem Part.Covers.closed {entities : EntityTable} {p : Part} (h : p.Covers entities) :
    p.Closed entities where
  operand := h.operand
  constant := fun _ hc hv => h.defined hc (Entity.mem_exprs_of_constantValue hv)
  initial := fun _ hv _ hi => h.defined hv (Entity.mem_exprs_of_initializer hi)

/-- All that is defined in a table. -/
def Part.ofTable (entities : EntityTable) : Part :=
  ⟨fun e => ∃ id d, entities.get id = .ok d ∧ e ∈ d.exprs, fun _ => True,
    fun e => ∃ id d, entities.get id = .ok d ∧ e ∈ d.switches⟩

theorem Part.covers_ofTable (entities : EntityTable) :
    ((ofTable entities).closure entities).Covers entities where
  operand := .operand
  defined := fun hd he => .root ⟨_, _, hd, he⟩
  vars := fun _ => trivial

/-- The expressions and the variables of a block. -/
def Block.part (b : Block) : Part :=
  ⟨(· ∈ b.exprs), (· ∈ b.scope.variablesOfTree), (· ∈ b.switches)⟩

end Source

end Backend386
