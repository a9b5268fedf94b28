import Backend386.Proofs.Source.Entities

/-!
# What a program evaluates

The expressions that are met when an expression is evaluated stand in the operands that are
evaluated, in the values of the constants that it names, and in the expression itself. The right
operand is evaluated before the left one, and arguments are evaluated last to first. What `sizeof`
measures is not evaluated.

* `EntityTable.constant?`, `EntityTable.initial?`, `EntityTable.declared?` — the expressions that a
  table declares;
* `Source.Expr.evaluated` — the operands of an expression in the order in which they are evaluated;
* `Source.Block.evaluated` — the expressions of a block in the order of its code;
* `Source.Program.evaluated` — the expressions of a program in the order in which they are lowered.
-/

namespace Backend386

/-! ## Declarations -/

namespace EntityTable

/-- The value of a constant of a table. -/
def constant? (t : EntityTable) (id : EntityId) : Option Source.Expr :=
  (t.get id).toOption.bind (·.constantValue?)

/-- What a variable of a table is initialized with whenever its block is entered. -/
def initial? (t : EntityTable) (id : EntityId) : Option Source.Expr :=
  (t.get id).toOption.bind fun v => if v.isPrivate then none else v.initializer?

/-- What a variable of a table is initialized with. -/
def initializer? (t : EntityTable) (id : EntityId) : Option Source.Expr :=
  (t.get id).toOption.bind (·.initializer?)

/-- The expression in a declaration: the value of a constant, or what a variable is initialized
with. -/
def declared? (t : EntityTable) (id : EntityId) : Option Source.Expr :=
  (t.constant? id).or (t.initializer? id)

/-- The body of a function of a table. -/
def body? (t : EntityTable) (id : EntityId) : Option Source.Block :=
  (t.get id).toOption.bind fun e =>
    match e.kind with
    | .definedFunction _ body => some body
    | _ => none

variable {t : EntityTable} {id : EntityId} {e : Entity}

theorem constant?_eq (h : t.get id = .ok e) : t.constant? id = e.constantValue? := by
  rw [constant?, h]
  rfl

theorem initial?_eq (h : t.get id = .ok e) :
    t.initial? id = if e.isPrivate then none else e.initializer? := by
  rw [initial?, h]
  rfl

theorem initializer?_eq (h : t.get id = .ok e) : t.initializer? id = e.initializer? := by
  rw [initializer?, h]
  rfl

theorem body?_eq_some {params : List EntityId} {body : Source.Block} (h : t.get id = .ok e)
    (hkind : e.kind = .definedFunction params body) : t.body? id = some body := by
  rw [body?, h]
  simp only [Except.toOption, Option.bind_some, hkind]

theorem body?_eq_none (h : t.get id = .ok e)
    (hkind : ∀ params body, e.kind ≠ .definedFunction params body) : t.body? id = none := by
  rw [body?, h]
  simp only [Except.toOption, Option.bind_some]

end EntityTable

namespace Source

/-! ## Expressions -/

namespace Expr

/-- The operands that are evaluated, in this order. -/
def evaluated : Expr → List Expr
  | .int .. | .str .. | .var .. | .sizeofType .. | .sizeofExpr .. => []
  | .unary _ _ e | .preStep _ _ e | .postStep _ _ e | .cast _ e | .addr _ e | .deref _ e
  | .member _ e _ | .ptrMember _ e _ => [e]
  | .binary _ _ l r | .assign _ l r | .opAssign _ _ l r | .index _ l r => [r, l]
  | .logical _ _ l r => [l, r]
  | .cond _ test yes no => [test, yes, no]
  | .call _ callee args => args.reverse ++ [callee]

/-- The value of the constant that an expression names. -/
def constant? (t : EntityTable) : Expr → Option Expr
  | .var _ id => t.constant? id
  | _ => none

end Expr

/-! ## Statements -/

mutual

/-- The expressions that are evaluated in a block, in the order of its code: the initial values of
its variables, then its statements. -/
def Block.evaluated (t : EntityTable) : Block → List Expr
  | .mk vars stmts => vars.filterMap t.initial? ++ evaluatedOfStmts t stmts

/-- The expressions that are evaluated in a statement. The values of all cases of a switch are
tested before the first body, and a loop steps behind its body. -/
def Stmt.evaluated (t : EntityTable) : Stmt → List Expr
  | .expr _ e => [e]
  | .block _ body => body.evaluated t
  | .ifThen _ test yes => test :: yes.evaluated t
  | .ifElse _ test yes no => test :: (yes.evaluated t ++ no.evaluated t)
  | .whileLoop _ test body => test :: body.evaluated t
  | .doLoop _ body test => body.evaluated t ++ [test]
  | .forLoop _ init test step body =>
    init.toList ++ (test.toList ++ (body.evaluated t ++ step.toList))
  | .switch _ value cases => value :: (cases.flatMap (·.values) ++ evaluatedOfCases t cases)
  | .label _ _ body => body.evaluated t
  | .ret _ value => value.toList
  | .breakOut _ | .continueOn _ | .goto .. => []

/-- The expressions that are evaluated in a list of statements. -/
def evaluatedOfStmts (t : EntityTable) : List Stmt → List Expr
  | [] => []
  | s :: ss => s.evaluated t ++ evaluatedOfStmts t ss

/-- The expressions that are evaluated in the bodies of the cases of a switch. -/
def evaluatedOfCases (t : EntityTable) : List Case → List Expr
  | [] => []
  | .mk _ body :: cs => body.evaluated t ++ evaluatedOfCases t cs

end

mutual

/-- Only the initial values of variables count. -/
theorem Block.evaluated_congr {t t' : EntityTable} (ht : ∀ id, t'.initial? id = t.initial? id)
    (b : Block) : b.evaluated t' = b.evaluated t := by
  cases b with
  | mk vars stmts =>
    rw [Block.evaluated, Block.evaluated, funext ht, evaluatedOfStmts_congr ht stmts]

/-- What a statement evaluates depends on the initial values of its variables. -/
theorem Stmt.evaluated_congr {t t' : EntityTable} (ht : ∀ id, t'.initial? id = t.initial? id)
    (st : Stmt) : st.evaluated t' = st.evaluated t := by
  cases st with
  | block _ body => rw [Stmt.evaluated, Stmt.evaluated, Block.evaluated_congr ht body]
  | ifElse _ _ yes no =>
    rw [Stmt.evaluated, Stmt.evaluated, Stmt.evaluated_congr ht yes, Stmt.evaluated_congr ht no]
  | ifThen _ _ body | whileLoop _ _ body | doLoop _ body _ | forLoop _ _ _ _ body
  | label _ _ body => rw [Stmt.evaluated, Stmt.evaluated, Stmt.evaluated_congr ht body]
  | switch _ _ cases => rw [Stmt.evaluated, Stmt.evaluated, evaluatedOfCases_congr ht cases]
  | _ => rw [Stmt.evaluated, Stmt.evaluated]

/-- The same for a list of statements. -/
theorem evaluatedOfStmts_congr {t t' : EntityTable} (ht : ∀ id, t'.initial? id = t.initial? id)
    (ss : List Stmt) : evaluatedOfStmts t' ss = evaluatedOfStmts t ss := by
  cases ss with
  | nil => rfl
  | cons st ss =>
    rw [evaluatedOfStmts, evaluatedOfStmts, Stmt.evaluated_congr ht st,
      evaluatedOfStmts_congr ht ss]

/-- The same for the cases of a switch. -/
theorem evaluatedOfCases_congr {t t' : EntityTable} (ht : ∀ id, t'.initial? id = t.initial? id)
    (cs : List Case) : evaluatedOfCases t' cs = evaluatedOfCases t cs := by
  match cs with
  | [] => rfl
  | .mk _ body :: cs =>
    rw [evaluatedOfCases, evaluatedOfCases, Block.evaluated_congr ht body,
      evaluatedOfCases_congr ht cs]

end

end Source

/-! ## Functions and programs -/

/-- The expressions that are evaluated in a function: those of its body, and then what its static
variables are initialized with. -/
def EntityTable.evaluatedIn (t : EntityTable) (id : EntityId) : List Source.Expr :=
  (t.body? id).elim [] fun body => body.evaluated t ++
    (t.withPrivacy true body.scope.variablesOfTree).filterMap t.initializer?

/-- The expressions that are lowered of a program, in this order: those in its declarations, and
then those of each function. -/
def Source.Program.evaluated (p : Source.Program) : List Source.Expr :=
  p.declarations.filterMap p.entities.declared? ++
    p.declarations.flatMap p.entities.evaluatedIn

end Backend386
