import Backend386.Proofs.Source.Eval

/-!
# The meaning of source statements

The reference semantics of structured statements, big-step: a statement is executed in a store, and
ends in some way with the store it leaves. The initializers of a block run on every entry. A break
leaves the innermost loop or switch; a continue goes to the condition of a while or do loop, and to
the step of a for loop. A switch goes to the first arm one of whose values it has, else to the last
of its default arms, else to its end, and falls through from one arm to the next. There is no
execution of a goto.

* `Source.Outcome`, `Source.Execution` — how statements end, and what they do;
* `Source.Execution.Then`, `Source.Execution.Repeat`, … — what statements are built from;
* `Source.Expr.select` — the arm that a switch goes to;
* `Source.Block.exec`, `Source.Stmt.exec` — the executions of blocks and statements;
* `Source.Block.Structured`, `Source.Stmt.Structured` — the statements without jumps, over integer
  expressions whose annotations fit together.
-/

namespace Backend386.Source

/-- How a statement ends. -/
inductive Outcome where
  | normal
  | broke
  | continued
  /-- at a return, with its value -/
  | returned (value : Option Ir.Value)

/-- Outcomes of the body of a loop after which the loop may go on. -/
def Outcome.isLatch : Outcome → Bool
  | normal | continued => true
  | broke | returned _ => false

/-- An execution: the store before, the outcome and the store after. -/
abbrev Execution := Store → Outcome → Store → Prop

namespace Execution

/-- Ends at once. -/
def exit (outcome : Outcome) : Execution :=
  fun σ o τ => o = outcome ∧ τ = σ

/-- Computes something, and goes on with what that selects. -/
def choose {α : Type} (f : Store → Option (α × Store)) (arms : α → Execution) : Execution :=
  fun σ o ρ => ∃ a τ, f σ = some (a, τ) ∧ arms a τ o ρ

/-- Changes the store. -/
def perform (f : Store → Option (Unit × Store)) : Execution :=
  choose f fun _ => exit .normal

/-- One after the other, unless the first is left. -/
inductive Then (a b : Execution) : Execution where
  | next {σ τ ρ : Store} {o : Outcome} (ha : a σ .normal τ) (hb : b τ o ρ) : Then a b σ o ρ
  | left {σ τ : Store} {o : Outcome} (ha : a σ o τ) (ho : o ≠ .normal) : Then a b σ o τ

/-- Runs a body until what follows it says that it is not to be run again. -/
inductive Repeat (body : Execution) (again : Store → Option (Bool × Store)) : Execution where
  | last {σ τ ρ : Store} {o : Outcome} (hb : body σ o τ) (ho : o.isLatch)
    (ht : again τ = some (false, ρ)) : Repeat body again σ .normal ρ
  | again {σ τ ρ ω : Store} {o o' : Outcome} (hb : body σ o τ) (ho : o.isLatch)
    (ht : again τ = some (true, ρ)) (hr : Repeat body again ρ o' ω) : Repeat body again σ o' ω
  | broke {σ τ : Store} (hb : body σ .broke τ) : Repeat body again σ .normal τ
  | returned {σ τ : Store} {v : Option Ir.Value} (hb : body σ (.returned v) τ) :
    Repeat body again σ (.returned v) τ

/-- A loop that tests before each run of its body, and takes a step after it. -/
def loop (test : Store → Option (Bool × Store)) (step : Store → Option (Unit × Store))
    (body : Execution) : Execution :=
  choose test fun b =>
    if b then Repeat body fun σ => (step σ).bind fun p => test p.2 else exit .normal

/-- A break ends this execution, and no more. -/
inductive Breakable (a : Execution) : Execution where
  | broke {σ τ : Store} (ha : a σ .broke τ) : Breakable a σ .normal τ
  | other {σ τ : Store} {o : Outcome} (ha : a σ o τ) (ho : o ≠ .broke) : Breakable a σ o τ

/-- One after the other. -/
def sequence : List Execution → Execution
  | [] => exit .normal
  | a :: as => Then a (sequence as)

end Execution

open Execution

/-! ## Expressions in statements -/

namespace Expr

/-- An expression whose value is not used. -/
def effect (Γ : Context) (e : Expr) (σ : Store) : Option (Unit × Store) :=
  (e.eval Γ σ).map fun p => ((), p.2)

/-- An expression that decides something. -/
def test (Γ : Context) (e : Expr) (σ : Store) : Option (Bool × Store) :=
  (e.eval Γ σ).map fun p => (p.1.holds, p.2)

/-- Gives a variable the value of an expression. -/
def initial (Γ : Context) (v : EntityId) (e : Expr) (σ : Store) : Option (Unit × Store) :=
  (e.eval Γ σ).map fun p => ((), p.2.write v p.1)

/-- Whether a value is that of an expression. -/
def isValue (Γ : Context) (x : Ir.Value) (e : Expr) (σ : Store) : Option (Bool × Store) :=
  (e.eval Γ σ).map fun p => (decide (x = p.1), p.2)

/-- Whether a value is that of one of some expressions, which are evaluated as far as needed. -/
def isAny (Γ : Context) (x : Ir.Value) : List Expr → Store → Option (Bool × Store)
  | [], σ => some (false, σ)
  | e :: es, σ => (isValue Γ x e σ).bind fun p =>
    if p.1 then some (true, p.2) else isAny Γ x es p.2

/-- The position of the first arm that a value selects. -/
def firstArm (Γ : Context) (x : Ir.Value) : List Case → Store → Option (Option Nat × Store)
  | [], σ => some (none, σ)
  | c :: cs, σ => (isAny Γ x c.values σ).bind fun p =>
    if p.1 then some (some 0, p.2)
    else (firstArm Γ x cs p.2).bind fun q => some (q.1.map (· + 1), q.2)

/-- The position of the last default arm. -/
def defaultArm : List Case → Option Nat
  | [] => none
  | c :: cs => ((defaultArm cs).map (· + 1)).or (if c.isDefault then some 0 else none)

/-- The position of the arm that a switch goes to, which is beyond all arms if there is none. -/
def select (Γ : Context) (value : Expr) (cases : List Case) (σ : Store) :
    Option (Nat × Store) :=
  (value.eval Γ σ).bind fun p => (firstArm Γ p.1 cases p.2).bind fun q =>
    some ((q.1.or (defaultArm cases)).getD cases.length, q.2)

end Expr

/-- The initializer that runs when a variable's block is entered. Static variables have none. -/
def Context.initializer? (Γ : Context) (v : EntityId) : Option Expr :=
  Γ.entities.entries[v.index]?.bind fun e => if e.isPrivate then none else e.initializer?

/-- Gives a variable its initial value, if it has one. -/
def enter (Γ : Context) (v : EntityId) : Execution :=
  (Γ.initializer? v).elim (exit .normal) fun init => perform (init.initial Γ v)

/-! ## Statements -/

mutual

/-- The executions of a block. -/
def Block.exec (Γ : Context) : Block → Execution
  | .mk vars stmts => Then (sequence (vars.map (enter Γ))) (execStmts Γ stmts)

/-- The executions of a statement. -/
def Stmt.exec (Γ : Context) : Stmt → Execution
  | .expr _ e => perform (e.effect Γ)
  | .block _ body => body.exec Γ
  | .ifThen _ test yes =>
    choose (test.test Γ) fun b => if b then yes.exec Γ else exit .normal
  | .ifElse _ test yes no =>
    choose (test.test Γ) fun b => if b then yes.exec Γ else no.exec Γ
  | .whileLoop _ test body => loop (test.test Γ) (fun σ => some ((), σ)) (body.exec Γ)
  | .doLoop _ body test => Repeat (body.exec Γ) (test.test Γ)
  | .forLoop _ init test step body =>
    Then (perform (init.elim (fun σ => some ((), σ)) (Expr.effect Γ)))
      (loop (test.elim (fun σ => some (true, σ)) (Expr.test Γ))
        (step.elim (fun σ => some ((), σ)) (Expr.effect Γ)) (body.exec Γ))
  | .switch _ value cases =>
    Breakable (choose (value.select Γ cases) fun i => sequence ((execCases Γ cases).drop i))
  | .breakOut _ => exit .broke
  | .continueOn _ => exit .continued
  | .goto .. | .label .. => fun _ _ _ => False
  | .ret _ none => exit (.returned none)
  | .ret _ (some e) => choose (e.eval Γ) fun x => exit (.returned (some x))

/-- The executions of a list of statements. -/
def execStmts (Γ : Context) : List Stmt → Execution
  | [] => exit .normal
  | s :: ss => Then (s.exec Γ) (execStmts Γ ss)

/-- The executions of the arms of a switch. -/
def execCases (Γ : Context) : List Case → List Execution
  | [] => []
  | .mk _ body :: cs => body.exec Γ :: execCases Γ cs

end

/-! ## Structured statements -/

namespace Context

/-- A typed expression. -/
def IsTyped (Γ : Context) (e : Expr) : Prop :=
  ∃ type, Typed Γ Γ.entities.size e type

/-- A variable that a block may declare: its initializer is as wide as it is. -/
def Enterable (Γ : Context) (v : EntityId) : Prop :=
  v.index < Γ.entities.size ∧ ∀ init ∈ Γ.initializer? v, ∃ type type', Γ.varType? v = some type ∧
    Typed Γ Γ.entities.size init type' ∧ type'.width = type.width

/-- A value for an arm of a switch over a type: it is as wide as the type, and writes nothing. -/
def Comparable (Γ : Context) (type : IntType) (e : Expr) : Prop :=
  ∃ type', Typed Γ Γ.entities.size e type' ∧ type'.width = type.width ∧
    e.writes Γ Γ.entities.size = []

end Context

mutual

/-- A block of structured statements. -/
def Block.Structured (Γ : Context) : Block → Prop
  | .mk vars stmts => (∀ v ∈ vars, Γ.Enterable v) ∧ StructuredStmts Γ stmts

/-- A statement without jumps and labels, whose expressions are typed. The values of a switch are
compared as integers of type int, which must be known. -/
def Stmt.Structured (Γ : Context) : Stmt → Prop
  | .expr _ e => Γ.IsTyped e
  | .block _ body => body.Structured Γ
  | .ifThen _ test yes => Γ.IsTyped test ∧ yes.Structured Γ
  | .ifElse _ test yes no => Γ.IsTyped test ∧ yes.Structured Γ ∧ no.Structured Γ
  | .whileLoop _ test body => Γ.IsTyped test ∧ body.Structured Γ
  | .doLoop _ body test => body.Structured Γ ∧ Γ.IsTyped test
  | .forLoop _ init test step body =>
    (∀ e ∈ init, Γ.IsTyped e) ∧ (∀ e ∈ test, Γ.IsTyped e) ∧ (∀ e ∈ step, Γ.IsTyped e) ∧
      body.Structured Γ
  | .switch _ value cases =>
    (Γ.type? (.integer .int true)).isSome ∧
      (∃ type, Typed Γ Γ.entities.size value type ∧
        ∀ c ∈ cases, ∀ e ∈ c.values, Γ.Comparable type e) ∧ StructuredCases Γ cases
  | .breakOut _ | .continueOn _ | .ret _ none => True
  | .goto .. | .label .. => False
  | .ret _ (some e) => Γ.IsTyped e

/-- A list of structured statements. -/
def StructuredStmts (Γ : Context) : List Stmt → Prop
  | [] => True
  | s :: ss => s.Structured Γ ∧ StructuredStmts Γ ss

/-- Arms of structured statements. -/
def StructuredCases (Γ : Context) : List Case → Prop
  | [] => True
  | .mk _ body :: cs => body.Structured Γ ∧ StructuredCases Γ cs

end

end Backend386.Source
