import Backend386.Ir.Expr
import Backend386.Source.Scope

/-!
# Intermediate functions

The body of a function is a flat list of statements whose only control flow is jumps between
labels.

* `Ir.Label`, `Ir.LabelSupply` — jump targets, numbered over the whole unit;
* `Ir.Stmt`, `Ir.Function` — statements and functions;
* `Ir.Function.emit`, `Ir.Function.addTemporary` — how a function is built up;
* `Ir.Function.labelProblem?` — what is wrong with its labels.
-/

namespace Backend386.Ir

/-- A jump target. -/
structure Label where
  index : Nat
deriving DecidableEq, Inhabited, Repr

/-- The assembler's name of a label. -/
def Label.render (l : Label) : String :=
  ".L" ++ l.index.repr

/-- Hands out labels. One supply serves all functions of a unit, so no two labels clash. -/
structure LabelSupply where
  next : Nat := 0
deriving DecidableEq, Inhabited, Repr

/-- The next label. -/
def LabelSupply.take (s : LabelSupply) : LabelSupply × Label :=
  (⟨s.next + 1⟩, ⟨s.next⟩)

/-- What a statement does. -/
inductive Action where
  /-- evaluates an expression for its effects -/
  | eval (e : Expr)
  /-- stores `value` at the address `target` -/
  | assign (target value : Expr)
  | jump (target : Label)
  /-- jumps to `yes` if `test` is not zero, and to `no` otherwise -/
  | branch (test : Expr) (yes no : Label)
  | label (l : Label)
  | ret (value : Option Expr)
deriving Inhabited

/-- A statement and the place it comes from. -/
structure Stmt where
  action : Action
  location : Option Location := none
deriving Inhabited

namespace Stmt

/-- The labels a statement may jump to. -/
def targets (s : Stmt) : List Label :=
  match s.action with
  | .jump l => [l]
  | .branch _ yes no => [yes, no]
  | _ => []

/-- The label a statement places. -/
def placed? (s : Stmt) : Option Label :=
  match s.action with
  | .label l => some l
  | _ => none

/-- The text of a statement. -/
def render (s : Stmt) : String :=
  match s.action with
  | .eval e => e.render
  | .assign target value => "[" ++ target.render ++ "] := " ++ value.render
  | .jump l => "goto " ++ l.render
  | .branch test yes no => "if " ++ test.render ++ " then " ++ yes.render ++ " else " ++ no.render
  | .label l => l.render ++ ":"
  | .ret (some e) => "return " ++ e.render
  | .ret none => "return"

/-- The line of a statement in the text of its function. -/
def renderLine (s : Stmt) : String :=
  let indent := if s.placed?.isSome then "" else "    "
  let comment := match s.location with
    | some l => "  // " ++ l.render
    | none => ""
  indent ++ s.render ++ comment ++ "\n"

end Stmt

/-- A function with its scopes and its body. -/
structure Function where
  entity : EntityId
  params : List EntityId := []
  /-- the variables of the body and the temporaries made for it -/
  scope : Scope := {}
  body : Array Stmt := #[]
deriving Inhabited

namespace Function

/-- Appends a statement. -/
def emit (f : Function) (action : Action) (location : Option Location) : Function :=
  { f with body := f.body.push ⟨action, location⟩ }

/-- Makes a temporary in the outermost scope. -/
def addTemporary (f : Function) (entities : EntityTable) (types : TypeTable) (type : TypeId) :
    Except Fault (Function × EntityTable × EntityId) := do
  let (scope, entities, id) ← f.scope.addTemporary entities types type
  return ({ f with scope }, entities, id)

/-- The text of a function. -/
def render (f : Function) : String :=
  "fn " ++ f.entity.render ++ "(" ++ ", ".intercalate (f.params.map (·.render)) ++ "):\n" ++
    String.join (f.body.toList.map (·.renderLine))

@[simp] theorem body_emit (f : Function) (a : Action) (l : Option Location) :
    (f.emit a l).body.toList = f.body.toList ++ [{ action := a, location := l }] := by
  simp [emit]

end Function

/-! ## Pairing of labels

Every label that a function jumps to must be placed by exactly one statement of that function. -/

/-- What is wrong with the labels of a function. -/
inductive LabelProblem where
  | placedTwice (label : Label) (function : EntityId)
  | unplaced (label : Label) (function : EntityId)
deriving DecidableEq

/-- The wording of a label problem. -/
def LabelProblem.message : LabelProblem → String
  | placedTwice l f => "Label " ++ l.render ++ " is placed more than once in " ++ f.render
  | unplaced l f => "Jump to undefined label " ++ l.render ++ " in " ++ f.render

/-- The first element of a list that stands again further on, seen from its second occurrence. -/
def firstRepeated? {α : Type} [DecidableEq α] : List α → List α → Option α
  | _, [] => none
  | seen, a :: as => if a ∈ seen then some a else firstRepeated? (a :: seen) as

namespace Function

/-- The labels a function places, in order. -/
def placedLabels (f : Function) : List Label :=
  f.body.toList.filterMap (·.placed?)

/-- The labels a function may jump to, in order. -/
def jumpTargets (f : Function) : List Label :=
  f.body.toList.flatMap (·.targets)

/-- The first problem with the labels of a function: a label placed twice comes before a jump to a
label that is not placed. -/
def labelProblem? (f : Function) : Option LabelProblem :=
  let placed := f.placedLabels
  match firstRepeated? [] placed with
  | some l => some (.placedTwice l f.entity)
  | none => (f.jumpTargets.find? (· ∉ placed)).map (.unplaced · f.entity)

end Function

end Backend386.Ir
