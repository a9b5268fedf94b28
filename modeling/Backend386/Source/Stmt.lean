import Backend386.Source.Expr

/-!
# Statements of the source program

A block declares variables, whose initializers run each time the block is entered, and holds
statements. A case of a switch without values is the default case.
-/

namespace Backend386.Source

mutual

/-- A statement; `place` is where it comes from. -/
inductive Stmt where
  | expr (place : Option Location) (e : Expr)
  | block (place : Option Location) (body : Block)
  | ifThen (place : Option Location) (test : Expr) (yes : Stmt)
  | ifElse (place : Option Location) (test : Expr) (yes no : Stmt)
  | whileLoop (place : Option Location) (test : Expr) (body : Stmt)
  | doLoop (place : Option Location) (body : Stmt) (test : Expr)
  | forLoop (place : Option Location) (init test step : Option Expr) (body : Stmt)
  | switch (place : Option Location) (value : Expr) (cases : List Case)
  | breakOut (place : Option Location)
  | continueOn (place : Option Location)
  | goto (place : Option Location) (target : String)
  | label (place : Option Location) (name : String) (body : Stmt)
  | ret (place : Option Location) (value : Option Expr)

/-- A block: the variables it declares and its statements. -/
inductive Block where
  | mk (vars : List EntityId) (stmts : List Stmt)

/-- One arm of a switch. -/
inductive Case where
  | mk (values : List Expr) (body : Block)

end

instance : Inhabited Block := ⟨.mk [] []⟩

namespace Block

/-- The variables a block declares. -/
def vars : Block → List EntityId
  | mk vs _ => vs

/-- The statements of a block. -/
def stmts : Block → List Stmt
  | mk _ ss => ss

end Block

namespace Case

/-- The values that select the arm. -/
def values : Case → List Expr
  | mk vs _ => vs

/-- The body of the arm. -/
def body : Case → Block
  | mk _ b => b

/-- An arm without values is the default. -/
def isDefault (c : Case) : Bool :=
  c.values.isEmpty

end Case

/-- The place a statement comes from. -/
def Stmt.location : Stmt → Option Location
  | .expr p _ | .block p _ | .ifThen p _ _ | .ifElse p _ _ _ | .whileLoop p _ _ | .doLoop p _ _
  | .forLoop p _ _ _ _ | .switch p _ _ | .breakOut p | .continueOn p | .goto p _ | .label p _ _
  | .ret p _ => p

end Backend386.Source
