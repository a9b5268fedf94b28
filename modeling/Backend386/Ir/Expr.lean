import Backend386.Ir.Op
import Backend386.Source.Entity
import Backend386.Strings

/-!
# Intermediate expressions

Trees of machine operations. Every node is tagged with the width of the value it produces.

* `Ir.Expr` — the expressions;
* `Ir.Expr.addressOf?` — the address of the location that an expression reads;
* `Ir.Expr.staticCallee?` — the function that a call names directly;
* `Ir.Expr.render` — their text.
-/

namespace Backend386.Ir

/-- An intermediate expression. -/
inductive Expr where
  | int (width : Width) (value : Int64)
  /-- the address of a string literal -/
  | str (width : Width) (id : StringId)
  /-- the value of a variable -/
  | var (width : Width) (entity : EntityId)
  /-- the address of a variable or a function -/
  | addr (width : Width) (entity : EntityId)
  /-- the value stored at an address -/
  | mem (width : Width) (address : Expr)
  /-- a unary operation, conversions included -/
  | uni (width : Width) (op : Op) (e : Expr)
  | bin (width : Width) (op : Op) (lhs rhs : Expr)
  /-- a call, with the arguments in source order -/
  | call (width : Width) (callee : Expr) (args : List Expr)
deriving Inhabited

namespace Expr

/-- The width of the value. -/
def width : Expr → Width
  | int w _ | str w _ | var w _ | addr w _ | mem w _ | uni w _ _ | bin w _ _ _ | call w _ _ => w

/-- The value of a variable. -/
def isVar : Expr → Bool
  | var .. => true
  | _ => false

/-- A value the assembler knows: a number, or the address of a literal or an entity. -/
def isConstant : Expr → Bool
  | int .. | str .. | addr .. => true
  | _ => false

/-- The address of the location that the expression reads, if it reads one. -/
def addressOf? (pointer : Width) : Expr → Option Expr
  | var _ v => some (addr pointer v)
  | mem _ a => some a
  | _ => none

/-- The entity that a callee names directly. -/
def named? : Expr → Option EntityId
  | var _ e | addr _ e => some e
  | _ => none

/-- The function that the callee of a call names directly. -/
def staticTarget? (entities : EntityTable) (callee : Expr) : Except Fault (Option EntityId) := do
  match callee.named? with
  | none => return none
  | some e => return if (← entities.get e).isFunction then some e else none

/-- The function that a call names directly; anything else is called through a pointer. -/
def staticCallee? (entities : EntityTable) : Expr → Except Fault (Option EntityId)
  | call _ callee _ => staticTarget? entities callee
  | _ => .ok none

mutual

/-- The text of an expression. -/
def render : Expr → String
  | int w v => v.toInt.repr ++ w.render
  | str _ s => s.render
  | var w v => v.render ++ ":" ++ w.render
  | addr _ v => "&" ++ v.render
  | mem w a => "*" ++ w.render ++ "(" ++ render a ++ ")"
  | uni w op e => op.render ++ ":" ++ w.render ++ "(" ++ render e ++ ")"
  | bin w op l r => op.render ++ ":" ++ w.render ++ "(" ++ render l ++ ", " ++ render r ++ ")"
  | call _ f args => "call " ++ render f ++ "(" ++ ", ".intercalate (renderAll args) ++ ")"

/-- The texts of a list of expressions. -/
def renderAll : List Expr → List String
  | [] => []
  | e :: es => render e :: renderAll es

end

end Expr

end Backend386.Ir
