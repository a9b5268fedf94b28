import Backend386.Ir.Module
import Backend386.Source.Writer

/-!
# Dumps of intermediate code

The JSON form of intermediate modules.
-/

namespace Backend386

open Json (variant)

namespace Ir

/-- An expression with its width. -/
def wrapExpr (w : Width) (kind : Json) : Json :=
  .obj [("width", .str w.tag), ("kind", kind)]

namespace Expr

mutual

/-- An expression. -/
def toJson : Expr → Json
  | int w v => wrapExpr w (variant "Int" (.int v.toInt))
  | str w s => wrapExpr w (variant "Str" (.nat s.index))
  | var w v => wrapExpr w (variant "Var" v.toJson)
  | addr w v => wrapExpr w (variant "Addr" v.toJson)
  | mem w a => wrapExpr w (variant "Mem" (toJson a))
  | uni w op e => wrapExpr w (variant "Uni" (.arr [.str op.tag, toJson e]))
  | bin w op l r => wrapExpr w (variant "Bin" (.arr [.str op.tag, toJson l, toJson r]))
  | call w f args =>
    wrapExpr w (variant "Call" (.obj [("callee", toJson f), ("args", .arr (toJsonAll args))]))

/-- The forms of a list of expressions. -/
def toJsonAll : List Expr → List Json
  | [] => []
  | e :: es => toJson e :: toJsonAll es

end

end Expr

/-- A label as its number. -/
def Label.toJson (l : Label) : Json :=
  .nat l.index

/-- What a statement does, named by its kind. -/
def Action.toJson : Action → Json
  | eval e => variant "ExprStmt" e.toJson
  | assign target value => variant "Assign" (.obj [("lhs", target.toJson), ("rhs", value.toJson)])
  | jump l => variant "Jump" l.toJson
  | branch test yes no =>
    variant "CJump" (.obj [("cond", test.toJson), ("then", yes.toJson), ("els", no.toJson)])
  | label l => variant "LabelStmt" l.toJson
  | ret value => variant "Return" (.option Expr.toJson value)

/-- A statement with its place. -/
def Stmt.toJson (s : Stmt) : Json :=
  .obj [("kind", s.action.toJson), ("location", Location.optionToJson s.location)]

/-- A function. -/
def Function.toJson (f : Function) : Json :=
  .obj [
    ("entity", f.entity.toJson),
    ("params", .list EntityId.toJson f.params),
    ("scope", f.scope.toJson),
    ("body", .list Stmt.toJson f.body.toList)]

/-- A static variable. -/
def StaticVariable.toJson (v : StaticVariable) : Json :=
  .obj [("entity", v.entity.toJson), ("init", .option Expr.toJson v.init)]

/-- A named constant. -/
def NamedConstant.toJson (c : NamedConstant) : Json :=
  .obj [("entity", c.entity.toJson), ("value", .option Expr.toJson c.value)]

end Ir

/-- The string table as the list of its entries. -/
def StringTable.toJson (t : StringTable) : Json :=
  .obj [("entries", .list (fun e =>
    .obj [("value", .str e.value), ("symbol", .option .str e.symbol)]) t.entries)]

/-- A module. -/
def Ir.Module.toJson (m : Ir.Module) : Json :=
  .obj [
    ("entities", m.entities.toJson),
    ("constants", m.strings.toJson),
    ("variables", .list Ir.StaticVariable.toJson m.vars),
    ("functions", .list Ir.Function.toJson m.functions),
    ("named_constants", .list Ir.NamedConstant.toJson m.namedConstants),
    ("undefined", .list EntityId.toJson m.undefined),
    ("labels", .obj [("next", .nat m.labels.next)])]

end Backend386
