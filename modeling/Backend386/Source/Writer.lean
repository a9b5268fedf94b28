import Backend386.I386.Dump
import Backend386.Source.Unit

/-!
# Writing program units

The JSON form of units and their parts. Every field is written, in a fixed order, with null for
what is absent; tags come first. The reader of units takes this form back.

* `TypeRef.toJson`, `Source.Expr.toJson`, `Entity.toJson`, … — the parts;
* `Source.ProgramUnit.toJson` — a unit.
-/

namespace Backend386

open Json (variant)

/-- A place as its line and its column. -/
def Location.toJson (l : Location) : Json :=
  .obj [("line", .nat l.line.toNat), ("column", .nat l.column.toNat)]

/-- A place that may be unknown. -/
def Location.optionToJson (l : Option Location) : Json :=
  .option Location.toJson l

/-- The number of an entity. -/
def EntityId.toJson (id : EntityId) : Json :=
  .nat id.index

/-- The number of a type. -/
def TypeId.toJson (id : TypeId) : Json :=
  .nat id.index

/-- A value that may still be pending. -/
def Deferred.toJson {α : Type} (f : α → Json) : Deferred α → Json
  | pending => .str "Unresolved"
  | settled v => variant "Resolved" (f v)

/-! ## Types -/

namespace TypeRef

mutual

/-- A type reference, named by its kind. -/
def toJson : TypeRef → Json
  | void => .str "void"
  | integer rank signed =>
    variant "integer" (.obj [("rank", .str rank.render), ("signed", .bool signed)])
  | struct n => variant "struct" (.str n)
  | union n => variant "union" (.str n)
  | typedef n => variant "user" (.str n)
  | pointer b => variant "pointer" (toJson b)
  | array b n => variant "array" (.arr [toJson b, .option (fun n => .nat n.toNat) n])
  | function r ps v =>
    variant "function"
      (.obj [("ret", toJson r), ("params", .arr (toJsonAll ps)), ("vararg", .bool v)])

/-- The forms of a list of references. -/
def toJsonAll : List TypeRef → List Json
  | [] => []
  | p :: ps => toJson p :: toJsonAll ps

end

end TypeRef

/-- A declared member. -/
def MemberDecl.toJson (m : MemberDecl) : Json :=
  .obj [
    ("name", .str m.name), ("ty", m.type.toJson),
    ("location", Location.optionToJson m.location)]

/-- A type definition, tagged by its kind. -/
def TypeDefinition.toJson : TypeDefinition → Json
  | composite kind name members location =>
    .obj [
      ("kind", .str kind.render), ("name", .str name), ("members", .list MemberDecl.toJson members),
      ("location", Location.optionToJson location)]
  | typedef name real location =>
    .obj [
      ("kind", .str "typedef"), ("name", .str name), ("real", real.toJson),
      ("location", Location.optionToJson location)]

namespace Source

/-! ## Expressions -/

/-- An expression with its node, its type and its place. -/
def Note.wrap (note : Note) (node : String) (fields : List (String × Json)) : Json :=
  .obj [
    ("kind", .obj (("node", .str node) :: fields)),
    ("ty", note.type.toJson),
    ("location", Location.optionToJson note.location)]

namespace Expr

mutual

/-- An expression. -/
def toJson : Expr → Json
  | int n v => n.wrap "int" [("value", .int v.toInt)]
  | str n s => n.wrap "str" [("value", .str s)]
  | var n e => n.wrap "var" [("entity", e.toJson)]
  | sizeofType n t => n.wrap "sizeof_type" [("of", t.toJson)]
  | sizeofExpr n e => n.wrap "sizeof_expr" [("expr", toJson e)]
  | unary n op e => n.wrap "unary" [("op", .str op.tag), ("expr", toJson e)]
  | binary n op l r => n.wrap "binary" [("op", .str op.tag), ("lhs", toJson l), ("rhs", toJson r)]
  | logical n op l r =>
    n.wrap "logical" [("op", .str op.tag), ("lhs", toJson l), ("rhs", toJson r)]
  | assign n l r => n.wrap "assign" [("lhs", toJson l), ("rhs", toJson r)]
  | opAssign n op l r =>
    n.wrap "op_assign" [("op", .str op.tag), ("lhs", toJson l), ("rhs", toJson r)]
  | preStep n op e => n.wrap "prefix" [("op", .str op.tag), ("expr", toJson e)]
  | postStep n op e => n.wrap "suffix" [("op", .str op.tag), ("expr", toJson e)]
  | cond n c y z => n.wrap "cond" [("cond", toJson c), ("then", toJson y), ("else", toJson z)]
  | cast n e => n.wrap "cast" [("expr", toJson e)]
  | addr n e => n.wrap "addr" [("expr", toJson e)]
  | deref n e => n.wrap "deref" [("expr", toJson e)]
  | member n e name => n.wrap "member" [("expr", toJson e), ("name", .str name)]
  | ptrMember n e name => n.wrap "ptr_member" [("expr", toJson e), ("name", .str name)]
  | index n e i => n.wrap "index" [("expr", toJson e), ("index", toJson i)]
  | call n f args => n.wrap "call" [("callee", toJson f), ("args", .arr (toJsonAll args))]

/-- The forms of a list of expressions. -/
def toJsonAll : List Expr → List Json
  | [] => []
  | e :: es => toJson e :: toJsonAll es

end

/-- An expression that may be absent. -/
def optionToJson (e : Option Expr) : Json :=
  .option toJson e

end Expr

/-! ## Statements -/

/-- A statement with its node and its place. -/
def wrapStmt (place : Option Location) (node : String) (fields : List (String × Json)) : Json :=
  .obj [
    ("kind", .obj (("node", .str node) :: fields)),
    ("location", Location.optionToJson place)]

mutual

/-- A statement. -/
def Stmt.toJson : Stmt → Json
  | .expr p e => wrapStmt p "expr" [("expr", e.toJson)]
  | .block p b => wrapStmt p "block" [("block", b.toJson)]
  | .ifThen p c y => wrapStmt p "if" [("cond", c.toJson), ("then", y.toJson), ("else", .null)]
  | .ifElse p c y n =>
    wrapStmt p "if" [("cond", c.toJson), ("then", y.toJson), ("else", n.toJson)]
  | .whileLoop p c b => wrapStmt p "while" [("cond", c.toJson), ("body", b.toJson)]
  | .doLoop p b c => wrapStmt p "do_while" [("body", b.toJson), ("cond", c.toJson)]
  | .forLoop p i c s b =>
    wrapStmt p "for" [
      ("init", Expr.optionToJson i), ("cond", Expr.optionToJson c), ("incr", Expr.optionToJson s),
      ("body", b.toJson)]
  | .switch p c cases =>
    wrapStmt p "switch" [("cond", c.toJson), ("cases", .arr (casesToJson cases))]
  | .breakOut p => wrapStmt p "break" []
  | .continueOn p => wrapStmt p "continue" []
  | .goto p target => wrapStmt p "goto" [("target", .str target)]
  | .label p name s => wrapStmt p "label" [("name", .str name), ("stmt", s.toJson)]
  | .ret p e => wrapStmt p "return" [("expr", Expr.optionToJson e)]

/-- A block. -/
def Block.toJson : Block → Json
  | .mk vars stmts =>
    .obj [("variables", .list EntityId.toJson vars), ("stmts", .arr (stmtsToJson stmts))]

/-- The forms of a list of statements. -/
def stmtsToJson : List Stmt → List Json
  | [] => []
  | s :: ss => s.toJson :: stmtsToJson ss

/-- The forms of a list of cases. -/
def casesToJson : List Case → List Json
  | [] => []
  | .mk values body :: cs =>
    .obj [("values", .arr (Expr.toJsonAll values)), ("body", body.toJson)] :: casesToJson cs

end

end Source

/-! ## Entities and units -/

/-- What an entity is, tagged by `entity`. -/
def EntityKind.toJson : EntityKind → Json
  | definedVariable init =>
    .obj [("entity", .str "defined_variable"), ("initializer", Source.Expr.optionToJson init)]
  | undefinedVariable => .obj [("entity", .str "undefined_variable")]
  | parameter => .obj [("entity", .str "parameter")]
  | definedFunction params body =>
    .obj [
      ("entity", .str "defined_function"), ("params", .list EntityId.toJson params),
      ("body", body.toJson)]
  | undefinedFunction => .obj [("entity", .str "undefined_function")]
  | constant value => .obj [("entity", .str "constant"), ("value", value.toJson)]

/-- An entity, with what later passes have settled. -/
def Entity.toJson (e : Entity) : Json :=
  .obj [
    ("name", .str e.name),
    ("type", e.ref.toJson),
    ("private", .bool e.isPrivate),
    ("location", Location.optionToJson e.location),
    ("kind", e.kind.toJson),
    ("ty", e.type.toJson TypeId.toJson),
    ("storage", e.storage.toJson Storage.toJson)]

/-- The entities in order. -/
def EntityTable.toJson (t : EntityTable) : Json :=
  .list Entity.toJson t.entries

mutual

/-- A tree of scopes. -/
def Scope.toJson : Scope → Json
  | ⟨vars, children⟩ =>
    .obj [("variables", .list EntityId.toJson vars), ("children", .arr (Scope.toJsonAll children))]

/-- The forms of a list of scopes. -/
def Scope.toJsonAll : List Scope → List Json
  | [] => []
  | s :: ss => s.toJson :: Scope.toJsonAll ss

end

/-- A unit. -/
def Source.ProgramUnit.toJson (u : Source.ProgramUnit) : Json :=
  .obj [
    ("types", .list TypeDefinition.toJson u.types),
    ("program", .obj [
      ("entities", u.program.entities.toJson),
      ("declarations", .list EntityId.toJson u.program.declarations)])]

end Backend386
