import Backend386.Source.Writer
import Backend386.Types.Cache

/-!
# Dumps of types

The JSON form of registered types and of their summaries.
-/

namespace Backend386

open Json (variant)

/-- A layout. -/
def Layout.toJson (l : Layout) : Json :=
  .obj [("size", .nat l.size), ("alignment", .nat l.alignment), ("offsets", .list .nat l.offsets)]

/-- A member of a registered struct or union. -/
def Member.toJson (m : Member) : Json :=
  .obj [
    ("name", .str m.name), ("type_ref", m.ref.toJson), ("ty", m.type.toJson TypeId.toJson),
    ("location", Location.optionToJson m.location)]

/-- A registered type, named by its kind. -/
def TypeInfo.toJson : TypeInfo → Json
  | void => .str "Void"
  | integer size signed name =>
    variant "Integer" (.obj [("size", .nat size), ("signed", .bool signed), ("name", .str name)])
  | pointer base => variant "Pointer" (.obj [("base", base.toJson)])
  | array base length =>
    variant "Array"
      (.obj [("base", base.toJson), ("length", .option (fun n => .nat n.toNat) length)])
  | composite c =>
    variant "Composite" (.obj [
      ("kind", .str c.kind.tag), ("name", .str c.name), ("members", .list Member.toJson c.members),
      ("location", Location.optionToJson c.location)])
  | function f =>
    variant "Function" (.obj [
      ("ret", f.ret.toJson), ("params", .list TypeId.toJson f.params), ("vararg", .bool f.vararg)])
  | typedef d =>
    variant "User" (.obj [
      ("name", .str d.name), ("real_ref", d.ref.toJson), ("real", d.real.toJson TypeId.toJson),
      ("location", Location.optionToJson d.location)])

/-- A summary; a type without a layout has neither size nor alignment. -/
def TypeSummary.toJson (s : TypeSummary) : Json :=
  .obj [
    ("id", s.id.toJson),
    ("name", .str s.name),
    ("size", .option (fun l => .nat l.size) s.layout),
    ("alignment", .option (fun l => .nat l.alignment) s.layout),
    ("offsets", .list .nat ((s.layout.map (·.offsets)).getD []))]

end Backend386
