import Backend386.I386.Listing
import Backend386.Text.Json

/-!
# Dumps of listings

The JSON form of operands, storages and the items of a listing.
-/

namespace Backend386

open Json (variant)

/-- A register as its class and its size. -/
def Register.toJson (r : Register) : Json :=
  .obj [("class", .str r.cls.tag), ("size", .str r.size.tag)]

/-- A number or a symbol. -/
def Immediate.toJson : Immediate → Json
  | int v => variant "Int" (.int v.toInt)
  | symbol s => variant "Symbol" (.str s)

/-- A memory reference with all its parts. -/
def MemRef.toJson (m : MemRef) : Json :=
  .obj [
    ("base", .option Register.toJson m.base),
    ("index", .option (fun (r, scale) => .arr [r.toJson, .nat scale.toNat]) m.index),
    ("offset", .int m.offset.toInt),
    ("symbol", .option .str m.symbol)]

/-- An operand, named by its kind. -/
def Operand.toJson : Operand → Json
  | imm i => variant "Immediate" i.toJson
  | reg r => variant "Register" r.toJson
  | mem m => variant "Memory" m.toJson
  | target s => variant "Symbol" (.str s)

/-- A storage, named by its kind. -/
def Storage.toJson : Storage → Json
  | register r => variant "Register" r.toJson
  | memory m => variant "Memory" m.toJson
  | immediate i => variant "Immediate" i.toJson

/-- A directive, named by its kind. -/
def Directive.toJson : Directive → Json
  | file s => variant "File" (.str s)
  | text => .str "Text"
  | data => .str "Data"
  | inSection s => variant "Section" (.str s)
  | globalSymbol s => variant "Globl" (.str s)
  | localSymbol s => variant "Local" (.str s)
  | type s kind => variant "Type" (.arr [.str s, .str kind.tag])
  | size s n => variant "Size" (.arr [.str s, .str n])
  | .align n => variant "Align" (.nat n)
  | comm s n a => variant "Comm" (.arr [.str s, .nat n, .nat a])
  | byte v => variant "Byte" (.int v.toInt)
  | value v => variant "Value" (.int v.toInt)
  | long v => variant "Long" v.toJson
  | quad v => variant "Quad" v.toJson
  | string s => variant "String" (.str s)

/-- An instruction, named by its operation. -/
def Instruction.toJson : Instruction → Json
  | jmp a => variant "Jmp" a.toJson
  | jcc c a => variant "J" (.arr [.str c.tag, a.toJson])
  | call a => variant "Call" a.toJson
  | ret => .str "Ret"
  | cltd => .str "Cltd"
  | push a => variant "Push" a.toJson
  | pop a => variant "Pop" a.toJson
  | lea a b => variant "Lea" (.arr [a.toJson, b.toJson])
  | extend true w a b => variant "Movs" (.arr [.str w.tag, a.toJson, b.toJson])
  | extend false w a b => variant "Movz" (.arr [.str w.tag, a.toJson, b.toJson])
  | unary op a => variant op.tag a.toJson
  | binary op a b => variant op.tag (.arr [a.toJson, b.toJson])
  | set c a => variant "Set" (.arr [.str c.tag, a.toJson])

/-- An item, named by its kind. -/
def Item.toJson : Item → Json
  | comment s => variant "Comment" (.str s)
  | label s => variant "Label" (.str s)
  | directive d => variant "Directive" d.toJson
  | inst i => i.toJson

/-- A listing as the list of its items. -/
def Listing.toJson (code : Listing) : Json :=
  .obj [("items", .list Item.toJson code)]

end Backend386
