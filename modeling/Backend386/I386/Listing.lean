import Backend386.I386.Instruction
import Backend386.Text.Escapes

/-!
# Assembly listings

A listing is a sequence of items: instructions, labels, directives and comments.

* `Directive`, `Item`, `Listing` — the parts of a listing;
* `Listing.render` — the text for the assembler;
* `Listing.instructionCount` — how many items are instructions.
-/

namespace Backend386

/-- What a symbol names. -/
inductive SymbolType where
  | function
  | object
deriving DecidableEq, Inhabited, Repr

namespace SymbolType

/-- The assembler's spelling. -/
def render : SymbolType → String
  | function => "@function"
  | object => "@object"

/-- The spelling in dumps. -/
def tag : SymbolType → String
  | function => "Function"
  | object => "Object"

end SymbolType

/-- A directive to the assembler. -/
inductive Directive where
  | file (name : String)
  | text
  | data
  | inSection (name : String)
  | globalSymbol (symbol : String)
  | localSymbol (symbol : String)
  | type (symbol : String) (kind : SymbolType)
  /-- the size is a number, or an expression for functions -/
  | size (symbol size : String)
  | align (n : Nat)
  /-- uninitialized data -/
  | comm (symbol : String) (size alignment : Nat)
  | byte (value : Int64)
  | value (value : Int64)
  | long (value : Immediate)
  | quad (value : Immediate)
  | string (value : String)
deriving DecidableEq

/-- The text of a directive. -/
def Directive.render : Directive → String
  | file name => ".file\t\"" ++ AssemblerString.escape name ++ "\""
  | text => ".text"
  | data => ".data"
  | inSection name => ".section\t" ++ name
  | globalSymbol s => ".globl\t" ++ s
  | localSymbol s => ".local\t" ++ s
  | type s kind => ".type\t" ++ s ++ "," ++ kind.render
  | size s n => ".size\t" ++ s ++ ", " ++ n
  | .align n => ".align\t" ++ n.repr
  | comm s n a => ".comm\t" ++ s ++ "," ++ n.repr ++ "," ++ a.repr
  | byte v => ".byte\t" ++ v.toInt.repr
  | value v => ".value\t" ++ v.toInt.repr
  | long v => ".long\t" ++ v.render
  | quad v => ".quad\t" ++ v.render
  | string s => ".string\t\"" ++ AssemblerString.escape s ++ "\""

/-- One line of a listing. -/
inductive Item where
  | comment (text : String)
  | label (name : String)
  | directive (d : Directive)
  | inst (i : Instruction)
deriving DecidableEq

namespace Item

/-- Whether the item is an instruction. -/
def isInstruction : Item → Bool
  | inst _ => true
  | _ => false

/-- The mnemonic of an instruction; other items have none. -/
def mnemonic : Item → String
  | inst i => i.mnemonic
  | _ => ""

/-- The operands of an instruction. -/
def operands : Item → List Operand
  | inst i => i.operands
  | _ => []

/-- The line of an item, without its end. -/
def render : Item → String
  | comment c => "\t# " ++ c
  | label l => l ++ ":"
  | directive d => "\t" ++ d.render
  | inst i => i.render

end Item

/-- A sequence of items. -/
abbrev Listing := List Item

namespace Listing

/-- How many items are instructions. -/
def instructionCount (code : Listing) : Nat :=
  code.countP Item.isInstruction

/-- The text for the assembler, one line for each item. -/
def render (code : Listing) : String :=
  String.join (code.map fun i => i.render ++ "\n")

end Listing

end Backend386
