import Backend386.Location
import Backend386.Types.Ref
import Backend386.I386.Register

/-!
# Faults

A fault is a broken promise between two parts of the back end, or a number that leaves its 64 bit
range. Faults are not problems of the program being compiled (those are diagnostics): the first
fault ends the work at once.

* `Fault` — one constructor for each cause;
* `Fault.message` — the wording of every fault, in one place.
-/

namespace Backend386

/-- Why the back end stopped. -/
inductive Fault where
  /-- a sum leaves the 64 bit range -/
  | addOverflow
  /-- a product leaves the 64 bit range -/
  | multiplyOverflow
  /-- a negation leaves the 64 bit range -/
  | negateOverflow
  /-- nothing can be aligned to 0 -/
  | zeroAlignment
  /-- a value was read before a later pass had settled it -/
  | readEarly (what : String)
  /-- a value was settled a second time -/
  | settledTwice (what : String)
  /-- a string literal was used before it had a label -/
  | unplacedString (quoted : String)
  /-- a string number beyond the table -/
  | unknownString (size index : Nat)
  /-- a second type under one reference -/
  | duplicateType (ref : TypeRef)
  /-- a struct, union or typedef that was never defined -/
  | undefinedType (ref : TypeRef)
  /-- a basic type that is missing from the table -/
  | unregisteredType (ref : TypeRef)
  /-- a type number beyond the table -/
  | unknownType (index : Nat)
  /-- typedefs that name each other in a circle -/
  | cyclicTypedef (name : String)
  /-- neither a pointer nor an array -/
  | noBaseType (name : String)
  /-- neither a struct nor a union -/
  | notComposite (name : String)
  /-- neither a function nor a pointer to one -/
  | notCallable (name : String)
  /-- the size of a function type was asked for -/
  | sizelessFunction
  /-- the size of a type that contains itself was asked for -/
  | endlessType
  /-- a profile in which no integer is as wide as a pointer -/
  | noPointerInteger (profile : String)
  /-- an entity number beyond the table -/
  | unknownEntity (index : Nat)
  /-- unary plus is no operation of the intermediate code -/
  | unaryPlus
  /-- no width has so many bytes -/
  | unsupportedSize (bytes : Nat)
  /-- the register has no view of that width -/
  | noView (width : Width) (cls : RegisterClass)
  /-- a parameter among the declarations of a unit -/
  | topLevelParameter (name : String)
  /-- a function without a body where one is needed -/
  | notDefinedFunction (name : String)
  /-- a struct or union result -/
  | compositeResult (function : String)
  /-- a struct or union argument -/
  | compositeArgument (function : String)
  /-- an expression without a value stands where a value is needed -/
  | voidValue (place : Option Location)
  /-- an expression that designates no object -/
  | noAddress (place : Option Location)
  /-- a member that the struct or union does not have -/
  | noMember (type member : String)
  /-- a compound assignment to something that is no object -/
  | noAssignmentTarget (place : Option Location)
  /-- an increment of something that is no object -/
  | noIncrementTarget (place : Option Location)
  /-- a constant whose value refers to itself -/
  | endlessConstant (name : String)
  /-- the target has 4 byte pointers and the profile has not -/
  | pointerMismatch (profile : String) (bytes : Nat)
  /-- a named constant that is no assembler constant -/
  | valuelessConstant (name : String)
  /-- a static initializer that does not fit its variable -/
  | unstorable (initializer : String) (bytes : Nat)
  /-- the labels of a function are not paired -/
  | brokenLabels (function problem : String)
  /-- the address of something that is not in memory -/
  | unaddressable (name storage : String)
  /-- an operator that is not unary stands at a unary node -/
  | notUnary (op : String)
  /-- an operator that is not binary stands at a binary node -/
  | notBinary (op : String)
deriving DecidableEq

/-- The wording of a fault. -/
def Fault.message : Fault → String
  | addOverflow => "attempt to add with overflow"
  | multiplyOverflow => "attempt to multiply with overflow"
  | negateOverflow => "attempt to negate with overflow"
  | zeroAlignment => "Alignment must be non-zero"
  | readEarly what => what ++ " read before it was resolved"
  | settledTwice what => what ++ " resolved twice"
  | unplacedString quoted => "String constant " ++ quoted ++ " has no label"
  | unknownString size index =>
    "index out of bounds: the len is " ++ size.repr ++ " but the index is " ++ index.repr
  | duplicateType ref => "Duplicated type definition: " ++ ref.render
  | undefinedType ref => "Undefined type: " ++ ref.render
  | unregisteredType ref => "Unregistered type: " ++ ref.render
  | unknownType index => "T" ++ index.repr ++ " is not in the type table"
  | cyclicTypedef name => "Cyclic typedef: " ++ name
  | noBaseType name => name ++ " has no base type"
  | notComposite name => name ++ " is not a struct or union"
  | notCallable name => name ++ " is not callable"
  | sizelessFunction => "Function type has no size"
  | endlessType => "Type contains itself"
  | noPointerInteger profile => "No integer type has the size of a pointer in " ++ profile
  | unknownEntity index => "E" ++ index.repr ++ " is not in the entity table"
  | unaryPlus => "Unary plus should not be in MIR"
  | unsupportedSize bytes => "unsupported register size: " ++ bytes.repr ++ " bytes"
  | noView width cls => "No " ++ width.render ++ " view of " ++ cls.tag ++ " on this target"
  | topLevelParameter name => "Parameter " ++ name ++ " declared at the top level"
  | notDefinedFunction name => name ++ " is not a defined function"
  | compositeResult function =>
    function ++ ": returning a struct or union by value is not supported"
  | compositeArgument function =>
    function ++ ": passing a struct or union by value is not supported"
  | voidValue place => "Void expression used as a value at " ++ Location.inspect place
  | noAddress place => "Expression at " ++ Location.inspect place ++ " has no address"
  | noMember type member => type ++ " has no member " ++ member
  | noAssignmentTarget place => "Assignment at " ++ Location.inspect place ++ " has no target"
  | noIncrementTarget place => "Increment at " ++ Location.inspect place ++ " has no target"
  | endlessConstant name => "Constant " ++ name ++ " refers to itself"
  | pointerMismatch profile bytes =>
    "The x86 target needs 4 byte pointers but profile " ++ profile ++ " has " ++ bytes.repr ++
      " byte pointers"
  | valuelessConstant name => "Constant " ++ name ++ " has no assembler value"
  | unstorable initializer bytes =>
    "Cannot store " ++ initializer ++ " in " ++ bytes.repr ++ " bytes of static data"
  | brokenLabels function problem => function ++ ": " ++ problem
  | unaddressable name storage => name ++ " at " ++ storage ++ " has no address"
  | notUnary op => op ++ " is not a unary operator"
  | notBinary op => op ++ " is not a binary operator"

/-- A computation of two steps succeeds iff both steps do. -/
theorem bind_eq_ok_iff {α β : Type} {x : Except Fault α} {f : α → Except Fault β} {b : β} :
    x >>= f = .ok b ↔ ∃ a, x = .ok a ∧ f a = .ok b := by
  cases x with
  | error => simp [bind, Except.bind]
  | ok a => simp [bind, Except.bind]

end Backend386
