import Backend386.I386.Code
import Backend386.I386.Placement
import Backend386.I386.Frame
import Backend386.Ir.Function

/-!
# Assembly for functions and modules

Every return of a function goes to one epilogue at its end. Jumps to the label that follows them
are dropped, so that a return at the end of a body falls through.

* `dropJumps` — drops the jumps that fall through anyway;
* `Placement.functionCode` — a function with its prologue and epilogue;
* `Ir.Module.assemble` — the listing of a module.
-/

namespace Backend386

/-- Settings that do not change the meaning of the code. -/
structure AssemblyOptions where
  /-- named in the first directive -/
  fileName : Option String := none
  /-- puts the place and the text of each statement in front of its code -/
  verbose : Bool := false
deriving DecidableEq, Inhabited, Repr

/-- Where control goes after the item in front of a list: to a label, if it is next. -/
def nextLabel? (epilogue : String) : Listing → Option String
  | [] => some epilogue
  | .label l :: _ => some l
  | _ :: _ => none

/-- The label that an item always jumps to. -/
def Item.jumpTarget? : Item → Option String
  | .inst (.jmp (.target l)) => some l
  | _ => none

/-- Drops the jumps to the label that immediately follows them; the epilogue follows the list. -/
def dropJumps (epilogue : String) : Listing → Listing
  | [] => []
  | i :: rest =>
    if i.jumpTarget?.isSome ∧ i.jumpTarget? = nextLabel? epilogue rest then dropJumps epilogue rest
    else i :: dropJumps epilogue rest

/-- The comment in front of a statement that is no label. -/
def Ir.Stmt.comment (options : AssemblyOptions) (s : Ir.Stmt) : Listing :=
  match s.location with
  | some l =>
    if options.verbose ∧ s.placed? = none then [.comment (l.render ++ ": " ++ s.render)] else []
  | none => []

namespace Placement

/-- The code of a statement; a return goes to the epilogue. -/
def actionCode (p : Placement) (epilogue : Ir.Label) : Ir.Action → Except Fault Listing
  | .eval e => p.valueCode e
  | .assign target value => p.storeCode target value
  | .jump l => .ok [.jmp l.render]
  | .branch test yes no => p.branchCode test yes no
  | .label l => .ok [.label l.render]
  | .ret none => .ok [.jmp epilogue.render]
  | .ret (some e) => do return (← p.valueCode e) ++ [.jmp epilogue.render]

/-- The code of a statement with its comment. -/
def stmtCode (p : Placement) (options : AssemblyOptions) (epilogue : Ir.Label) (s : Ir.Stmt) :
    Except Fault Listing := do
  return s.comment options ++ (← p.actionCode epilogue s.action)

/-- The code of a list of statements. -/
def bodyCode (p : Placement) (options : AssemblyOptions) (epilogue : Ir.Label) :
    List Ir.Stmt → Except Fault Listing
  | [] => .ok []
  | s :: ss => do
    return (← p.stmtCode options epilogue s) ++ (← p.bodyCode options epilogue ss)

end Placement

/-- Saves the frame base, sets it up and reserves the frame. -/
def prologue (frame : Nat) : Listing :=
  [.inst (.push (.reg .ebp)), .mov (.reg .esp) (.reg .ebp)] ++
    (if 0 < frame then [.inst (.binary .sub (.int (Int64.ofNat frame)) (.reg .esp))] else [])

/-- Releases the frame and returns. -/
def epilogueCode (label : Ir.Label) : Listing :=
  [.label label.render, .mov (.reg .ebp) (.reg .esp), .inst (.pop (.reg .ebp)), .inst .ret]

namespace Placement

/-- The code of a function, and the placement once its frame is assigned. The labels of the function
are checked before anything else. -/
def functionCode (p : Placement) (types : TypeTable) (options : AssemblyOptions)
    (epilogue : Ir.Label) (f : Ir.Function) : Except Fault (Placement × Listing) := do
  let entity ← p.entities.get f.entity
  let name := entity.symbol
  -- nothing is placed for a function with labels that do not match
  if let some problem := f.labelProblem? then
    throw (.brokenLabels name problem.message)
  let frame ← Frame.compute f p.entities types
  -- the entities that are placed here stay in the table for the functions behind it
  let p := { p with entities := ← frame.assign p.entities }
  let body ← p.bodyCode options epilogue f.body.toList
  return (p, [.directive .text] ++
    (if entity.isPrivate then [] else [.directive (.globalSymbol name)]) ++
    [.directive (.type name .function), .label name] ++
    prologue frame.size ++ dropJumps epilogue.render body ++ epilogueCode epilogue ++
    [.directive (.size name (".-" ++ name))])

/-- The code of a list of functions, each with an epilogue label of its own. -/
def functionsCode (p : Placement) (types : TypeTable) (options : AssemblyOptions) :
    Ir.LabelSupply → List Ir.Function → Except Fault Listing
  | _, [] => .ok []
  | labels, f :: fs => do
    let (labels, epilogue) := labels.take
    let (p, code) ← p.functionCode types options epilogue f
    return code ++ (← p.functionsCode types options labels fs)

end Placement

/-- The directive that names the source file. -/
def fileCode (options : AssemblyOptions) : Listing :=
  match options.fileName with
  | some name => [.directive (.file name)]
  | none => []

/-- The listing of a module. Pointers must be one stack word. -/
def Ir.Module.assemble (m : Ir.Module) (types : TypeTable) (options : AssemblyOptions) :
    Except Fault Listing := do
  let profile := types.profile
  if profile.pointerSize ≠ stackWord then
    throw (.pointerMismatch profile.name profile.pointerSize)
  let p ← m.place
  let vars ← p.variableData types m.vars
  let strings ← p.stringData
  let functions ← p.functionsCode types options m.labels m.functions
  return fileCode options ++ vars ++ strings ++ functions

end Backend386
