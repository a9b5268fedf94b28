import Backend386.Lowering.Expr

/-!
# Lowering of statements

Structured statements become jumps between labels. The labels of a statement are handed out before
its parts are lowered, apart from the label of an else part, which follows the condition.

* `Exits` — where break and continue lead;
* `Lower.labelNamed`, `Lower.placeNamed`, `Lower.reportUnplaced` — the labels the program names;
* `Source.Block.lower`, `Source.Stmt.lower` — lower blocks and statements.
-/

namespace Backend386

/-- Where break and continue lead from here. A switch changes only the first. -/
structure Exits where
  breakTo : Option Ir.Label := none
  continueTo : Option Ir.Label := none
deriving DecidableEq, Inhabited

namespace Lower

/-! ## Labels of the program -/

/-- The entry of a label name, which is made when the name is new. -/
def labelNamed (name : String) (location : Option Location) : Lower NamedLabel := do
  match (← get).named.find? (·.name = name) with
  | some entry => return entry
  | none =>
    let entry := { name, label := ← newLabel, location }
    modify fun s => { s with named := s.named ++ [entry] }
    return entry

/-- Notes that a label name is placed. -/
def markPlaced (name : String) (location : Option Location) : Lower Unit :=
  let note (e : NamedLabel) : NamedLabel :=
    if e.name = name then { e with isPlaced := true, location } else e
  modify fun s => { s with named := s.named.map note }

/-- The label for a name that is placed here. A name that is placed already is reported, and gets a
label of its own. -/
def placeNamed (name : String) (location : Option Location) : Lower Ir.Label := do
  let entry ← labelNamed name location
  if entry.isPlaced then
    report location (.duplicatedLabel (← functionName) name)
    newLabel
  else
    markPlaced name location
    return entry.label

/-- Reports the label names that were used and never placed. -/
def reportUnplaced : Lower Unit := do
  ((← get).named.filter (!·.isPlaced)).forM fun e => report e.location (.undefinedLabel e.name)

/-! ## Initializers of variables -/

/-- Copies a string literal of so many bytes and its terminator into an array, as much of them as
fits, and fills the rest with zeros. -/
def storeInitialChars (location : Option Location) (type : TypeId) (dst : Ir.Expr)
    (init : Source.Expr) (length : Nat) : Lower Unit := do
  let size ← ask (·.sizeOf type)
  -- an array that is shorter than its literal, the zero at the end aside, is reported
  if size < length then
    report location (.initializerTooLong size)
  else
    let dst ← stable location dst
    let src ← init.lowerValue
    (List.range size).forM fun offset => do
      let target ← offsetAddress dst offset
      -- the zero behind the literal is copied with it; the rest is filled up
      if offset ≤ length then
        store location target (.mem .w8 (← offsetAddress src offset))
      else
        store location target (.int .w8 0)

/-- Stores the initial value of the object of a type at an address. -/
def storeInitial (location : Option Location) (type : TypeId) (address : Ir.Expr)
    (init : Source.Expr) : Lower Unit := do
  if let .str _ value := init then
    if ← ask (·.isArray type) then
      return ← storeInitialChars location type address init value.utf8ByteSize
  if ← ask (·.isAggregate type) then
    let _ ← copyAggregate location type address (← init.lowerValue)
  else
    store location address (← init.lowerValue)

/-- Stores the initial value of a variable that a block declares. Static variables are data, which
the assembler initializes. -/
def enterVariable (id : EntityId) : Lower Unit := do
  let e ← entity id
  unless e.isPrivate do
    if let some init := e.initializer? then
      let type ← e.typeId
      storeInitial (init.location.or e.location) type (.addr (← pointerWidth) id) init

/-! ## Switches -/

/-- The value that a switch compares, kept in a temporary when it is computed. -/
def switchValue (location : Option Location) (value : Source.Expr) : Lower Ir.Expr := do
  let type ← typeId value.type
  let v ← value.lowerValue
  match v with
  | .int .. | .var .. => return v
  | v =>
    let tmp ← storeTemporary location type v
    return .var v.width tmp

/-- Jumps to a case if the switch has one of its values. -/
def testCase (location : Option Location) (value : Ir.Expr) (target : Ir.Label)
    (caseValue : Source.Expr) : Lower Unit := do
  let v ← caseValue.lowerValue
  let next ← newLabel
  let w ← width (← ask (·.int))
  branch (caseValue.location.or location) (.bin w .eq value v) target next
  place next

/-- Tests the values of every case in turn. The result is the label of each case. -/
def testCases (location : Option Location) (value : Ir.Expr) :
    List Source.Case → Lower (List Ir.Label)
  | [] => return []
  | c :: cs => do
    let l ← newLabel
    c.values.forM (testCase location value l)
    return l :: (← testCases location value cs)

/-- Where a switch goes when no value fits: to the last of its default cases, or else to its end. -/
def defaultTarget (cases : List Source.Case) (labels : List Ir.Label) (fallback : Ir.Label) :
    Ir.Label :=
  ((cases.zip labels).reverse.find? (·.1.isDefault)).elim fallback (·.2)

/-- A jump that may have nowhere to lead. -/
def jumpOut (location : Option Location) (target : Option Ir.Label) (problem : LoweringProblem) :
    Lower Unit :=
  match target with
  | some l => jump location l
  | none => report location problem

end Lower

open Lower

namespace Source

mutual

/-- Lowers a block: the initial values of its variables, then its statements. -/
def Block.lower (exits : Exits) : Block → Lower Unit
  | .mk vars stmts => do
    vars.forM enterVariable
    lowerStmts exits stmts

/-- Lowers a statement. -/
def Stmt.lower (exits : Exits) : Stmt → Lower Unit
  | .expr _ e => e.lowerEffects
  | .block _ body => body.lower exits
  | .ifThen here test yes => do
    let yesLabel ← newLabel
    let endLabel ← newLabel
    -- the labels are taken before the test, which takes labels of its own
    let test ← test.lowerValue
    branch here test yesLabel endLabel
    place yesLabel
    yes.lower exits
    place endLabel
  | .ifElse here test yes no => do
    let yesLabel ← newLabel
    let endLabel ← newLabel
    let test ← test.lowerValue
    -- the second label is taken behind the test
    let noLabel ← newLabel
    branch here test yesLabel noLabel
    place yesLabel
    yes.lower exits
    jump none endLabel
    place noLabel
    no.lower exits
    place endLabel
  | .whileLoop here test body => do
    let start ← newLabel
    let bodyLabel ← newLabel
    let endLabel ← newLabel
    place start
    let test ← test.lowerValue
    branch here test bodyLabel endLabel
    place bodyLabel
    -- to continue is to test again
    body.lower { breakTo := some endLabel, continueTo := some start }
    jump none start
    place endLabel
  | .doLoop here body test => do
    let start ← newLabel
    let testLabel ← newLabel
    let endLabel ← newLabel
    place start
    -- to continue is to test, at the end
    body.lower { breakTo := some endLabel, continueTo := some testLabel }
    place testLabel
    let test ← test.lowerValue
    branch here test start endLabel
    place endLabel
  | .forLoop here init test step body => do
    let start ← newLabel
    let bodyLabel ← newLabel
    let stepLabel ← newLabel
    let endLabel ← newLabel
    init.forM Expr.lowerEffects
    place start
    -- without a test the loop goes on until it is left
    test.forM fun test => do branch here (← test.lowerValue) bodyLabel endLabel
    place bodyLabel
    body.lower { breakTo := some endLabel, continueTo := some stepLabel }
    place stepLabel
    step.forM Expr.lowerEffects
    jump none start
    place endLabel
  | .switch here value cases => do
    let value ← switchValue here value
    let endLabel ← newLabel
    let labels ← testCases here value cases
    jump here (defaultTarget cases labels endLabel)
    -- to continue is not changed by a switch, only to break
    lowerCases { exits with breakTo := some endLabel } cases labels
    place endLabel
  | .breakOut here => jumpOut here exits.breakTo .breakOutsideLoop
  | .continueOn here => jumpOut here exits.continueTo .continueOutsideLoop
  | .goto here target => do
    -- the label may be placed later, so that it is known by its name only
    let entry ← labelNamed target here
    jump here entry.label
  | .label here name body => do
    place (← placeNamed name here)
    body.lower exits
  | .ret here none => emit here (.ret none)
  | .ret here (some e) => do
    -- nothing is returned by address
    refuseComposite (← typeId e.type) .compositeResult
    emit here (.ret (some (← e.lowerValue)))

/-- Lowers a list of statements. -/
def lowerStmts (exits : Exits) : List Stmt → Lower Unit
  | [] => return ()
  | s :: ss => do
    s.lower exits
    lowerStmts exits ss

/-- Lowers the bodies of the cases of a switch, each behind its label, so that control falls through
from one to the next. -/
def lowerCases (exits : Exits) : List Case → List Ir.Label → Lower Unit
  | .mk _ body :: cs, l :: ls => do
    place l
    body.lower exits
    lowerCases exits cs ls
  | _, _ => return ()

end

end Source

end Backend386
