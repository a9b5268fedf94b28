import Backend386.Source.Relevant
import Backend386.Source.Unit
import Backend386.Text.Json.Reader
import Backend386.Text.Json.Record

/-!
# Reading program units

A unit is read from JSON text of which the relevant part nests at most 127 arrays and objects.
Expressions, statements and type references are read by recursion on a bound that the depth of the
value provides.

* `readTypeRef?`, `readLocation?`, `readDefinition?`, `readEntity?` — the parts of a unit;
* `Source.ProgramUnit.read?` — a unit from the relevant part of its JSON value;
* `Source.ProgramUnit.ofJson?`, `Source.ProgramUnit.parse?` — a unit from its JSON value, and from
  its text.
-/

namespace Backend386

open Json

/-- A place in the program text. -/
def readLocation? (j : Json) : Option Location := do
  match ← j.record? ["line", "column"] with
  | [line, column] =>
    return { line := ← required? uint32? line, column := ← withDefault? 0 uint32? column }
  | _ => none

/-- The number of an entity. -/
def readEntityId? (j : Json) : Option EntityId :=
  (j.natBelow? UInt32.size).map EntityId.mk

/-! ## Types -/

/-- The spellings of the ranks. -/
def readRank? (setting : Setting) : Json → Option IntegerRank :=
  plainVariant? setting [.char, .short, .int, .long] IntegerRank.render

/-- A type reference that is nested less than `steps` deep. -/
def readTypeRefWithin? (setting : Setting) : Nat → Json → Option TypeRef
  | 0, _ => none
  | steps + 1, j => do
    match ← j.variant? with
    | ("void", c) => if isNoContent setting c then return .void else none
    | ("integer", some c) =>
      match ← c.record? ["rank", "signed"] with
      | [rank, signed] =>
        return .integer (← required? (readRank? setting) rank)
          (← required? bool? signed)
      | _ => none
    | ("struct", some c) => return .struct (← c.str?)
    | ("union", some c) => return .union (← c.str?)
    | ("user", some c) => return .typedef (← c.str?)
    | ("pointer", some c) => return .pointer (← readTypeRefWithin? setting steps c)
    | ("array", some (.arr [base, length])) =>
      return .array (← readTypeRefWithin? setting steps base) (← optional? uint64? (some length))
    | ("function", some c) =>
      match ← c.record? ["ret", "params", "vararg"] with
      | [ret, params, vararg] =>
        return .function (← required? (readTypeRefWithin? setting steps) ret)
          (← required? (list? (readTypeRefWithin? setting steps)) params)
          (← withDefault? false bool? vararg)
      | _ => none
    | _ => none

/-- A type reference. -/
def readTypeRef? (setting : Setting) (j : Json) : Option TypeRef :=
  readTypeRefWithin? setting (j.depth + 1) j

/-- A declared member. -/
def readMember? (j : Json) : Option MemberDecl := do
  match ← j.record? ["name", "ty", "location"] with
  | [name, type, location] =>
    return {
      name := ← required? str? name
      type := ← required? (readTypeRef? .tagged) type
      location := ← optional? readLocation? location }
  | _ => none

/-- The fields of a struct or union. -/
def readComposite? (kind : CompositeKind) (j : Json) : Option TypeDefinition := do
  match ← j.record? ["name", "members", "location"] with
  | [name, members, location] =>
    return .composite kind (← required? str? name) (← required? (list? readMember?) members)
      (← optional? readLocation? location)
  | _ => none

/-- A type definition, tagged by its kind. -/
def readDefinition? (j : Json) : Option TypeDefinition := do
  match ← j.tagged? "kind" with
  | ("struct", c) => readComposite? .struct c
  | ("union", c) => readComposite? .union c
  | ("typedef", c) =>
    match ← c.record? ["name", "real", "location"] with
    | [name, real, location] =>
      return .typedef (← required? str? name) (← required? (readTypeRef? .tagged) real)
        (← optional? readLocation? location)
    | _ => none
  | _ => none

namespace Source

/-! ## Expressions -/

/-- A binary operator. -/
def readBinaryOp? (setting : Setting) : Json → Option BinaryOp :=
  plainVariant? setting BinaryOp.all BinaryOp.tag

/-- A unary operator. -/
def readUnaryOp? (setting : Setting) : Json → Option UnaryOp :=
  plainVariant? setting UnaryOp.all UnaryOp.tag

/-- A logical operator. -/
def readLogicalOp? (setting : Setting) : Json → Option LogicalOp :=
  plainVariant? setting LogicalOp.all LogicalOp.tag

/-- An increment or a decrement. -/
def readStepOp? (setting : Setting) : Json → Option StepOp :=
  plainVariant? setting StepOp.all StepOp.tag

/-- The tags of expressions; each may be given by its number in this list. -/
def exprNodes : List String :=
  ["int", "str", "var", "sizeof_type", "sizeof_expr", "unary", "binary", "logical", "assign",
    "op_assign", "prefix", "suffix", "cond", "cast", "addr", "deref", "member", "ptr_member",
    "index", "call"]

/-- The node of an expression, whose operands `expr` reads. -/
def readNode? (expr : Json → Option Expr) (note : Note) (node : String) (j : Json) :
    Option Expr := do
  let need := required? expr
  match node with
  | "int" =>
    match ← j.record? ["value"] with
    | [value] => return .int note (← required? int64? value)
    | _ => none
  | "str" =>
    match ← j.record? ["value"] with
    | [value] => return .str note (← required? str? value)
    | _ => none
  | "var" =>
    match ← j.record? ["entity"] with
    | [entity] => return .var note (← required? readEntityId? entity)
    | _ => none
  | "sizeof_type" =>
    match ← j.record? ["of"] with
    | [type] => return .sizeofType note (← required? (readTypeRef? .tagged) type)
    | _ => none
  | "sizeof_expr" =>
    match ← j.record? ["expr"] with
    | [e] => return .sizeofExpr note (← need e)
    | _ => none
  | "unary" =>
    match ← j.record? ["op", "expr"] with
    | [op, e] => return .unary note (← required? (readUnaryOp? .tagged) op) (← need e)
    | _ => none
  | "binary" =>
    match ← j.record? ["op", "lhs", "rhs"] with
    | [op, l, r] =>
      return .binary note (← required? (readBinaryOp? .tagged) op) (← need l) (← need r)
    | _ => none
  | "logical" =>
    match ← j.record? ["op", "lhs", "rhs"] with
    | [op, l, r] =>
      return .logical note (← required? (readLogicalOp? .tagged) op) (← need l) (← need r)
    | _ => none
  | "assign" =>
    match ← j.record? ["lhs", "rhs"] with
    | [l, r] => return .assign note (← need l) (← need r)
    | _ => none
  | "op_assign" =>
    match ← j.record? ["op", "lhs", "rhs"] with
    | [op, l, r] =>
      return .opAssign note (← required? (readBinaryOp? .tagged) op) (← need l) (← need r)
    | _ => none
  | "prefix" =>
    match ← j.record? ["op", "expr"] with
    | [op, e] => return .preStep note (← required? (readStepOp? .tagged) op) (← need e)
    | _ => none
  | "suffix" =>
    match ← j.record? ["op", "expr"] with
    | [op, e] => return .postStep note (← required? (readStepOp? .tagged) op) (← need e)
    | _ => none
  | "cond" =>
    match ← j.record? ["cond", "then", "else"] with
    | [c, y, n] => return .cond note (← need c) (← need y) (← need n)
    | _ => none
  | "cast" =>
    match ← j.record? ["expr"] with
    | [e] => return .cast note (← need e)
    | _ => none
  | "addr" =>
    match ← j.record? ["expr"] with
    | [e] => return .addr note (← need e)
    | _ => none
  | "deref" =>
    match ← j.record? ["expr"] with
    | [e] => return .deref note (← need e)
    | _ => none
  | "member" =>
    match ← j.record? ["expr", "name"] with
    | [e, name] => return .member note (← need e) (← required? str? name)
    | _ => none
  | "ptr_member" =>
    match ← j.record? ["expr", "name"] with
    | [e, name] => return .ptrMember note (← need e) (← required? str? name)
    | _ => none
  | "index" =>
    match ← j.record? ["expr", "index"] with
    | [e, i] => return .index note (← need e) (← need i)
    | _ => none
  | "call" =>
    match ← j.record? ["callee", "args"] with
    | [f, args] => return .call note (← need f) (← required? (list? expr) args)
    | _ => none
  | _ => none

/-- An expression that is nested less than `steps` deep. -/
def readExprWithin? : Nat → Json → Option Expr
  | 0, _ => none
  | steps + 1, j => do
    match ← j.record? ["kind", "ty", "location"] with
    | [some kind, type, location] =>
      let note : Note := {
        type := ← required? (readTypeRef? .tagged) type
        location := ← optional? readLocation? location }
      let (node, fields) ← kind.innerTagged? "node" exprNodes
      readNode? (readExprWithin? steps) note node fields
    | _ => none

/-- An expression. -/
def readExpr? (j : Json) : Option Expr :=
  readExprWithin? (j.depth + 1) j

/-! ## Statements -/

/-- A block, whose statements `stmt` reads. -/
def readBlockWith? (stmt : Json → Option Stmt) (j : Json) : Option Block := do
  match ← j.record? ["variables", "stmts"] with
  | [vars, stmts] =>
    return .mk (← withDefault? [] (list? readEntityId?) vars)
      (← withDefault? [] (list? stmt) stmts)
  | _ => none

/-- One arm of a switch, whose statements `stmt` reads. -/
def readCaseWith? (stmt : Json → Option Stmt) (j : Json) : Option Case := do
  match ← j.record? ["values", "body"] with
  | [values, body] =>
    return .mk (← withDefault? [] (list? readExpr?) values)
      (← required? (readBlockWith? stmt) body)
  | _ => none

/-- The tags of statements; each may be given by its number in this list. -/
def stmtNodes : List String :=
  ["expr", "block", "if", "while", "do_while", "for", "switch", "break", "continue", "goto",
    "label", "return"]

/-- The node of a statement, whose inner statements `stmt` reads. -/
def readStmtNode? (stmt : Json → Option Stmt) (place : Option Location) (node : String)
    (j : Json) : Option Stmt := do
  match node with
  | "expr" =>
    match ← j.record? ["expr"] with
    | [e] => return .expr place (← required? readExpr? e)
    | _ => none
  | "block" =>
    match ← j.record? ["block"] with
    | [b] => return .block place (← required? (readBlockWith? stmt) b)
    | _ => none
  | "if" =>
    match ← j.record? ["cond", "then", "else"] with
    | [c, y, n] =>
      let test ← required? readExpr? c
      let yes ← required? stmt y
      -- a statement without an else is told from one with it by the field that is absent
      match ← optional? stmt n with
      | some no => return .ifElse place test yes no
      | none => return .ifThen place test yes
    | _ => none
  | "while" =>
    match ← j.record? ["cond", "body"] with
    | [c, b] => return .whileLoop place (← required? readExpr? c) (← required? stmt b)
    | _ => none
  | "do_while" =>
    match ← j.record? ["body", "cond"] with
    | [b, c] => return .doLoop place (← required? stmt b) (← required? readExpr? c)
    | _ => none
  | "for" =>
    match ← j.record? ["init", "cond", "incr", "body"] with
    | [i, c, s, b] =>
      return .forLoop place (← optional? readExpr? i) (← optional? readExpr? c)
        (← optional? readExpr? s) (← required? stmt b)
    | _ => none
  | "switch" =>
    match ← j.record? ["cond", "cases"] with
    | [c, cases] =>
      return .switch place (← required? readExpr? c)
        (← required? (list? (readCaseWith? stmt)) cases)
    | _ => none
  | "break" => if j.isEmptyRecord then return .breakOut place else none
  | "continue" => if j.isEmptyRecord then return .continueOn place else none
  | "goto" =>
    match ← j.record? ["target"] with
    | [target] => return .goto place (← required? str? target)
    | _ => none
  | "label" =>
    match ← j.record? ["name", "stmt"] with
    | [name, s] => return .label place (← required? str? name) (← required? stmt s)
    | _ => none
  | "return" =>
    match ← j.record? ["expr"] with
    | [e] => return .ret place (← optional? readExpr? e)
    | _ => none
  | _ => none

/-- A statement that is nested less than `steps` deep. -/
def readStmtWithin? : Nat → Json → Option Stmt
  | 0, _ => none
  | steps + 1, j => do
    match ← j.record? ["kind", "location"] with
    | [some kind, location] =>
      let place ← optional? readLocation? location
      let (node, fields) ← kind.innerTagged? "node" stmtNodes
      readStmtNode? (readStmtWithin? steps) place node fields
    | _ => none

/-- A block. -/
def readBlock? (j : Json) : Option Block :=
  readBlockWith? (readStmtWithin? (j.depth + 1)) j

/-! ## Entities and units -/

/-- What an entity is, tagged by `entity`. -/
def readEntityKind? (j : Json) : Option EntityKind := do
  let (kind, c) ← j.tagged? "entity"
  match kind with
  | "defined_variable" =>
    match ← c.record? ["initializer"] with
    | [init] => return .definedVariable (← optional? readExpr? init)
    | _ => none
  -- a kind without fields is a record, and it has to be empty
  | "undefined_variable" => if c.isEmptyRecord then return .undefinedVariable else none
  | "parameter" => if c.isEmptyRecord then return .parameter else none
  | "defined_function" =>
    match ← c.record? ["params", "body"] with
    | [params, body] =>
      return .definedFunction (← required? (list? readEntityId?) params)
        (← required? readBlock? body)
    | _ => none
  | "undefined_function" => if c.isEmptyRecord then return .undefinedFunction else none
  | "constant" =>
    match ← c.record? ["value"] with
    | [value] => return .constant (← required? readExpr? value)
    | _ => none
  | _ => none

/-- An entity; its type and storage are settled later. -/
def readEntity? (j : Json) : Option Entity := do
  match ← j.record? ["name", "type", "private", "location", "kind"] with
  | [name, type, isPrivate, location, kind] =>
    return {
      name := ← required? str? name
      ref := ← required? (readTypeRef? .direct) type
      isPrivate := ← withDefault? false bool? isPrivate
      location := ← optional? readLocation? location
      kind := ← required? readEntityKind? kind }
  | _ => none

/-- The entities of a unit and its declarations. -/
def readProgram? (j : Json) : Option Program := do
  match ← j.record? ["entities", "declarations"] with
  | [entities, declarations] =>
    return {
      entities := ⟨← required? (list? readEntity?) entities⟩
      declarations := ← required? (list? readEntityId?) declarations }
  | _ => none

/-- A unit from the relevant part of its JSON value. -/
def ProgramUnit.read? (j : Json) : Option ProgramUnit := do
  match ← j.record? ["types", "program"] with
  | [types, program] =>
    return {
      types := ← withDefault? [] (list? readDefinition?) types
      program := ← required? readProgram? program }
  | _ => none

/-- A unit from its JSON value, the relevant part of which has to be readable and may not be nested
too deep. -/
def ProgramUnit.ofJson? (j : Json) : Option ProgramUnit :=
  let relevant := relevantUnit j
  if relevant.isReadable ∧ relevant.depth ≤ maxUnitDepth then ProgramUnit.read? relevant else none

/-- A unit from its text. -/
def ProgramUnit.parse? (text : String) : Option ProgramUnit :=
  (Json.parse? text).bind ProgramUnit.ofJson?

end Source

end Backend386
