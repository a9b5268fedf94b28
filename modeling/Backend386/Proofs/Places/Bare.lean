import Backend386.Pipeline

/-!
# Leaving places out

Definitions, expressions, statements and entities carry the place they come from, and so do the
problems, the intermediate statements and some of the faults that they lead to. Everything is bare
when its places are left out.

* `Source.ProgramUnit.bare`, `LowerState.bare`, `Ir.Module.bare`, … — leave the places out;
* `Listing.withoutComments` — a listing without what the places are there for.
-/

namespace Backend386

/-! ## Types -/

def MemberDecl.bare (m : MemberDecl) : MemberDecl :=
  { m with location := none }

def TypeDefinition.bare : TypeDefinition → TypeDefinition
  | composite kind name members _ => composite kind name (members.map (·.bare)) none
  | typedef name real _ => typedef name real none

def Member.bare (m : Member) : Member :=
  { m with location := none }

def Composite.bare (c : Composite) : Composite :=
  { c with members := c.members.map (·.bare), location := none }

def Typedef.bare (d : Typedef) : Typedef :=
  { d with location := none }

def TypeInfo.bare : TypeInfo → TypeInfo
  | composite c => composite c.bare
  | typedef d => typedef d.bare
  | info => info

def TypeEntry.bare (e : TypeEntry) : TypeEntry :=
  { e with info := e.info.bare }

def TypeTable.bare (t : TypeTable) : TypeTable :=
  { t with entries := t.entries.map (·.bare) }

/-! ## Problems -/

def Diagnostic.bare (d : Diagnostic) : Diagnostic :=
  { d with location := none }

def Diagnostics.bare (ds : Diagnostics) : Diagnostics :=
  ds.map (·.bare)

def Fault.bare : Fault → Fault
  | voidValue _ => voidValue none
  | noAddress _ => noAddress none
  | noAssignmentTarget _ => noAssignmentTarget none
  | noIncrementTarget _ => noIncrementTarget none
  | fault => fault

/-! ## Programs -/

namespace Source

def Note.bare (n : Note) : Note :=
  { n with location := none }

mutual

def Expr.bare : Expr → Expr
  | .int n v => .int n.bare v
  | .str n v => .str n.bare v
  | .var n entity => .var n.bare entity
  | .sizeofType n type => .sizeofType n.bare type
  | .sizeofExpr n e => .sizeofExpr n.bare e.bare
  | .unary n op e => .unary n.bare op e.bare
  | .binary n op l r => .binary n.bare op l.bare r.bare
  | .logical n op l r => .logical n.bare op l.bare r.bare
  | .assign n l r => .assign n.bare l.bare r.bare
  | .opAssign n op l r => .opAssign n.bare op l.bare r.bare
  | .preStep n op e => .preStep n.bare op e.bare
  | .postStep n op e => .postStep n.bare op e.bare
  | .cond n test yes no => .cond n.bare test.bare yes.bare no.bare
  | .cast n e => .cast n.bare e.bare
  | .addr n e => .addr n.bare e.bare
  | .deref n e => .deref n.bare e.bare
  | .member n e name => .member n.bare e.bare name
  | .ptrMember n e name => .ptrMember n.bare e.bare name
  | .index n e i => .index n.bare e.bare i.bare
  | .call n callee args => .call n.bare callee.bare (Expr.bareAll args)

def Expr.bareAll : List Expr → List Expr
  | [] => []
  | e :: es => e.bare :: Expr.bareAll es

end

mutual

def Stmt.bare : Stmt → Stmt
  | .expr _ e => .expr none e.bare
  | .block _ body => .block none body.bare
  | .ifThen _ test yes => .ifThen none test.bare yes.bare
  | .ifElse _ test yes no => .ifElse none test.bare yes.bare no.bare
  | .whileLoop _ test body => .whileLoop none test.bare body.bare
  | .doLoop _ body test => .doLoop none body.bare test.bare
  | .forLoop _ init test step body =>
    .forLoop none (init.map (·.bare)) (test.map (·.bare)) (step.map (·.bare)) body.bare
  | .switch _ value cases => .switch none value.bare (bareCases cases)
  | .breakOut _ => .breakOut none
  | .continueOn _ => .continueOn none
  | .goto _ target => .goto none target
  | .label _ name body => .label none name body.bare
  | .ret _ value => .ret none (value.map (·.bare))

def Block.bare : Block → Block
  | .mk vars stmts => .mk vars (bareStmts stmts)

def bareStmts : List Stmt → List Stmt
  | [] => []
  | s :: ss => s.bare :: bareStmts ss

def bareCases : List Case → List Case
  | [] => []
  | .mk values body :: cs => .mk (Expr.bareAll values) body.bare :: bareCases cs

end

end Source

def EntityKind.bare : EntityKind → EntityKind
  | definedVariable init => definedVariable (init.map (·.bare))
  | definedFunction params body => definedFunction params body.bare
  | constant value => constant value.bare
  | kind => kind

def Entity.bare (e : Entity) : Entity :=
  { e with kind := e.kind.bare, location := none }

def EntityTable.bare (t : EntityTable) : EntityTable :=
  ⟨t.entries.map (·.bare)⟩

namespace Source

def Program.bare (p : Program) : Program :=
  { p with entities := p.entities.bare }

/-- The unit without the places that it gives. -/
def ProgramUnit.bare (unit : ProgramUnit) : ProgramUnit where
  types := unit.types.map (·.bare)
  program := unit.program.bare

end Source

/-! ## Intermediate code -/

namespace Ir

def Stmt.bare (s : Stmt) : Stmt :=
  { s with location := none }

def Function.bare (f : Function) : Function :=
  { f with body := f.body.map (·.bare) }

def Module.bare (m : Module) : Module :=
  { m with entities := m.entities.bare, functions := m.functions.map (·.bare) }

end Ir

def NamedLabel.bare (l : NamedLabel) : NamedLabel :=
  { l with location := none }

def LowerState.bare (s : LowerState) : LowerState :=
  { s with
    types := s.types.bare
    entities := s.entities.bare
    diagnostics := s.diagnostics.bare
    function := s.function.bare
    named := s.named.map (·.bare) }

def Lowered.bare (l : Lowered) : Lowered where
  module := l.module.bare
  types := l.types.bare
  diagnostics := l.diagnostics.bare

def Placement.bare (p : Placement) : Placement :=
  { p with entities := p.entities.bare }

/-! ## Results -/

/-- A line that only the reader of the listing sees. -/
def Item.isComment : Item → Bool
  | comment _ => true
  | _ => false

/-- The listing that the assembler sees. -/
def Listing.withoutComments (code : Listing) : Listing :=
  code.filter (!·.isComment)

def Output.bare : Output → Output
  | types summaries => types summaries
  | mir module => mir module.bare
  | asm code => asm code.withoutComments

def Compiled.bare (c : Compiled) : Compiled where
  diagnostics := c.diagnostics.bare
  result := c.result.map Output.bare

/-- The settings of a listing that has no comments. -/
def AssemblyOptions.quiet (options : AssemblyOptions) : AssemblyOptions :=
  { options with verbose := false }

/-- The options of a run whose listing has no comments. -/
def Options.quiet (options : Options) : Options :=
  { options with verbose := false }

end Backend386
