import Backend386.Diagnostics
import Backend386.Source.Entity

/-!
# Scopes

The variables that the blocks of a function body declare, as a tree: one node for each block, with
the blocks nested directly in it below. The outermost node also gets the temporaries of the
function.

* `Source.Block.scope` — the tree of a block;
* `Scope.variablesOfTree` — all variables, outer blocks before the blocks nested in them;
* `Scope.stackVariables`, `Scope.staticVariables` — those that live on the stack, and the others;
* `Scope.reportUnused` — warns about variables that nothing uses.
-/

namespace Backend386

/-- The variables of a block and the scopes of the blocks nested in it. -/
structure Scope where
  vars : List EntityId := []
  children : List Scope := []
deriving Inhabited

namespace Source

mutual

/-- The tree of a block. -/
def Block.scope : Block → Scope
  | .mk vars stmts => { vars, children := scopesOfStmts stmts }

/-- The trees of the blocks that stand directly in a statement. -/
def Stmt.scopes : Stmt → List Scope
  | .block _ body => [body.scope]
  | .ifThen _ _ yes => yes.scopes
  | .ifElse _ _ yes no => yes.scopes ++ no.scopes
  | .whileLoop _ _ body | .doLoop _ body _ | .forLoop _ _ _ _ body | .label _ _ body => body.scopes
  | .switch _ _ cases => scopesOfCases cases
  | .expr .. | .breakOut _ | .continueOn _ | .goto .. | .ret .. => []

/-- The trees of the blocks that stand directly in a list of statements. -/
def scopesOfStmts : List Stmt → List Scope
  | [] => []
  | s :: ss => s.scopes ++ scopesOfStmts ss

/-- The trees of the bodies of a list of cases. -/
def scopesOfCases : List Case → List Scope
  | [] => []
  | .mk _ body :: cs => body.scope :: scopesOfCases cs

end

end Source

namespace Scope

mutual

/-- All variables of a tree. -/
def variablesOfTree : Scope → List EntityId
  | ⟨vars, children⟩ => vars ++ variablesOfTrees children

/-- All variables of a list of trees. -/
def variablesOfTrees : List Scope → List EntityId
  | [] => []
  | s :: ss => variablesOfTree s ++ variablesOfTrees ss

end

/-- The variables of a list whose entities have a given privacy. -/
def selectPrivate (entities : EntityTable) (isPrivate : Bool) :
    List EntityId → Except Fault (List EntityId)
  | [] => .ok []
  | id :: ids => do
    let e ← entities.get id
    let rest ← selectPrivate entities isPrivate ids
    return if e.isPrivate = isPrivate then id :: rest else rest

/-- The variables of a tree that live on the stack. -/
def stackVariables (s : Scope) (entities : EntityTable) : Except Fault (List EntityId) :=
  selectPrivate entities false s.variablesOfTree

/-- The static variables of a tree. -/
def staticVariables (s : Scope) (entities : EntityTable) : Except Fault (List EntityId) :=
  selectPrivate entities true s.variablesOfTree

/-- Appends a temporary to the entities and to the outermost scope. -/
def addTemporary (s : Scope) (entities : EntityTable) (types : TypeTable) (type : TypeId) :
    Except Fault (Scope × EntityTable × EntityId) := do
  let (entities, id) ← entities.addTemporary types type
  return ({ s with vars := s.vars ++ [id] }, entities, id)

/-- Warns about each variable of a tree that nothing uses, temporaries apart. -/
def reportUnused (s : Scope) (entities : EntityTable) (ds : Diagnostics) :
    Except Fault Diagnostics :=
  s.variablesOfTree.foldlM (fun ds id => do
    let e ← entities.get id
    if e.isUsed || e.isTemporary then
      return ds
    return ds.warn e.location ("unused variable: " ++ e.name)) ds

end Scope

end Backend386
