import Backend386.Proofs.Source.Occurs
import Backend386.Proofs.Source.Visits

/-!
# Where a program names its entities

The statements and blocks of a body, each before those that stand in it, with the expressions that
stand directly in each. An entity is named in a program if a node of one of these expressions is a
variable node for it, whether the node is evaluated or not. What is counted as uses is exactly what
is named.

* `Source.Expr.Names` — an expression names an entity;
* `Source.Node`, `Source.Block.nodes` — the statements and blocks of a body, and
  `Source.Node.within_eq` — what stands in each;
* `EntityTable.written`, `EntityTable.blockVariables` — the expressions in the definition of an
  entity, and the variables of its blocks;
* `Source.Program.Names` — a program names an entity, and `Source.Program.markUses_get` — the uses
  that are counted are those.
-/

namespace Backend386

namespace Source

/-! ## Expressions -/

/-- The expressions that stand directly in an expression. What `sizeof` measures is among them. -/
def Expr.parts : Expr → List Expr
  | .sizeofExpr _ e => [e]
  | e => e.operands

/-- A variable node for an entity stands in an expression, at any depth. -/
inductive Expr.Names (id : EntityId) : Expr → Prop where
  | var (note : Note) : Names id (.var note id)
  | part {e part : Expr} (hpart : part ∈ e.parts) (h : Names id part) : Names id e

variable {t : EntityTable} {id : EntityId} {e part : Expr} {es es' : List Expr}

/-- A part is smaller than its expression. -/
theorem Expr.sizeOf_part (h : part ∈ e.parts) : sizeOf part < sizeOf e := by
  cases e with
  | sizeofExpr note e =>
    obtain rfl := List.mem_singleton.1 h
    decreasing_tactic
  | _ => exact sizeOf_operand h

theorem Expr.mem_usesAll : id ∈ usesAll es ↔ ∃ e ∈ es, id ∈ e.uses := by
  induction es with
  | nil => simp [usesAll]
  | cons e es ih => simp [usesAll, ih]

/-- One step down: the uses of an expression are those of its parts, unless it is a variable. -/
theorem Expr.mem_uses_iff :
    id ∈ e.uses ↔ (∃ note, e = .var note id) ∨ ∃ part ∈ e.parts, id ∈ part.uses := by
  cases e <;> simp [uses, parts, operands, mem_usesAll, eq_comm]

theorem Expr.names_of_mem_uses {e : Expr} (h : id ∈ e.uses) : e.Names id := by
  rcases mem_uses_iff.1 h with ⟨note, rfl⟩ | ⟨part, hpart, h⟩
  · exact .var note
  · exact .part hpart (names_of_mem_uses h)
termination_by sizeOf e
decreasing_by exact sizeOf_part hpart

/-- The uses of an expression are the entities that it names. -/
theorem Expr.mem_uses : id ∈ e.uses ↔ e.Names id := by
  refine ⟨names_of_mem_uses, fun h => ?_⟩
  induction h with
  | var note => exact List.mem_singleton_self id
  | part hpart _ ih => exact mem_uses_iff.2 (.inr ⟨_, hpart, ih⟩)

instance : Decidable (e.Names id) :=
  decidable_of_iff _ Expr.mem_uses

/-! ## Statements -/

/-- A statement or a block. -/
inductive Node where
  | stmt (s : Stmt)
  | block (b : Block)

/-- What stands directly in a statement. -/
def Stmt.children : Stmt → List Node
  | .block _ body => [.block body]
  | .ifThen _ _ body | .whileLoop _ _ body | .doLoop _ body _ | .forLoop _ _ _ _ body
  | .label _ _ body => [.stmt body]
  | .ifElse _ _ yes no => [.stmt yes, .stmt no]
  | .switch _ _ cases => cases.map fun c => .block c.body
  | .expr .. | .breakOut _ | .continueOn _ | .goto .. | .ret .. => []

/-- What stands directly in a statement or a block. -/
def Node.children : Node → List Node
  | stmt s => s.children
  | block b => b.stmts.map stmt

/-- The expressions that stand directly in a statement. -/
def Stmt.ownExprs : Stmt → List Expr
  | .expr _ e => [e]
  | .ifThen _ test _ | .ifElse _ test _ _ | .whileLoop _ test _ | .doLoop _ _ test => [test]
  | .forLoop _ init test step _ => init.toList ++ test.toList ++ step.toList
  | .switch _ value cases => value :: cases.flatMap Case.values
  | .ret _ value => value.toList
  | .block .. | .label .. | .breakOut _ | .continueOn _ | .goto .. => []

/-- The expressions that stand directly in a statement, and what the variables of a block are
initialized with. -/
def Node.exprs (t : EntityTable) : Node → List Expr
  | stmt s => s.ownExprs
  | block b => b.vars.filterMap t.initializer?

/-- The variables that a block declares. -/
def Node.vars : Node → List EntityId
  | stmt _ => []
  | block b => b.vars

mutual

/-- The nodes of a block: the block, and then what stands in its statements. -/
def Block.nodes : Block → List Node
  | .mk vars stmts => .block (.mk vars stmts) :: nodesOfStmts stmts

/-- The nodes that stand in a statement, at any depth. -/
def Stmt.inside : Stmt → List Node
  | .block _ body => body.nodes
  | .ifThen _ _ body | .whileLoop _ _ body | .doLoop _ body _ | .forLoop _ _ _ _ body
  | .label _ _ body => .stmt body :: body.inside
  | .ifElse _ _ yes no => .stmt yes :: yes.inside ++ .stmt no :: no.inside
  | .switch _ _ cases => nodesOfCases cases
  | .expr .. | .breakOut _ | .continueOn _ | .goto .. | .ret .. => []

/-- The nodes of a list of statements: each statement, and then what stands in it. -/
def nodesOfStmts : List Stmt → List Node
  | [] => []
  | s :: ss => .stmt s :: s.inside ++ nodesOfStmts ss

/-- The nodes of the bodies of a list of cases. -/
def nodesOfCases : List Case → List Node
  | [] => []
  | .mk _ body :: cs => body.nodes ++ nodesOfCases cs

end

/-- A node, and then what stands in it. -/
def Node.within : Node → List Node
  | stmt s => .stmt s :: s.inside
  | block b => b.nodes

theorem nodesOfStmts_eq (ss : List Stmt) :
    nodesOfStmts ss = (ss.map Node.stmt).flatMap Node.within := by
  induction ss with
  | nil => rfl
  | cons s ss ih => rw [nodesOfStmts, ih, List.map_cons, List.flatMap_cons, Node.within]

/-- The nodes of the cases are those of their blocks. -/
theorem nodesOfCases_eq (cs : List Case) :
    nodesOfCases cs = (cs.map fun c => Node.block c.body).flatMap Node.within := by
  induction cs with
  | nil => rfl
  | cons c cs ih =>
    cases c
    rw [nodesOfCases, ih, List.map_cons, List.flatMap_cons, Node.within, Case.body]

/-- A node stands before what stands directly in it, one after another, each with what stands in it
in turn. -/
theorem Node.within_eq (n : Node) : n.within = n :: n.children.flatMap within := by
  cases n with
  | block b =>
    cases b
    rw [within, Block.nodes, nodesOfStmts_eq, children, Block.stmts]
  | stmt s =>
    cases s <;>
      simp [within, Stmt.inside, children, Stmt.children, nodesOfCases_eq]

/-! ## Variables -/

mutual

/-- The tree of the variables of a block lists them in the order of its nodes. -/
theorem Block.variablesOfTree_scope (b : Block) :
    b.scope.variablesOfTree = b.nodes.flatMap Node.vars := by
  cases b with
  | mk vars stmts =>
    rw [Block.scope, Scope.variablesOfTree, variablesOfTrees_stmts stmts, Block.nodes,
      List.flatMap_cons]
    rfl

/-- The variables of the scopes are those of the nodes. -/
theorem Stmt.variablesOfTrees_scopes (s : Stmt) :
    Scope.variablesOfTrees s.scopes = s.inside.flatMap Node.vars := by
  cases s with
  | expr | breakOut | continueOn | goto | ret => rfl
  | block here body =>
    rw [Stmt.scopes, Stmt.inside, Scope.variablesOfTrees, Scope.variablesOfTrees, List.append_nil,
      body.variablesOfTree_scope]
  | ifThen here test body | whileLoop here test body | doLoop here body test
  | forLoop here init test step body | label here name body =>
    rw [Stmt.scopes, Stmt.inside, body.variablesOfTrees_scopes, List.flatMap_cons]
    rfl
  | ifElse here test yes no =>
    rw [Stmt.scopes, Stmt.inside, Scope.variablesOfTrees_append, yes.variablesOfTrees_scopes,
      no.variablesOfTrees_scopes, List.flatMap_append, List.flatMap_cons, List.flatMap_cons]
    rfl
  | switch here value cases => rw [Stmt.scopes, Stmt.inside, variablesOfTrees_cases cases]

/-- The same for a list of statements. -/
theorem variablesOfTrees_stmts (ss : List Stmt) :
    Scope.variablesOfTrees (scopesOfStmts ss) = (nodesOfStmts ss).flatMap Node.vars := by
  cases ss with
  | nil => rfl
  | cons s ss =>
    rw [scopesOfStmts, nodesOfStmts, Scope.variablesOfTrees_append, s.variablesOfTrees_scopes,
      variablesOfTrees_stmts ss, List.flatMap_append, List.flatMap_cons]
    rfl

/-- The same for the cases of a switch. -/
theorem variablesOfTrees_cases (cs : List Case) :
    Scope.variablesOfTrees (scopesOfCases cs) = (nodesOfCases cs).flatMap Node.vars := by
  cases cs with
  | nil => rfl
  | cons c cs =>
    cases c with
    | mk values body =>
      rw [scopesOfCases, nodesOfCases, Scope.variablesOfTrees, body.variablesOfTree_scope,
        variablesOfTrees_cases cs, List.flatMap_append]

end

/-! ## Uses -/

/-- Some variables are in a table, and the uses are what some expressions name. -/
structure UsesOf (t : EntityTable) (vars : List EntityId) (es : List Expr) (ids : List EntityId) :
    Prop where
  vars : ∀ v ∈ vars, v.index < t.size
  names : ∀ id, id ∈ ids ↔ ∃ e ∈ es, e.Names id

namespace UsesOf

variable {vars vars' ids ids' : List EntityId}

theorem nil : UsesOf t [] [] [] :=
  ⟨List.forall_mem_nil _, by simp⟩

/-- Uses are counted one after another. -/
theorem append (h : UsesOf t vars es ids) (h' : UsesOf t vars' es' ids') :
    UsesOf t (vars ++ vars') (es ++ es') (ids ++ ids') where
  vars := List.forall_mem_append.2 ⟨h.vars, h'.vars⟩
  names := fun id => by
    rw [List.mem_append, h.names, h'.names]
    simp only [List.mem_append, or_and_right, exists_or]

theorem congr (h : UsesOf t vars es ids) (hes : ∀ e, e ∈ es' ↔ e ∈ es) : UsesOf t vars es' ids where
  vars := h.vars
  names := fun id => by simp only [h.names, hes]

theorem expr (e : Expr) : UsesOf t [] [e] e.uses :=
  ⟨List.forall_mem_nil _, fun id => by simp [Expr.mem_uses]⟩

theorem all (es : List Expr) : UsesOf t [] es (Expr.usesAll es) :=
  ⟨List.forall_mem_nil _, fun id => by simp only [Expr.mem_usesAll, Expr.mem_uses]⟩

theorem option (e : Option Expr) : UsesOf t [] e.toList (usesOption e) := by
  cases e with
  | none => exact nil
  | some e => exact expr e

/-- Variables use what their initializers use. -/
theorem declared {vars ids : List EntityId} (h : usesOfVariables t vars = .ok ids) :
    UsesOf t vars (vars.filterMap t.initializer?) ids := by
  induction vars generalizing ids with
  | nil =>
    obtain rfl := Except.ok.inj h
    exact nil
  | cons v vars ih =>
    obtain ⟨e, he, h⟩ := bind_eq_ok_iff.1 h
    obtain ⟨rest, hrest, h⟩ := bind_eq_ok_iff.1 h
    obtain rfl := Except.ok.inj h
    have hfirst : UsesOf t [v] e.initializer?.toList (usesOption e.initializer?) :=
      ⟨by simpa using EntityTable.lt_of_get he, (option (t := t) _).names⟩
    have hcons : (v :: vars).filterMap t.initializer? =
        e.initializer?.toList ++ vars.filterMap t.initializer? := by
      rw [List.filterMap_cons, EntityTable.initializer?_eq he]
      cases e.initializer? <;> rfl
    rw [hcons]
    exact hfirst.append (ih hrest)

end UsesOf

/-- The uses of some nodes. -/
abbrev UsesOfNodes (t : EntityTable) (ns : List Node) (ids : List EntityId) : Prop :=
  UsesOf t (ns.flatMap Node.vars) (ns.flatMap (Node.exprs t)) ids

theorem UsesOfNodes.append {ns ns' : List Node} {ids ids' : List EntityId}
    (h : UsesOfNodes t ns ids) (h' : UsesOfNodes t ns' ids') :
    UsesOfNodes t (ns ++ ns') (ids ++ ids') := by
  rw [UsesOfNodes, List.flatMap_append, List.flatMap_append]
  exact UsesOf.append h h'

/-- A statement, with what stands in it. -/
theorem UsesOf.stmt {s : Stmt} {ids : List EntityId}
    (h : UsesOf t (s.inside.flatMap Node.vars)
      (s.ownExprs ++ s.inside.flatMap (Node.exprs t)) ids) :
    UsesOfNodes t (.stmt s :: s.inside) ids := h

mutual

/-- The uses of a block are those of its nodes. -/
theorem Block.uses_eq_ok {b : Block} {ids : List EntityId} (h : b.uses t = .ok ids) :
    UsesOfNodes t b.nodes ids := by
  cases b with
  | mk vars stmts =>
    obtain ⟨first, hfirst, h⟩ := bind_eq_ok_iff.1 h
    obtain ⟨rest, hrest, h⟩ := bind_eq_ok_iff.1 h
    obtain rfl := Except.ok.inj h
    exact (UsesOf.declared hfirst).append (uses_eq_ok_stmts hrest)

/-- The uses of a statement are those of its own expressions and of the nodes inside. -/
theorem Stmt.uses_eq_ok {s : Stmt} {ids : List EntityId} (h : s.uses t = .ok ids) :
    UsesOf t (s.inside.flatMap Node.vars) (s.ownExprs ++ s.inside.flatMap (Node.exprs t)) ids := by
  -- the uses of a statement are those of its own expressions, then those of the statements inside
  cases s with
  | breakOut | continueOn | goto =>
    obtain rfl := Except.ok.inj h
    exact .nil
  | expr here e =>
    obtain rfl := Except.ok.inj h
    exact .expr e
  | ret here value =>
    obtain rfl := Except.ok.inj h
    simpa [Stmt.inside, Stmt.ownExprs] using UsesOf.option (t := t) value
  | block here body => exact Block.uses_eq_ok (b := body) h
  | label here name body => exact (body.uses_eq_ok h).stmt
  | ifThen here test body | whileLoop here test body | doLoop here body test =>
    obtain ⟨rest, hrest, h⟩ := bind_eq_ok_iff.1 h
    obtain rfl := Except.ok.inj h
    exact (UsesOf.expr test).append (Stmt.uses_eq_ok hrest).stmt
  | forLoop here init test step body =>
    obtain ⟨rest, hrest, h⟩ := bind_eq_ok_iff.1 h
    obtain rfl := Except.ok.inj h
    exact (((UsesOf.option init).append (.option test)).append (.option step)).append
      (Stmt.uses_eq_ok hrest).stmt
  | ifElse here test yes no =>
    obtain ⟨first, hfirst, h⟩ := bind_eq_ok_iff.1 h
    obtain ⟨rest, hrest, h⟩ := bind_eq_ok_iff.1 h
    obtain rfl := Except.ok.inj h
    rw [List.append_assoc]
    exact (UsesOf.expr test).append
      (UsesOfNodes.append (Stmt.uses_eq_ok hfirst).stmt (Stmt.uses_eq_ok hrest).stmt)
  | switch here value cases =>
    obtain ⟨rest, hrest, h⟩ := bind_eq_ok_iff.1 h
    obtain rfl := Except.ok.inj h
    exact (UsesOf.expr value).append (uses_eq_ok_cases hrest)

/-- The same for a list of statements. -/
theorem uses_eq_ok_stmts {ss : List Stmt} {ids : List EntityId} (h : usesOfStmts t ss = .ok ids) :
    UsesOfNodes t (nodesOfStmts ss) ids := by
  cases ss with
  | nil =>
    obtain rfl := Except.ok.inj h
    exact .nil
  | cons s ss =>
    obtain ⟨first, hfirst, h⟩ := bind_eq_ok_iff.1 h
    obtain ⟨rest, hrest, h⟩ := bind_eq_ok_iff.1 h
    obtain rfl := Except.ok.inj h
    exact UsesOfNodes.append (Stmt.uses_eq_ok hfirst).stmt (uses_eq_ok_stmts hrest)

/-- The same for the cases of a switch, whose values count as well. -/
theorem uses_eq_ok_cases {cs : List Case} {ids : List EntityId} (h : usesOfCases t cs = .ok ids) :
    UsesOf t ((nodesOfCases cs).flatMap Node.vars)
      (cs.flatMap Case.values ++ (nodesOfCases cs).flatMap (Node.exprs t)) ids := by
  cases cs with
  | nil =>
    obtain rfl := Except.ok.inj h
    exact .nil
  | cons c cs =>
    cases c with
    | mk values body =>
      obtain ⟨first, hfirst, h⟩ := bind_eq_ok_iff.1 h
      obtain ⟨rest, hrest, h⟩ := bind_eq_ok_iff.1 h
      obtain rfl := Except.ok.inj h
      rw [nodesOfCases, List.flatMap_append, List.flatMap_append]
      -- the values of all cases are listed before their bodies
      refine (((UsesOf.all values).append (Block.uses_eq_ok hfirst)).append
        (uses_eq_ok_cases hrest)).congr fun e => ?_
      simp only [List.flatMap_cons, Case.values, List.mem_append]
      tauto

end

end Source

/-! ## Programs -/

/-- The expressions that stand in the definition of an entity, at any depth. -/
def Entity.written (t : EntityTable) (e : Entity) : List Source.Expr :=
  match e.kind with
  | .definedFunction _ body => body.nodes.flatMap (Source.Node.exprs t)
  | .definedVariable init => init.toList
  | .constant value => [value]
  | .undefinedVariable | .undefinedFunction | .parameter => []

/-- What is written in an entity depends on the initializers. -/
theorem Entity.written_congr {t t' : EntityTable} (h : t'.initializer? = t.initializer?) :
    Entity.written t' = Entity.written t := by
  have hexprs : Source.Node.exprs t' = Source.Node.exprs t := by
    funext n
    cases n with
    | stmt s => rfl
    | block b => rw [Source.Node.exprs, Source.Node.exprs, h]
  funext e
  rw [written, written, hexprs]

namespace EntityTable

variable {t t' : EntityTable} {id : EntityId} {e : Entity} {ids : List EntityId}

/-- The expressions that stand in the definition of an entity of a table. -/
def written (t : EntityTable) (id : EntityId) : List Source.Expr :=
  ((t.get id).toOption.map (·.written t)).getD []

/-- The variables of the blocks in the body of a function of a table. -/
def blockVariables (t : EntityTable) (id : EntityId) : List EntityId :=
  (t.body? id).elim [] fun body => body.nodes.flatMap Source.Node.vars

/-- Each entity of a list is counted as often as it stands there. -/
theorem markAll_get (h : ids.foldlM markUsed t = .ok t') (he : t.get id = .ok e) :
    t'.get id = .ok { e with uses := e.uses + ids.count id } := by
  induction ids generalizing t e with
  | nil =>
    obtain rfl := Except.ok.inj h
    exact he
  | cons v ids ih =>
    rw [List.foldlM_cons] at h
    obtain ⟨t₁, hmark, hrest⟩ := bind_eq_ok_iff.1 h
    obtain ⟨found, hfound, hmark⟩ := bind_eq_ok_iff.1 hmark
    obtain rfl := Except.ok.inj hmark
    by_cases hv : v = id
    · subst hv
      obtain rfl := Except.ok.inj (hfound.symm.trans he)
      rw [ih hrest (get_set_self (lt_of_get he)), List.count_cons_self, Nat.add_right_comm,
        Nat.add_assoc]
    · rw [ih hrest ((get_set_of_ne (Ne.symm hv)).trans he), List.count_cons_of_ne hv]

end EntityTable

namespace Source

variable {t : EntityTable} {id : EntityId} {ids : List EntityId}

/-- An entity uses what is written in it. -/
theorem usesOfEntity_eq_ok (h : usesOfEntity t id = .ok ids) :
    UsesOf t (t.blockVariables id) (t.written id) ids := by
  -- the kind of the entity says what is written in it: a body, an initializer, a value, or nothing
  obtain ⟨e, he, h⟩ := bind_eq_ok_iff.1 h
  rw [EntityTable.written, he, Except.toOption, Option.map_some, Option.getD_some, Entity.written,
    EntityTable.blockVariables]
  cases hkind : e.kind with
  | definedFunction params body =>
    simp only [hkind] at h
    rw [EntityTable.body?_eq_some he hkind]
    exact Block.uses_eq_ok h
  | definedVariable init =>
    simp only [hkind] at h
    rw [EntityTable.body?_eq_none he (by simp [hkind])]
    obtain rfl := Except.ok.inj h
    exact .option init
  | constant value =>
    simp only [hkind] at h
    rw [EntityTable.body?_eq_none he (by simp [hkind])]
    obtain rfl := Except.ok.inj h
    exact .expr value
  | undefinedVariable | undefinedFunction | parameter =>
    simp only [hkind] at h
    rw [EntityTable.body?_eq_none he (by simp [hkind])]
    obtain rfl := Except.ok.inj h
    exact .nil

/-- So do the entities of a list. -/
theorem usesOfEntities_eq_ok {found : List (List EntityId)}
    (h : ids.mapM (usesOfEntity t) = .ok found) :
    UsesOf t (ids.flatMap t.blockVariables) (ids.flatMap t.written) found.flatten := by
  induction ids generalizing found with
  | nil =>
    obtain rfl := Except.ok.inj h
    exact .nil
  | cons id ids ih =>
    rw [List.mapM_cons] at h
    obtain ⟨first, hfirst, h⟩ := bind_eq_ok_iff.1 h
    obtain ⟨rest, hrest, h⟩ := bind_eq_ok_iff.1 h
    obtain rfl := Except.ok.inj h
    exact (usesOfEntity_eq_ok hfirst).append (ih hrest)

namespace Program

variable {p p' : Program}

/-- The variables of the blocks of the functions that a program declares: function by function, and
those of a block before those of the blocks that stand in it. -/
def blockVariables (p : Program) : List EntityId :=
  p.declarations.flatMap p.entities.blockVariables

/-- A declared entity names an entity in its definition. -/
def Names (p : Program) (id : EntityId) : Prop :=
  ∃ d ∈ p.declarations, ∃ e ∈ p.entities.written d, e.Names id

instance : Decidable (p.Names id) :=
  inferInstanceAs (Decidable (∃ d ∈ p.declarations, ∃ e ∈ p.entities.written d, e.Names id))

/-- What is counted as used is what the program names. -/
theorem markUses_get (h : p.markUses = .ok p') :
    (∀ v ∈ p.blockVariables, v.index < p.entities.size) ∧
      ∀ id e, p.entities.get id = .ok e → ∃ count,
        p'.entities.get id = .ok { e with uses := e.uses + count } ∧ (0 < count ↔ p.Names id) := by
  obtain ⟨ids, hused, h⟩ := bind_eq_ok_iff.1 h
  obtain ⟨entities, hmarks, h⟩ := bind_eq_ok_iff.1 h
  obtain rfl := Except.ok.inj h
  obtain ⟨found, hfound, hused⟩ := bind_eq_ok_iff.1 hused
  obtain rfl := Except.ok.inj hused
  have huses := usesOfEntities_eq_ok hfound
  refine ⟨huses.vars, fun id e he => ⟨_, EntityTable.markAll_get hmarks he, ?_⟩⟩
  rw [List.count_pos_iff, huses.names]
  constructor
  · rintro ⟨e, he, hnames⟩
    obtain ⟨d, hd, he⟩ := List.mem_flatMap.1 he
    exact ⟨d, hd, e, he, hnames⟩
  · rintro ⟨d, hd, e, he, hnames⟩
    exact ⟨e, List.mem_flatMap.2 ⟨d, hd, he⟩, hnames⟩

end Program

end Source

end Backend386
