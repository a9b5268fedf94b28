import Backend386.Proofs.Source.Evaluated
import Backend386.Proofs.Source.Occurs

/-!
# The expressions that are met

* `Source.Visits` — the expressions that are met when some expressions are evaluated one after
  another, and `Source.Visits.unique` — there is one answer only;
* `Source.Block.mem_evaluated` — what is evaluated in a block;
* `Source.Part.met` — the expressions of which nothing is met but what is met anyway;
* `Source.literals` — the string literals among some expressions.
-/

namespace Backend386.Source

/-! ## Visits -/

/-- The expressions that are met when expressions are evaluated one after another, each behind its
operands. A constant stands for its value wherever it is named. -/
inductive Visits (t : EntityTable) : List Expr → List Expr → Prop where
  | nil : Visits t [] []
  | constant {e value : Expr} {es a b : List Expr} (hv : e.constant? t = some value)
    (h : Visits t [value] a) (hs : Visits t es b) : Visits t (e :: es) (a ++ b)
  | node {e : Expr} {es a b : List Expr} (hv : e.constant? t = none) (h : Visits t e.evaluated a)
    (hs : Visits t es b) : Visits t (e :: es) (a ++ e :: b)

namespace Visits

variable {t : EntityTable} {e value : Expr} {es es' a b : List Expr}

/-- What is evaluated determines what is met. -/
theorem unique (h : Visits t es a) (h' : Visits t es b) : a = b := by
  induction h generalizing b with
  | nil =>
    cases h'
    rfl
  | constant hv _ _ ih ihs =>
    cases h' with
    | constant hv' h' hs' =>
      obtain rfl := Option.some.inj (hv.symm.trans hv')
      rw [ih h', ihs hs']
    | node hv' => simp [hv] at hv'
  | node hv _ _ ih ihs =>
    cases h' with
    | constant hv' => simp [hv] at hv'
    | node _ h' hs' => rw [ih h', ihs hs']

/-- Expressions are visited one after another. -/
theorem append (h : Visits t es a) (h' : Visits t es' b) : Visits t (es ++ es') (a ++ b) := by
  induction h with
  | nil => exact h'
  | constant hv h _ _ ih =>
    rw [List.append_assoc]
    exact .constant hv h ih
  | node hv h _ _ ih =>
    rw [List.append_assoc]
    exact .node hv h ih

/-- A constant on its own. -/
theorem single_constant (hv : e.constant? t = some value) (h : Visits t [value] a) :
    Visits t [e] a :=
  List.append_nil a ▸ .constant hv h .nil

/-- Any other expression on its own. -/
theorem single_node (hv : e.constant? t = none) (h : Visits t e.evaluated a) :
    Visits t [e] (a ++ [e]) :=
  .node hv h .nil

/-- Each of the expressions is evaluated on the way. -/
theorem of_mem (h : Visits t es a) (he : e ∈ es) : ∃ b, Visits t [e] b ∧ b ⊆ a := by
  induction h with
  | nil => cases he
  | @constant e' value es a b hv h hs _ ih =>
    obtain rfl | he := List.mem_cons.1 he
    · exact ⟨a, .single_constant hv h, List.subset_append_left a b⟩
    · obtain ⟨c, hc, hsub⟩ := ih he
      exact ⟨c, hc, List.subset_append_of_subset_right a hsub⟩
  | @node e' es a b hv h hs _ ih =>
    obtain rfl | he := List.mem_cons.1 he
    · refine ⟨a ++ [e], .single_node hv h, ?_⟩
      simp
    · obtain ⟨c, hc, hsub⟩ := ih he
      exact ⟨c, hc, List.subset_append_of_subset_right a (List.subset_cons_of_subset _ hsub)⟩

end Visits

/-- An expression is met when some expressions are evaluated. -/
def Meets (t : EntityTable) (es : List Expr) (e : Expr) : Prop :=
  ∃ visited, Visits t es visited ∧ e ∈ visited

/-! ## What is evaluated -/

/-- The operands that are lowered are evaluated. -/
theorem Expr.mem_evaluated_of_mem_operands {e operand : Expr} (h : operand ∈ e.operands) :
    operand ∈ e.evaluated := by
  cases e <;> simp_all [operands, evaluated, or_comm]

section

open Scope (variablesOfTree variablesOfTrees variablesOfTrees_append)

variable {t : EntityTable} {e : Expr}

mutual

/-- What is evaluated in a block stands in it, or is the initial value of one of its variables. -/
theorem Block.mem_evaluated (b : Block) :
    e ∈ b.evaluated t ↔ e ∈ b.exprs ∨ e ∈ b.scope.variablesOfTree.filterMap t.initial? := by
  cases b with
  | mk vars stmts =>
    rw [Block.evaluated, Block.exprs, Block.scope, variablesOfTree, List.filterMap_append,
      List.mem_append, List.mem_append, mem_evaluatedOfStmts stmts]
    exact or_left_comm

/-- A statement evaluates its expressions and the initial values of its variables. -/
theorem Stmt.mem_evaluated (st : Stmt) :
    e ∈ st.evaluated t ↔
      e ∈ st.exprs ∨ e ∈ (variablesOfTrees st.scopes).filterMap t.initial? := by
  cases st with
  | expr | breakOut | continueOn | goto | ret =>
    simp [Stmt.evaluated, Stmt.exprs, Stmt.scopes, variablesOfTrees]
  | block here body =>
    simp [Stmt.evaluated, Stmt.exprs, Stmt.scopes, variablesOfTrees, body.mem_evaluated]
  | label _ _ body => exact body.mem_evaluated
  | ifThen _ _ body | whileLoop _ _ body =>
    simp only [Stmt.evaluated, Stmt.exprs, Stmt.scopes, List.mem_cons, body.mem_evaluated, or_assoc]
  | doLoop _ body _ | forLoop _ _ _ _ body =>
    simp only [Stmt.evaluated, Stmt.exprs, Stmt.scopes, List.mem_cons, List.mem_append,
      List.not_mem_nil, body.mem_evaluated]
    tauto
  | ifElse _ _ yes no =>
    simp only [Stmt.evaluated, Stmt.exprs, Stmt.scopes, variablesOfTrees_append,
      List.filterMap_append, List.mem_cons, List.mem_append, yes.mem_evaluated, no.mem_evaluated]
    tauto
  | switch _ _ cases =>
    simp only [Stmt.evaluated, Stmt.exprs, Stmt.scopes, List.mem_cons, List.mem_append,
      mem_evaluatedOfCases cases, or_assoc]

/-- The same for a list of statements. -/
theorem mem_evaluatedOfStmts (ss : List Stmt) :
    e ∈ evaluatedOfStmts t ss ↔
      e ∈ exprsOfStmts ss ∨ e ∈ (variablesOfTrees (scopesOfStmts ss)).filterMap t.initial? := by
  cases ss with
  | nil => simp [evaluatedOfStmts, exprsOfStmts, scopesOfStmts, variablesOfTrees]
  | cons st ss =>
    simp only [evaluatedOfStmts, exprsOfStmts, scopesOfStmts, variablesOfTrees_append,
      List.filterMap_append, List.mem_append, st.mem_evaluated, mem_evaluatedOfStmts ss]
    tauto

/-- The values of the cases are evaluated before the first body. -/
theorem mem_evaluatedOfCases (cs : List Case) :
    e ∈ cs.flatMap (·.values) ∨ e ∈ evaluatedOfCases t cs ↔
      e ∈ exprsOfCases cs ∨ e ∈ (variablesOfTrees (scopesOfCases cs)).filterMap t.initial? := by
  match cs with
  | [] => simp [evaluatedOfCases, exprsOfCases, scopesOfCases, variablesOfTrees]
  | .mk values body :: cs =>
    have hrest := mem_evaluatedOfCases cs
    simp only [evaluatedOfCases, exprsOfCases, scopesOfCases, variablesOfTrees, List.flatMap_cons,
      List.filterMap_append, List.mem_append, body.mem_evaluated, Case.values]
    tauto

end

end

/-- The expressions of which nothing is met but what is met anyway. -/
def Part.met (t : EntityTable) (visited : List Expr) : Part where
  exprs e := ∃ a, Visits t [e] a ∧ a ⊆ visited
  vars id := ∀ init, t.initial? id = some init → ∃ a, Visits t [init] a ∧ a ⊆ visited
  switches _ := True

section

variable {t : EntityTable} {e : Expr} {es visited : List Expr}

theorem Visits.met (h : Visits t es visited) (he : e ∈ es) : (Part.met t visited).exprs e :=
  h.of_mem he

/-- The operands of what was met were met. -/
theorem Part.met_operand {operand : Expr} (he : (met t visited).exprs e)
    (ho : operand ∈ e.operands) : (met t visited).exprs operand := by
  obtain ⟨a, ha, hsub⟩ := he
  cases ha with
  | constant hv =>
    -- a constant has no operands
    cases e with
    | var => cases ho
    | _ => cases hv
  | node _ h hs =>
    cases hs
    obtain ⟨b, hb, hsub'⟩ := h.of_mem (Expr.mem_evaluated_of_mem_operands ho)
    exact ⟨b, hb, fun x hx => hsub (List.mem_append_left _ (hsub' hx))⟩

/-- So was the value of a constant. -/
theorem Part.met_constant {value : Expr} (he : (met t visited).exprs e)
    (hv : e.constant? t = some value) : (met t visited).exprs value := by
  obtain ⟨a, ha, hsub⟩ := he
  cases ha with
  | constant hv' h hs =>
    obtain rfl := Option.some.inj (hv.symm.trans hv')
    cases hs
    exact ⟨_, h, fun x hx => hsub (List.mem_append_left _ hx)⟩
  | node hv' =>
    rw [hv] at hv'
    cases hv'

/-- A literal that is among them is met. -/
theorem Part.mem_of_met_str {n : Note} {v : String} (h : (met t visited).exprs (.str n v)) :
    .str n v ∈ visited := by
  obtain ⟨a, ha, hsub⟩ := h
  obtain rfl := ha.unique (.single_node rfl .nil)
  exact hsub List.mem_cons_self

end

/-! ## Literals -/

/-- The string, if the expression is a string literal. -/
def Expr.literal? : Expr → Option String
  | .str _ v => some v
  | _ => none

/-- The strings of the string literals among some expressions. -/
def literals (es : List Expr) : List String :=
  es.filterMap Expr.literal?

@[simp] theorem literals_nil : literals [] = [] := rfl

@[simp] theorem literals_append (a b : List Expr) : literals (a ++ b) = literals a ++ literals b :=
  List.filterMap_append

end Backend386.Source
