import Mathlib.Data.List.Nodup
import Mathlib.Logic.Relation
import Backend386.Ir.Function
import Backend386.Proofs.Ir.Eval

/-!
# Runs of intermediate code

A function runs statement by statement. What is left to run is a list of statements, and a jump goes
on with what follows its label. The state that statements act on is kept abstract: it is flat memory
when machine code is compared with its source, and a store of variables elsewhere.

* `Ir.Function.labelProblem?_eq_none_iff` — there is no problem with labels iff none is placed twice
  and every label that is jumped to is placed;
* `Ir.World` — what statements act on;
* `Ir.Action.entities`, `Ir.Action.literals` — what a statement mentions, and `Ir.Action.reads` —
  what it reads;
* `Ir.after?` — what follows a label;
* `Ir.Step` — one statement, and `Ir.Ends` — how a run ends.
-/

namespace Backend386.Ir

/-- Nothing is repeated in a list without duplicates, none of whose elements has been seen before.
-/
theorem firstRepeated?_eq_none_iff {α : Type} [DecidableEq α] {seen as : List α} :
    firstRepeated? seen as = none ↔ as.Nodup ∧ ∀ a ∈ as, a ∉ seen := by
  induction as generalizing seen with
  | nil => simp [firstRepeated?]
  | cons a as ih =>
    rw [firstRepeated?]
    by_cases ha : a ∈ seen
    · simp [ha]
    · rw [if_neg ha, ih, List.nodup_cons]
      simp only [List.mem_cons, not_or]
      constructor
      · rintro ⟨hnodup, hseen⟩
        refine ⟨⟨fun hmem => (hseen a hmem).1 rfl, hnodup⟩, ?_⟩
        rintro b (rfl | hb)
        · exact ha
        · exact (hseen b hb).2
      · rintro ⟨⟨hmem, hnodup⟩, hseen⟩
        refine ⟨hnodup, fun b hb => ⟨?_, hseen b (.inr hb)⟩⟩
        rintro rfl
        exact hmem hb

/-- The labels of a function are in order iff none is placed twice and no jump leads nowhere. -/
theorem Function.labelProblem?_eq_none_iff {f : Function} :
    f.labelProblem? = none ↔
      f.placedLabels.Nodup ∧ ∀ l ∈ f.jumpTargets, l ∈ f.placedLabels := by
  simp only [labelProblem?]
  cases hrepeated : firstRepeated? [] f.placedLabels with
  | some l =>
    have hnodup : ¬ f.placedLabels.Nodup := fun h => by
      rw [firstRepeated?_eq_none_iff.2 ⟨h, fun _ _ => List.not_mem_nil⟩] at hrepeated
      cases hrepeated
    simp [hnodup]
  | none => simp [(firstRepeated?_eq_none_iff.1 hrepeated).1]

theorem Function.nodup_placedLabels {f : Function} (h : f.labelProblem? = none) :
    f.placedLabels.Nodup :=
  (labelProblem?_eq_none_iff.1 h).1

/-! ## Runs -/

/-- What statements act on. -/
structure World (σ : Type) where
  /-- what expressions can see -/
  env : σ → Env
  /-- stores a word where an expression points to -/
  assign : σ → Expr → Value → Option σ
  /-- the value of a call, and the state it leaves -/
  call : σ → (callee : Expr) → (args : List Expr) → Value → σ → Prop

/-- The entities that a statement mentions. -/
def Action.entities : Action → List EntityId
  | .eval e | .branch e _ _ => e.entities
  | .assign target value => target.entities ++ value.entities
  | .ret (some e) => e.entities
  | .jump _ | .label _ | .ret none => []

/-- The string literals that a statement mentions. -/
def Action.literals : Action → List StringId
  | .eval e | .branch e _ _ => e.literals
  | .assign target value => target.literals ++ value.literals
  | .ret value => Expr.literalsOfAll value.toList
  | .jump _ | .label _ => []

/-- The variables and the places in memory that a statement reads. -/
def Action.reads : Action → List Expr
  | .eval e | .branch e _ _ => e.reads
  | .assign target value => target.reads ++ value.reads
  | .ret (some e) => e.reads
  | .jump _ | .label _ | .ret none => []

/-- What follows the first place of a label. -/
def after? (l : Label) : List Stmt → Option (List Stmt)
  | [] => none
  | s :: rest => if s.placed? = some l then some rest else after? l rest

/-- How a run ends. -/
inductive Ending where
  /-- at the end of the list -/
  | normal
  /-- at a return, with its value -/
  | returned (value : Option Value)

section

variable {σ : Type} (W : World σ)

/-- The value of the right side of a statement. A call stands there on its own, if at all. -/
inductive World.Yields (m : σ) : Expr → Value → σ → Prop where
  | value {e : Expr} {v : BitVec e.width.bits} (h : e.eval (W.env m) = some v) :
    Yields m e ⟨e.width, v⟩ m
  | call {w : Width} {callee : Expr} {args : List Expr} {v : BitVec w.bits} {m' : σ}
    (h : W.call m callee args ⟨w, v⟩ m') : Yields m (.call w callee args) ⟨w, v⟩ m'

/-- One statement of a function with the given body. -/
inductive Step (body : List Stmt) : List Stmt × σ → List Stmt × σ → Prop where
  | eval {e : Expr} {v : Value} {loc : Option Location} {rest : List Stmt} {m m' : σ}
    (h : W.Yields m e v m') : Step body (⟨.eval e, loc⟩ :: rest, m) (rest, m')
  | assign {target e : Expr} {v : Value} {loc : Option Location} {rest : List Stmt} {m m' m'' : σ}
    (h : W.Yields m e v m') (ha : W.assign m' target v = some m'') :
    Step body (⟨.assign target e, loc⟩ :: rest, m) (rest, m'')
  | jump {l : Label} {loc : Option Location} {rest rest' : List Stmt} {m : σ}
    (h : after? l body = some rest') : Step body (⟨.jump l, loc⟩ :: rest, m) (rest', m)
  | branch {test : Expr} {v : BitVec test.width.bits} {yes no : Label} {loc : Option Location}
    {rest rest' : List Stmt} {m : σ} (hv : test.eval (W.env m) = some v)
    (h : after? (if v = 0 then no else yes) body = some rest') :
    Step body (⟨.branch test yes no, loc⟩ :: rest, m) (rest', m)
  | label {l : Label} {loc : Option Location} {rest : List Stmt} {m : σ} :
    Step body (⟨.label l, loc⟩ :: rest, m) (rest, m)

/-- Any number of statements. -/
abbrev Steps (body : List Stmt) : List Stmt × σ → List Stmt × σ → Prop :=
  Relation.ReflTransGen (Step W body)

/-- Nothing is left to run. -/
inductive Ends (m : σ) : List Stmt → Ending → Prop where
  | normal : Ends m [] .normal
  | bare {loc : Option Location} {rest : List Stmt} :
    Ends m (⟨.ret none, loc⟩ :: rest) (.returned none)
  | value {e : Expr} {v : BitVec e.width.bits} {loc : Option Location} {rest : List Stmt}
    (h : e.eval (W.env m) = some v) :
    Ends m (⟨.ret (some e), loc⟩ :: rest) (.returned (some ⟨e.width, v⟩))

end

end Backend386.Ir
