import Mathlib.Data.Set.Insert
import Backend386.Proofs.Lowering.Accesses

/-!
# Flat code, and what is written on every path through it

The side effects of flat code are statements: a call stands on its own, or its value is kept in a
variable that nothing has mentioned before. In orderly code, in addition, there is for every label a
set of variables that are written wherever a jump to the label can come from.

* `Ir.Expr.calls` — the calls in an expression, and `Ir.Expr.Plain` — expressions without any;
* `Ir.Action.Flat` — statements with flat side effects;
* `Ir.Orderly` — orderly code, built up statement by statement;
* `Ir.Path` — the paths through a body, and `Ir.Orderly.written_before` — on every path, variables
  are written before they are read.
-/

namespace Backend386.Ir

/-! ## Calls -/

mutual

/-- The calls in an expression, each behind those in its callee and arguments. -/
def Expr.calls : Expr → List Expr
  | .int .. | .str .. | .var .. | .addr .. => []
  | .mem _ e | .uni _ _ e => e.calls
  | .bin _ _ l r => l.calls ++ r.calls
  | .call w callee args => callee.calls ++ Expr.callsOfAll args ++ [.call w callee args]

/-- The calls in a list of expressions. -/
def Expr.callsOfAll : List Expr → List Expr
  | [] => []
  | e :: es => e.calls ++ Expr.callsOfAll es

end

/-- The calls in a statement. -/
def Action.calls : Action → List Expr
  | .eval e | .branch e _ _ => e.calls
  | .assign target value => target.calls ++ value.calls
  | .ret (some e) => e.calls
  | .jump _ | .label _ | .ret none => []

/-- The calls in a list of statements. -/
def callsOf (code : List Stmt) : List Expr :=
  code.flatMap (·.action.calls)

namespace Expr

variable {mention mention' read read' : EntityId → Prop} {e : Expr} {es : List Expr} {w : Width}
  {v : EntityId}

/-- An expression without calls, with conditions on the variables that it mentions and on those that
it reads. -/
inductive Plain (mention read : EntityId → Prop) : Expr → Prop where
  | int {w : Width} {n : Int64} : Plain mention read (.int w n)
  | str {w : Width} {id : StringId} : Plain mention read (.str w id)
  | var {w : Width} {v : EntityId} (hm : mention v) (hr : read v) : Plain mention read (.var w v)
  | addr {w : Width} {v : EntityId} (hm : mention v) : Plain mention read (.addr w v)
  | mem {w : Width} {e : Expr} (h : Plain mention read e) : Plain mention read (.mem w e)
  | uni {w : Width} {op : Op} {e : Expr} (h : Plain mention read e) :
    Plain mention read (.uni w op e)
  | bin {w : Width} {op : Op} {l r : Expr} (hl : Plain mention read l)
    (hr : Plain mention read r) : Plain mention read (.bin w op l r)

namespace Plain

/-- More may be mentioned and read. -/
theorem mono (h : e.Plain mention read) (hm : ∀ v, mention v → mention' v)
    (hr : ∀ v, read v → read' v) : e.Plain mention' read' := by
  induction h with
  | int => exact .int
  | str => exact .str
  | var hm' hr' => exact .var (hm _ hm') (hr _ hr')
  | addr hm' => exact .addr (hm _ hm')
  | mem _ ih => exact .mem ih
  | uni _ ih => exact .uni ih
  | bin _ _ ihl ihr => exact .bin ihl ihr

theorem calls (h : e.Plain mention read) : e.calls = [] := by
  induction h with
  | int | str | var | addr => rfl
  | mem _ ih | uni _ ih => exact ih
  | bin _ _ ihl ihr => rw [Expr.calls, ihl, ihr, List.append_nil]

/-- All entities of a plain expression are mentioned. -/
theorem entities (h : e.Plain mention read) (hv : v ∈ e.entities) : mention v := by
  induction h with
  | int | str => cases hv
  | var hm | addr hm => exact List.mem_singleton.1 hv ▸ hm
  | mem _ ih | uni _ ih => exact ih hv
  | bin _ _ ihl ihr => exact (List.mem_append.1 hv).elim ihl ihr

/-- All variables that it reads may be read. -/
theorem reads (h : e.Plain mention read) (hv : .var w v ∈ e.reads) : read v := by
  induction h with
  | int | str | addr => cases hv
  | var _ hr =>
    obtain ⟨-, rfl⟩ := Expr.var.inj (List.mem_singleton.1 hv)
    exact hr
  | mem _ ih =>
    rcases List.mem_cons.1 hv with hv | hv
    · cases hv
    · exact ih hv
  | uni _ ih => exact ih hv
  | bin _ _ ihl ihr => exact (List.mem_append.1 hv).elim ihl ihr

/-- The address of the object that a plain expression reads. -/
theorem addressOf? {ptr : Width} {a : Expr} (h : e.Plain mention read)
    (ha : e.addressOf? ptr = some a) : a.Plain mention read := by
  cases h with
  | var hm =>
    obtain rfl := Option.some.inj ha
    exact .addr hm
  | mem h =>
    obtain rfl := Option.some.inj ha
    exact h
  | _ => cases ha

end Plain

/-- Expressions without calls have none together. -/
theorem callsOfAll_eq_nil (h : ∀ e ∈ es, e.calls = []) : callsOfAll es = [] := by
  induction es with
  | nil => rfl
  | cons e es ih =>
    rw [callsOfAll, h e List.mem_cons_self, ih fun e he => h e (List.mem_cons_of_mem _ he)]
    rfl

/-- A call of plain expressions holds no other. -/
theorem calls_call {callee : Expr} (hf : callee.Plain mention read)
    (hargs : ∀ e ∈ es, e.Plain mention read) :
    (call w callee es).calls = [call w callee es] := by
  rw [calls, hf.calls, callsOfAll_eq_nil fun e he => (hargs e he).calls]
  rfl

theorem mem_entitiesOfAll : v ∈ entitiesOfAll es ↔ ∃ e ∈ es, v ∈ e.entities := by
  induction es with
  | nil => simp [entitiesOfAll]
  | cons e es ih => simp [entitiesOfAll, ih]

theorem mem_readsOfAll {x : Expr} : x ∈ readsOfAll es ↔ ∃ e ∈ es, x ∈ e.reads := by
  induction es with
  | nil => simp [readsOfAll]
  | cons e es ih => simp [readsOfAll, ih]

end Expr

/-! ## Flat statements -/

/-- A statement with flat side effects: a call stands on its own, or its value is kept in a fresh
variable. All other expressions are plain, those in the call too. -/
inductive Action.Flat (plain : Expr → Prop) (fresh : EntityId → Prop) : Action → Prop where
  | eval {e : Expr} (h : plain e) : Flat plain fresh (.eval e)
  | call {w : Width} {callee : Expr} {args : List Expr} (hf : plain callee)
    (hargs : ∀ e ∈ args, plain e) : Flat plain fresh (.eval (.call w callee args))
  | assign {target value : Expr} (ht : plain target) (hv : plain value) :
    Flat plain fresh (.assign target value)
  | keep {ptr w : Width} {v : EntityId} {callee : Expr} {args : List Expr} (hv : fresh v)
    (hf : plain callee) (hargs : ∀ e ∈ args, plain e) :
    Flat plain fresh (.assign (.addr ptr v) (.call w callee args))
  | jump {l : Label} : Flat plain fresh (.jump l)
  | branch {test : Expr} {yes no : Label} (h : plain test) : Flat plain fresh (.branch test yes no)
  | label {l : Label} : Flat plain fresh (.label l)
  | ret {value : Option Expr} (h : ∀ e, value = some e → plain e) : Flat plain fresh (.ret value)

namespace Action.Flat

variable {plain plain' : Expr → Prop} {fresh fresh' mention read : EntityId → Prop}
  {action : Action} {v : EntityId} {w : Width}

/-- A statement stays flat if more counts as plain or as fresh. -/
theorem mono (h : action.Flat plain fresh) (hp : ∀ e, plain e → plain' e)
    (hf : ∀ v, fresh v → fresh' v) : action.Flat plain' fresh' := by
  cases h with
  | eval h => exact .eval (hp _ h)
  | call h hargs => exact .call (hp _ h) fun e he => hp e (hargs e he)
  | assign ht hv => exact .assign (hp _ ht) (hp _ hv)
  | keep hv h hargs => exact .keep (hf _ hv) (hp _ h) fun e he => hp e (hargs e he)
  | jump => exact .jump
  | branch h => exact .branch (hp _ h)
  | label => exact .label
  | ret h => exact .ret fun e he => hp e (h e he)

/-- What a flat statement mentions. -/
theorem entities (h : action.Flat (Expr.Plain mention read) mention) (hv : v ∈ action.entities) :
    mention v := by
  have hcall {callee : Expr} {args : List Expr} (hf : callee.Plain mention read)
      (hargs : ∀ e ∈ args, e.Plain mention read)
      (hv : v ∈ callee.entities ++ Expr.entitiesOfAll args) : mention v := by
    rcases List.mem_append.1 hv with hv | hv
    · exact hf.entities hv
    · obtain ⟨e, he, hv⟩ := Expr.mem_entitiesOfAll.1 hv
      exact (hargs e he).entities hv
  cases h with
  | eval h | branch h => exact h.entities hv
  | call hf hargs => exact hcall hf hargs hv
  | assign ht hv' => exact (List.mem_append.1 hv).elim ht.entities hv'.entities
  | keep hfresh hf hargs =>
    rcases List.mem_append.1 hv with hv | hv
    · exact List.mem_singleton.1 hv ▸ hfresh
    · exact hcall hf hargs hv
  | jump | label => cases hv
  | @ret value h =>
    cases value with
    | none => cases hv
    | some e => exact (h e rfl).entities hv

/-- What a flat statement reads. -/
theorem reads (h : action.Flat (Expr.Plain mention read) fresh)
    (hv : Expr.var w v ∈ action.reads) : read v := by
  have hcall {callee : Expr} {args : List Expr} (hf : callee.Plain mention read)
      (hargs : ∀ e ∈ args, e.Plain mention read)
      (hv : Expr.var w v ∈ callee.reads ++ Expr.readsOfAll args) : read v := by
    rcases List.mem_append.1 hv with hv | hv
    · exact hf.reads hv
    · obtain ⟨e, he, hv⟩ := Expr.mem_readsOfAll.1 hv
      exact (hargs e he).reads hv
  cases h with
  | eval h | branch h => exact h.reads hv
  | call hf hargs => exact hcall hf hargs hv
  | assign ht hv' => exact (List.mem_append.1 hv).elim ht.reads hv'.reads
  | keep _ hf hargs =>
    rcases List.mem_append.1 hv with hv | hv
    · cases hv
    · exact hcall hf hargs hv
  | jump | label => cases hv
  | @ret value h =>
    cases value with
    | none => cases hv
    | some e => exact (h e rfl).reads hv

end Action.Flat

/-! ## Orderly code -/

/-- The labels that a statement places or may jump to. -/
def Stmt.labels (st : Stmt) : List Label :=
  st.targets ++ st.placed?.toList

/-- The variables that are written behind a statement, if some are written before it. Nothing comes
behind a jump or a return but through a label. -/
def Action.written (known : Label → Set EntityId) (before : Set EntityId) : Action → Set EntityId
  | .eval _ => before
  | .assign target _ => before ∪ {v | ∃ ptr, target = .addr ptr v}
  | .label l => known l
  | .jump _ | .branch .. | .ret _ => Set.univ

/-- Code that is flat, and that reads only variables of the program and those that are written. A
label is reached only where the variables that are known for it are written. The code mentions
entities and labels below two bounds, and a variable in which a call is kept is not mentioned
before; the last set is what is written behind the code. -/
inductive Orderly (first : Nat) (own : EntityId → Prop) (known : Label → Set EntityId) :
    List Stmt → Nat → Nat → Set EntityId → Prop where
  | nil {entities labels : Nat} (h : first ≤ entities) :
    Orderly first own known [] entities labels ∅
  | push {code : List Stmt} {st : Stmt} {entities entities' labels labels' : Nat}
    {before : Set EntityId} (h : Orderly first own known code entities labels before)
    (hentities : entities ≤ entities') (hlabels : labels ≤ labels')
    (hflat : st.action.Flat (Expr.Plain (·.index < entities') fun v => own v ∨ v ∈ before)
      fun v => entities ≤ v.index ∧ v.index < entities')
    (hknown : ∀ l ∈ st.labels, l.index < labels' ∧ known l ⊆ before) :
    Orderly first own known (code ++ [st]) entities' labels' (st.action.written known before)

namespace Orderly

variable {first : Nat} {own : EntityId → Prop} {known known' : Label → Set EntityId}
  {code rest : List Stmt} {st : Stmt} {entities entities' labels labels' : Nat}
  {before : Set EntityId} {v : EntityId} {w : Width}

/-- Code stays in order if there are more entities and labels behind it. -/
theorem mono (h : Orderly first own known code entities labels before)
    (hentities : entities ≤ entities') (hlabels : labels ≤ labels') :
    Orderly first own known code entities' labels' before := by
  cases h with
  | nil h => exact .nil (h.trans hentities)
  | push h hentities' hlabels' hflat hknown =>
    refine .push h (hentities'.trans hentities) (hlabels'.trans hlabels) ?_ fun l hl => ?_
    · refine hflat.mono (fun e he => he.mono (fun v hv => ?_) fun _ => id) fun v hv => ?_
      · exact lt_of_lt_of_le hv hentities
      · exact ⟨hv.1, hv.2.trans_le hentities⟩
    · exact ⟨(hknown l hl).1.trans_le hlabels, (hknown l hl).2⟩

/-- Only what is known of the labels below the bound counts. -/
theorem congr (h : Orderly first own known code entities labels before)
    (heq : ∀ l : Label, l.index < labels → known' l = known l) :
    Orderly first own known' code entities labels before := by
  induction h with
  | nil h => exact .nil h
  | @push code st entities entities' labels labels' before h hentities hlabels hflat hknown ih =>
    have hwritten : st.action.written known before = st.action.written known' before := by
      cases hst : st.action with
      | label l =>
        have hl : l ∈ st.labels := by simp [Stmt.labels, Stmt.placed?, hst]
        exact (heq l (hknown l hl).1).symm
      | _ => rfl
    rw [hwritten]
    refine .push (ih fun l hl => heq l (hl.trans_le hlabels)) hentities hlabels hflat fun l hl => ?_
    exact ⟨(hknown l hl).1, heq l (hknown l hl).1 ▸ (hknown l hl).2⟩

theorem first_le (h : Orderly first own known code entities labels before) : first ≤ entities := by
  induction h with
  | nil h => exact h
  | push _ hentities _ _ _ ih => exact ih.trans hentities

/-- The code mentions entities below the bound. -/
theorem entities_lt (h : Orderly first own known code entities labels before) (hst : st ∈ code)
    (hv : v ∈ st.action.entities) : v.index < entities := by
  induction h with
  | nil => cases hst
  | push _ hentities _ hflat _ ih =>
    rcases List.mem_append.1 hst with hst | hst
    · exact (ih hst).trans_le hentities
    · obtain rfl := List.mem_singleton.1 hst
      exact (hflat.mono (fun _ => id) fun v hv => hv.2).entities hv

/-- Every statement is flat: calls are kept in new variables, which no statement has mentioned
before. -/
theorem flat (h : Orderly first own known code entities labels before) {a b : List Stmt}
    (hcode : code = a ++ st :: b) : st.action.Flat (·.calls = []) fun v =>
      first ≤ v.index ∧ v.index < entities ∧ ∀ st' ∈ a, v ∉ st'.action.entities := by
  induction h generalizing b with
  | nil => simp at hcode
  | @push code last entities entities' labels labels' before h hentities hlabels hflat hknown ih =>
    rcases List.eq_nil_or_concat b with rfl | ⟨b, st', rfl⟩
    · obtain ⟨rfl, hlast⟩ := List.append_inj' hcode rfl
      obtain rfl := List.singleton_inj.1 hlast
      refine hflat.mono (fun e he => he.calls) fun v hv => ⟨h.first_le.trans hv.1, hv.2, ?_⟩
      intro st' hst' hmem
      exact absurd (h.entities_lt hst' hmem) (not_lt.2 hv.1)
    · rw [List.concat_eq_append, ← List.cons_append, ← List.append_assoc] at hcode
      refine (ih (List.append_inj' hcode rfl).1).mono (fun _ => id) fun v hv => ?_
      exact ⟨hv.1, hv.2.1.trans_le hentities, hv.2.2⟩

end Orderly

/-! ## Paths -/

/-- A path through a body: the statements that are passed, and what is left from where it has come
to. It goes on behind a statement, or behind a label that the statement may jump to. -/
inductive Path (body : List Stmt) : List Stmt → List Stmt → Prop where
  | start : Path body [] body
  | next {passed rest : List Stmt} {st : Stmt} (h : Path body passed (st :: rest))
    (htargets : st.targets = []) (hreturn : ∀ value, st.action ≠ .ret value) :
    Path body (passed ++ [st]) rest
  | jump {passed rest rest' : List Stmt} {st : Stmt} {l : Label}
    (h : Path body passed (st :: rest)) (hl : l ∈ st.targets) (hrest : after? l body = some rest') :
    Path body (passed ++ [st]) rest'

/-- A statement writes a variable. -/
def Stmt.Writes (v : EntityId) (st : Stmt) : Prop :=
  ∃ ptr value, st.action = .assign (.addr ptr v) value

/-- What is left of orderly code, where some variables are written. -/
inductive Clear (own : EntityId → Prop) (known : Label → Set EntityId) :
    Set EntityId → List Stmt → Prop where
  | nil {before : Set EntityId} : Clear own known before []
  | cons {st : Stmt} {rest : List Stmt} {before : Set EntityId}
    (hreads : ∀ w v, Expr.var w v ∈ st.action.reads → own v ∨ v ∈ before)
    (hknown : ∀ l ∈ st.labels, known l ⊆ before)
    (h : Clear own known (st.action.written known before) rest) :
    Clear own known before (st :: rest)

section

variable {first : Nat} {own : EntityId → Prop} {known : Label → Set EntityId}
  {body code rest passed : List Stmt} {st : Stmt} {entities labels : Nat}
  {before : Set EntityId} {v : EntityId} {w : Width} {l : Label}

/-- Code in order may stand in front of code that knows nothing of it. -/
theorem Orderly.clear_append (h : Orderly first own known code entities labels before)
    (hrest : Clear own known before rest) : Clear own known ∅ (code ++ rest) := by
  induction h generalizing rest with
  | nil => exact hrest
  | push _ _ _ hflat hknown ih =>
    rw [List.append_assoc]
    exact ih (.cons (fun w v hv => hflat.reads hv) (fun l hl => (hknown l hl).2) hrest)

/-- Behind a label, what is known for it is written. -/
theorem Clear.after? (h : Clear own known before code) (hl : after? l code = some rest) :
    Clear own known (known l) rest := by
  induction h with
  | nil => cases hl
  | @cons st rest before hreads hknown h ih =>
    rw [Ir.after?] at hl
    split at hl
    · next hplaced =>
      obtain rfl := Option.some.inj hl
      cases hst : st.action with
      | label l' =>
        obtain rfl : l' = l := by simpa [Stmt.placed?, hst] using hplaced
        rwa [hst] at h
      | _ => simp [Stmt.placed?, hst] at hplaced
    · exact ih hl

/-- Whatever is written behind a statement was written before it, or is written by it, unless the
statement jumps or returns. -/
theorem Stmt.written_subset (hknown : ∀ l ∈ st.labels, known l ⊆ before)
    (htargets : st.targets = []) (hreturn : ∀ value, st.action ≠ .ret value) :
    st.action.written known before ⊆ before ∪ {v | st.Writes v} := by
  intro v hv
  -- only a store writes, and a label adds what is written on all ways to it
  cases hst : st.action with
  | eval e =>
    rw [hst] at hv
    exact .inl hv
  | assign target value =>
    rw [hst] at hv
    rcases hv with hv | ⟨ptr, rfl⟩
    · exact .inl hv
    · exact .inr ⟨ptr, value, hst⟩
  | label l =>
    rw [hst] at hv
    exact .inl (hknown l (by simp [Stmt.labels, Stmt.placed?, hst]) hv)
  | jump l => simp [Stmt.targets, hst] at htargets
  | branch test yes no => simp [Stmt.targets, hst] at htargets
  | ret value => exact absurd hst (hreturn value)

/-- On every path, the variables that are known to be written are written by statements that were
passed. -/
theorem Path.clear (h : Path body passed rest) (hbody : Clear own known ∅ body) :
    ∃ before, Clear own known before rest ∧ ∀ v ∈ before, ∃ st ∈ passed, st.Writes v := by
  -- induction on the path: one step adds what it writes, a jump leads to what its label promises
  induction h with
  | start => exact ⟨∅, hbody, fun _ hv => hv.elim⟩
  | @next passed rest st _ htargets hreturn ih =>
    obtain ⟨before, hclear, hpassed⟩ := ih
    cases hclear with
    | cons _ hknown hrest =>
      refine ⟨_, hrest, fun v hv => ?_⟩
      rcases Stmt.written_subset hknown htargets hreturn hv with hv | hv
      · obtain ⟨st', hst', hwrites⟩ := hpassed v hv
        exact ⟨st', List.mem_append_left _ hst', hwrites⟩
      · exact ⟨st, by simp, hv⟩
  | @jump passed rest rest' st l _ hl hrest ih =>
    obtain ⟨before, hclear, hpassed⟩ := ih
    cases hclear with
    | cons _ hknown _ =>
      refine ⟨known l, hbody.after? hrest, fun v hv => ?_⟩
      obtain ⟨st', hst', hwrites⟩ := hpassed v (hknown l (List.mem_append_left _ hl) hv)
      exact ⟨st', List.mem_append_left _ hst', hwrites⟩

/-- On every path through orderly code, a variable that is not the program's own is written before
it is read. -/
theorem Orderly.written_before (h : Orderly first own known body entities labels before)
    (hpath : Path body passed (st :: rest)) (hread : Expr.var w v ∈ st.action.reads)
    (hown : ¬ own v) : ∃ st' ∈ passed, st'.Writes v := by
  have hbody : Clear own known ∅ body := List.append_nil body ▸ h.clear_append .nil
  obtain ⟨written, hclear, hpassed⟩ := hpath.clear hbody
  cases hclear with
  | cons hreads => exact hpassed v ((hreads w v hread).resolve_left hown)

end

end Backend386.Ir
