import Mathlib.Logic.Basic
import Backend386.Lowering.Stmt
import Backend386.Proofs.Lowering.Carried
import Backend386.Proofs.Source.JumpSites
import Backend386.Proofs.Source.Visits

/-!
# Walks of the lowering

Whatever a computation of the lowering does, it does by the steps of the state, and it does them for
a reason: a type is looked up because an expression mentions it, a temporary is taken for a value of
such a type, and a statement mentions the entities and the literals of the expressions that it comes
from. A walk says which part of a program is lowered and what is asked of the steps. What is true of
every step of a walk is proved by induction on the steps; that a function of the lowering takes no
others is proved once, for every walk.

* `Lower.Walk` — what part of a program is lowered, and how closely the steps are looked at;
* `Lower.Move` — the steps of a walk, and `Lower.Moves` — runs of them;
* `Lower.Lasting`, `Lower.Given` — what stays true while the lowering goes on;
* `Lower.Walked` — what a computation has done that started in a state and ended in another;
* `Lower.Stepwise` — computations that do so from every state; instances of this class follow the
  structure of a computation.
-/

namespace Backend386.Lower

open Relation (ReflTransGen)
open Source (Visits literals)

variable {α β γ : Type} {s s' s₁ : LowerState} {id : EntityId} {type : TypeId} {ref : TypeRef}

/-! ## Walks -/

/-- A walk over a program while it is lowered. -/
structure Walk where
  /-- the part of the program that is lowered -/
  part : Source.Part
  /-- the entities of the program -/
  source : EntityTable := ⟨[]⟩
  /-- whether labels are taken, placed and jumped to, and problems are reported -/
  hasLabels : Prop := True
  /-- whether labels are met that the program names -/
  hasNames : Prop := True
  /-- whether it is asked where the entities, the literals and the types come from -/
  isStrict : Prop := True

namespace Walk

/-- Any program, of which nothing is known. -/
abbrev any : Walk where
  part := .all
  isStrict := False

/-- The same away from the labels that the program names. -/
abbrev unnamed : Walk where
  part := .all
  hasNames := False
  isStrict := False

/-- The same away from all labels, as when the pieces of an expression are put together. -/
abbrev flat : Walk where
  part := .all
  hasLabels := False
  hasNames := False
  isStrict := False

/-- A part of a program whose entities stand in a table. -/
abbrev along (part : Source.Part) (source : EntityTable := ⟨[]⟩) : Walk where
  part
  source

variable (w : Walk)

/-- A reference that the part mentions. Pointers are made to anything as well. -/
def IsBase (ref : TypeRef) : Prop :=
  w.part.Mentions ref ∨ ref = .void

/-- The reference of a temporary: what it holds is of a type that the part mentions, or an address.
-/
def Carries (ref : TypeRef) : Prop :=
  w.IsBase ref ∨ ∃ base, w.IsBase base ∧ ref = .pointer base

/-- An entity that may be mentioned: a variable that the part holds or names, or one in the
outermost scope of the function, where its temporaries are. -/
def MayName (s : LowerState) (id : EntityId) : Prop :=
  w.isStrict → w.part.vars id ∨ id ∈ s.function.scope.vars ∨
    ∃ n e, w.part.exprs (.var n id) ∧ s.entities.get id = .ok e ∧ e.constantValue? = none

/-- A literal that may be mentioned: one of the part. -/
def MayQuote (s : LowerState) (id : StringId) : Prop :=
  w.isStrict → ∃ n v, w.part.exprs (.str n v) ∧ s.strings.value? id = some v

end Walk

variable {w : Walk}

/-- What may be named stays so. -/
theorem Walk.MayName.grown (h : w.MayName s id) (hg : Grown s s') : w.MayName s' id := by
  intro hstrict
  rcases h hstrict with hv | hscope | ⟨n, e, he, hget, hnone⟩
  · exact .inl hv
  · obtain ⟨new, -, hvars, -⟩ := hg.added
    exact .inr (.inl (hvars ▸ List.mem_append_left _ hscope))
  · exact .inr (.inr ⟨n, e, he, hg.get hget, hnone⟩)

theorem Walk.MayQuote.grown {id : StringId} (h : w.MayQuote s id) (hg : Grown s s') :
    w.MayQuote s' id := by
  intro hstrict
  obtain ⟨n, v, he, hvalue⟩ := h hstrict
  exact ⟨n, v, he, StringTable.value?_of_prefix hg.strings hvalue⟩

/-! ## What results mention -/

/-- Results that may mention entities and literals. -/
class Refers (α : Type) where
  entities : α → List EntityId
  literals : α → List StringId

instance (priority := low) Refers.none : Refers α := ⟨fun _ => [], fun _ => []⟩
instance : Refers EntityId := ⟨fun id => [id], fun _ => []⟩
instance : Refers StringId := ⟨fun _ => [], fun id => [id]⟩
instance : Refers Ir.Expr := ⟨Ir.Expr.entities, Ir.Expr.literals⟩
instance : Refers (List Ir.Expr) := ⟨Ir.Expr.entitiesOfAll, Ir.Expr.literalsOfAll⟩

instance : Refers (Option Ir.Expr) where
  entities x := Ir.Expr.entitiesOfAll x.toList
  literals x := Ir.Expr.literalsOfAll x.toList

instance : Refers Ir.Action := ⟨Ir.Action.entities, Ir.Action.literals⟩

/-- What is mentioned may be mentioned. -/
structure Knows (w : Walk) [Refers α] (x : α) (s : LowerState) : Prop where
  entities : ∀ id ∈ Refers.entities x, w.MayName s id
  literals : ∀ id ∈ Refers.literals x, w.MayQuote s id

/-- Most results mention nothing. -/
theorem Knows.nothing {x : α} : @Knows α w Refers.none x s :=
  letI : Refers α := Refers.none
  ⟨List.forall_mem_nil _, List.forall_mem_nil _⟩

theorem Knows.grown [Refers α] {x : α} (h : Knows w x s) (hg : Grown s s') : Knows w x s' :=
  ⟨fun id hid => (h.entities id hid).grown hg, fun id hid => (h.literals id hid).grown hg⟩

/-! ## Steps -/

/-- One step of a walk. -/
inductive Move (w : Walk) (s : LowerState) : LowerState → Prop where
  | typeId {ref : TypeRef} {types : TypeTable} {id : TypeId} (hr : w.part.Mentions ref)
    (h : s.types.intern ref = .ok (types, id)) : Move w s { s with types }
  | pointerTo {base id : TypeId} {types : TypeTable}
    (h : s.types.pointerTo base = .ok (types, id)) :
    Move w s { s with types }
  | stringId {n : Source.Note} {v : String} (he : w.part.exprs (.str n v)) :
    Move w s { s with strings := (s.strings.intern v).1 }
  | newLabel (hl : w.hasLabels) : Move w s s.takeLabel
  | temporary {type : TypeId} {ref : TypeRef} (h : s.types.refOf type = .ok ref)
    (hc : w.isStrict → w.Carries ref) : Move w s (s.takeTemporary type ref)
  | emit {stmt : Ir.Stmt} (hk : Knows w stmt.action s)
    (hl : w.hasLabels ∨ stmt.placed? = none ∧ stmt.targets = []) : Move w s (s.push stmt)
  | report {location : Option Location} {problem : LoweringProblem} (hl : w.hasLabels)
    (hn : w.hasNames ∨ Finding.isControl ⟨location, problem⟩ = false) :
    Move w s { s with diagnostics := s.diagnostics.error location problem.message }
  | name {named : List NamedLabel} (hn : w.hasNames) : Move w s { s with named }

/-- A run of such steps. -/
abbrev Moves (w : Walk) : LowerState → LowerState → Prop :=
  ReflTransGen (Move w)

/-- A step of a walk is a step of the lowering of the part. -/
theorem Move.step (h : Move w s s') : Step w.part s s' := by
  cases h with
  | typeId hr h => exact .typeId hr h
  | pointerTo h => exact .pointerTo h
  | stringId => exact .stringId _
  | newLabel => exact .newLabel
  | temporary h => exact .temporary h
  | emit => exact .emit _
  | report => exact .report _
  | name => exact .name _

theorem Moves.steps (h : Moves w s s') : Steps w.part s s' :=
  ReflTransGen.mono (fun _ _ => Move.step) _ _ h

theorem Moves.grown (h : Moves w s s') : Grown s s' :=
  h.steps.grown

/-- What the statements mention may be mentioned. -/
theorem Moves.known (h : Moves w s s')
    (hbody : ∀ stmt ∈ s.function.body.toList, Knows w stmt.action s) :
    ∀ stmt ∈ s'.function.body.toList, Knows w stmt.action s' := by
  induction h with
  | refl => exact hbody
  | @tail s₁ s₂ h hmove ih =>
    have hold (stmt) (hstmt : stmt ∈ s₁.function.body.toList) : Knows w stmt.action s₂ :=
      (ih stmt hstmt).grown hmove.step.grown
    cases hmove with
    | @emit stmt hk =>
      have hnew : Knows w stmt.action (s₁.push stmt) :=
        hk.grown (Step.emit (p := w.part) stmt).grown
      intro stmt' hmem
      rcases List.mem_append.1 (Array.toList_push ▸ hmem) with hmem | hmem
      · exact hold stmt' hmem
      · exact List.mem_singleton.1 hmem ▸ hnew
    | _ => exact hold

/-! ## What stays true -/

/-- Something that stays true while the lowering goes on. -/
structure Lasting where
  holds : LowerState → Prop
  lasts : ∀ ⦃s s'⦄, Grown s s' → holds s → holds s'

namespace Lasting

/-- Nothing is claimed. -/
def always : Lasting where
  holds _ := True
  lasts _ _ _ h := h

/-- Both are true. -/
def and (A B : Lasting) : Lasting where
  holds s := A.holds s ∧ B.holds s
  lasts _ _ hg h := ⟨A.lasts hg h.1, B.lasts hg h.2⟩

/-- An entity is in the table. -/
def entity (id : EntityId) (e : Entity) : Lasting where
  holds s := s.entities.get id = .ok e
  lasts _ _ hg h := hg.get h

/-- What is mentioned may be mentioned. -/
def known (w : Walk) [Refers α] (x : α) : Lasting where
  holds := Knows w x
  lasts _ _ hg h := h.grown hg

/-- The type is one that the part mentions, or `void`. -/
def base (w : Walk) (type : TypeId) : Lasting where
  holds s := w.isStrict → ∃ ref, s.types.refOf type = .ok ref ∧ w.IsBase ref
  lasts _ _ hg h hstrict := by
    obtain ⟨ref, href, hbase⟩ := h hstrict
    exact ⟨ref, hg.types.refOf href, hbase⟩

/-- The type is one that a temporary may have. -/
def carried (w : Walk) (type : TypeId) : Lasting where
  holds s := w.isStrict → ∃ ref, s.types.refOf type = .ok ref ∧ w.Carries ref
  lasts _ _ hg h hstrict := by
    obtain ⟨ref, href, hcarries⟩ := h hstrict
    exact ⟨ref, hg.types.refOf href, hcarries⟩

end Lasting

open Lasting (known base carried)

/-- Something is true whenever something else is. Instances of this class put together what is
mentioned by an expression from what its parts mention. -/
class Given (A B : Lasting) : Prop where
  holds : ∀ ⦃s⦄, A.holds s → B.holds s

section Given

variable {A B P : Lasting} {width : Width} {op : Ir.Op} {x y : Ir.Expr} {xs : List Ir.Expr}

instance : Given (A.and B) B := ⟨fun _ => And.right⟩
instance [h : Given A P] : Given (A.and B) P := ⟨fun _ hab => h.holds hab.1⟩

/-- A walk over any program knows nothing, and asks for nothing. -/
theorem Given.of_lax [Refers α] {x : α} (h : ¬ w.isStrict) : Given A (known w x) :=
  ⟨fun _ _ => ⟨fun _ _ hs => absurd hs h, fun _ _ hs => absurd hs h⟩⟩

instance [Refers α] {x : α} : Given A (known .any x) := .of_lax not_false
instance [Refers α] {x : α} : Given A (known .unnamed x) := .of_lax not_false
instance [Refers α] {x : α} : Given A (known .flat x) := .of_lax not_false
instance : Given A (base .any type) := ⟨fun _ _ => False.elim⟩
instance : Given A (base .unnamed type) := ⟨fun _ _ => False.elim⟩
instance : Given A (base .flat type) := ⟨fun _ _ => False.elim⟩

instance [h : Given A (base w type)] : Given A (carried w type) where
  holds _ ha hstrict := by
    obtain ⟨ref, href, hbase⟩ := h.holds ha hstrict
    exact ⟨ref, href, .inl hbase⟩

/-- What mentions nothing. -/
theorem Given.nothing [Refers α] {x : α} (he : Refers.entities x = [])
    (hl : Refers.literals x = []) :
    Given A (known w x) :=
  ⟨fun _ _ => ⟨he ▸ List.forall_mem_nil _, hl ▸ List.forall_mem_nil _⟩⟩

/-- What mentions nothing else than something else does. -/
theorem Given.same [Refers α] [Refers β] {x : α} {y : β} [h : Given A (known w x)]
    (he : Refers.entities y = Refers.entities x) (hl : Refers.literals y = Refers.literals x) :
    Given A (known w y) :=
  ⟨fun _ ha => ⟨he ▸ (h.holds ha).entities, hl ▸ (h.holds ha).literals⟩⟩

/-- What mentions nothing else than two other things do. -/
theorem Given.both [Refers α] [Refers β] [Refers γ] {x : α} {y : β} {z : γ}
    [hx : Given A (known w x)] [hy : Given A (known w y)]
    (he : Refers.entities z = Refers.entities x ++ Refers.entities y)
    (hl : Refers.literals z = Refers.literals x ++ Refers.literals y) : Given A (known w z) where
  holds _ ha := by
    constructor
    · rw [he]
      exact List.forall_mem_append.2 ⟨(hx.holds ha).entities, (hy.holds ha).entities⟩
    · rw [hl]
      exact List.forall_mem_append.2 ⟨(hx.holds ha).literals, (hy.holds ha).literals⟩

instance {x : α} : Given A (@known α w Refers.none x) := ⟨fun _ _ => .nothing⟩

instance {v : Int64} : Given A (known w (Ir.Expr.int width v)) := .nothing rfl rfl
instance {id : StringId} [Given A (known w id)] : Given A (known w (Ir.Expr.str width id)) :=
  .same (x := id) rfl rfl
instance [Given A (known w id)] : Given A (known w (Ir.Expr.var width id)) :=
  .same (x := id) rfl rfl
instance [Given A (known w id)] : Given A (known w (Ir.Expr.addr width id)) :=
  .same (x := id) rfl rfl
instance [Given A (known w x)] : Given A (known w (Ir.Expr.mem width x)) := .same (x := x) rfl rfl
instance [Given A (known w x)] : Given A (known w (Ir.Expr.uni width op x)) :=
  .same (x := x) rfl rfl
instance [Given A (known w x)] [Given A (known w y)] :
    Given A (known w (Ir.Expr.bin width op x y)) :=
  .both (x := x) (y := y) rfl rfl
instance [Given A (known w x)] [Given A (known w xs)] :
    Given A (known w (Ir.Expr.call width x xs)) :=
  .both (x := x) (y := xs) rfl rfl

instance : Given A (known w ([] : List Ir.Expr)) := .nothing rfl rfl
instance [Given A (known w x)] [Given A (known w xs)] : Given A (known w (x :: xs)) :=
  .both (x := x) (y := xs) rfl rfl

instance : Given A (known w (none : Option Ir.Expr)) := .nothing rfl rfl

theorem entities_some : Refers.entities (some x) = Refers.entities x :=
  List.append_nil _

theorem literals_some : Refers.literals (some x) = Refers.literals x :=
  List.append_nil _

instance [Given A (known w x)] : Given A (known w (some x)) := .same entities_some literals_some

theorem Given.of_some [Given A (known w (some x))] : Given A (known w x) :=
  .same entities_some.symm literals_some.symm

instance {d : Demand} [Given A (known w x)] : Given A (known w (d.answer x)) := by
  cases d <;> unfold Demand.answer <;> infer_instance

instance [Given A (known w x)] : Given A (known w (truth width x)) := by
  unfold truth
  infer_instance

/-- The address of a location mentions what the location mentions. -/
theorem Given.addressOf? {ptr : Width} {address : Ir.Expr} [h : Given A (known w x)]
    (ha : x.addressOf? ptr = some address) : Given A (known w address) := by
  cases x with
  | var | mem =>
    obtain rfl := Option.some.inj ha
    exact ⟨fun _ hs => ⟨(h.holds hs).entities, (h.holds hs).literals⟩⟩
  | _ => cases ha

end Given

/-! ## Literals that are looked up -/

/-- The literals of some expressions are looked up on the way from one state to another, in the
order in which the expressions are evaluated. -/
def InternsLiterals (t : EntityTable) (es : List Source.Expr) (s s' : LowerState) : Prop :=
  ∃ visited, Visits t es visited ∧ s'.strings = s.strings.internAll (literals visited)

namespace InternsLiterals

variable {t : EntityTable} {es es' : List Source.Expr} {e value : Source.Expr}

theorem of_same (h : s'.strings = s.strings) : InternsLiterals t [] s s' :=
  ⟨[], .nil, h⟩

/-- Literals are interned one after another. -/
theorem trans (h : InternsLiterals t es s s₁) (h' : InternsLiterals t es' s₁ s') :
    InternsLiterals t (es ++ es') s s' := by
  obtain ⟨a, ha, hstrings⟩ := h
  obtain ⟨b, hb, hstrings'⟩ := h'
  refine ⟨a ++ b, ha.append hb, ?_⟩
  rw [hstrings', hstrings, Source.literals_append, StringTable.internAll_append]

/-- An expression that is no string literal, and no constant, is evaluated by evaluating its
operands. -/
theorem node (h : InternsLiterals t e.evaluated s s') (hconstant : e.constant? t = none)
    (hliteral : e.literal? = none) : InternsLiterals t [e] s s' := by
  obtain ⟨visited, hvisits, hstrings⟩ := h
  refine ⟨visited ++ [e], hvisits.single_node hconstant, ?_⟩
  simpa [literals, hliteral] using hstrings

/-- A constant is evaluated by evaluating its value. -/
theorem constant (h : InternsLiterals t [value] s s') (hconstant : e.constant? t = some value) :
    InternsLiterals t [e] s s' := by
  obtain ⟨visited, hvisits, hstrings⟩ := h
  exact ⟨visited, hvisits.single_constant hconstant, hstrings⟩

end InternsLiterals

/-- There were no errors before there are any. -/
theorem hasErrors_mono {a b : Diagnostics} (h : a <+: b) (hb : b.hasErrors = false) :
    a.hasErrors = false := by
  obtain ⟨c, rfl⟩ := h
  simp_all [Diagnostics.hasErrors, Diagnostics.errorCount, Diagnostics.errors]

end Backend386.Lower
