import Backend386.Proofs.Lowering.State
import Backend386.Proofs.Source.Occurs
import Backend386.Proofs.Strings.Table
import Backend386.Proofs.Types.References
import Backend386.Proofs.Types.Table

/-!
# What the lowering can do

While a function is being lowered, its state changes in a few ways only: types and string literals
are looked up, labels and temporaries are taken, statements are appended, problems are reported and
the names of labels are noted. What holds of all of these holds of every run.

* `Lower.Step` — the ways in which the state changes;
* `Lower.Grown` — what a run of such steps leaves as it was, and what it adds;
* `Lower.typeId_eq_ok`, `Lower.temporary_eq_ok`, … — the computations that take one step.
-/

namespace Backend386

/-- A temporary: a variable of a function that has a type and no initializer. -/
structure Entity.IsTemp (e : Entity) : Prop where
  kind : e.kind = .definedVariable none
  automatic : e.isPrivate = false
  storage : e.storage = .pending
  type : ∃ type, e.type = .settled type

namespace Lower

open Relation (ReflTransGen)

variable {s s' s₁ : LowerState} {p : Source.Part}

/-! ## Steps -/

/-- One change of the state, when a part of a program is lowered. The types that are looked up are
those that the part mentions, and pointers to types of the table. -/
inductive Step (p : Source.Part) (s : LowerState) : LowerState → Prop where
  | typeId {ref : TypeRef} {types : TypeTable} {id : TypeId} (hr : p.Mentions ref)
    (h : s.types.intern ref = .ok (types, id)) : Step p s { s with types }
  | pointerTo {base id : TypeId} {types : TypeTable}
    (h : s.types.pointerTo base = .ok (types, id)) :
    Step p s { s with types }
  | stringId (value : String) : Step p s { s with strings := (s.strings.intern value).1 }
  | newLabel : Step p s s.takeLabel
  | temporary {type : TypeId} {ref : TypeRef} (h : s.types.refOf type = .ok ref) :
    Step p s (s.takeTemporary type ref)
  | emit (stmt : Ir.Stmt) : Step p s (s.push stmt)
  | report (d : Diagnostic) : Step p s { s with diagnostics := s.diagnostics ++ [d] }
  | name (named : List NamedLabel) : Step p s { s with named }

/-- A run of such changes. -/
abbrev Steps (p : Source.Part) : LowerState → LowerState → Prop :=
  ReflTransGen (Step p)

/-! ## What a run adds -/

/-- The numbers of the entities from one number on. -/
def idsFrom (start count : Nat) : List EntityId :=
  (List.range' start count).map EntityId.mk

theorem mem_idsFrom {start count : Nat} {id : EntityId} :
    id ∈ idsFrom start count ↔ start ≤ id.index ∧ id.index < start + count := by
  cases id
  simp [idsFrom, List.mem_range'_1]

theorem idsFrom_append (start a b : Nat) :
    idsFrom start (a + b) = idsFrom start a ++ idsFrom (start + a) b := by
  rw [idsFrom, ← List.range'_append_1, List.map_append]
  rfl

/-- What a run leaves as it was, and what it adds. The entities it adds are the temporaries that it
adds to the outermost scope. -/
structure Grown (s s' : LowerState) : Prop where
  types : s.types.Extends s'.types
  strings : s.strings.entries <+: s'.strings.entries
  labels : s.labels.next ≤ s'.labels.next
  diagnostics : s.diagnostics <+: s'.diagnostics
  body : s.function.body.toList <+: s'.function.body.toList
  entity : s'.function.entity = s.function.entity
  params : s'.function.params = s.function.params
  children : s'.function.scope.children = s.function.scope.children
  /-- the temporaries are new entities, in order -/
  added : ∃ new : List Entity, s'.entities.entries = s.entities.entries ++ new ∧
    s'.function.scope.vars = s.function.scope.vars ++ idsFrom s.entities.size new.length ∧
    ∀ e ∈ new, e.IsTemp

namespace Grown

/-- A state grows by nothing. -/
theorem refl (s : LowerState) : Grown s s where
  types := .refl
  strings := List.prefix_rfl
  labels := le_rfl
  diagnostics := List.prefix_rfl
  body := List.prefix_rfl
  entity := rfl
  params := rfl
  children := rfl
  added := ⟨[], by simp, by simp [idsFrom], by simp⟩

/-- What has grown may grow on. -/
theorem trans (h₁ : Grown s s₁) (h₂ : Grown s₁ s₂) : Grown s s₂ where
  types := h₁.types.trans h₂.types
  strings := h₁.strings.trans h₂.strings
  labels := h₁.labels.trans h₂.labels
  diagnostics := h₁.diagnostics.trans h₂.diagnostics
  body := h₁.body.trans h₂.body
  entity := h₂.entity.trans h₁.entity
  params := h₂.params.trans h₁.params
  children := h₂.children.trans h₁.children
  added := by
    obtain ⟨a, hentities, hvars, htemp⟩ := h₁.added
    obtain ⟨b, hentities', hvars', htemp'⟩ := h₂.added
    refine ⟨a ++ b, ?_, ?_, ?_⟩
    · rw [hentities', hentities, List.append_assoc]
    · have hsize : s₁.entities.size = s.entities.size + a.length := by
        rw [EntityTable.size, hentities, List.length_append]
        rfl
      rw [hvars', hvars, hsize, List.length_append, idsFrom_append, List.append_assoc]
    · intro e he
      rcases List.mem_append.1 he with he | he
      · exact htemp e he
      · exact htemp' e he

/-- Nothing but the state of the supplies changes. -/
theorem of_same {types : TypeTable} {strings : StringTable} {labels : Ir.LabelSupply}
    {ds : Diagnostics} {named : List NamedLabel} (htypes : s.types.Extends types)
    (hstrings : s.strings.entries <+: strings.entries) (hlabels : s.labels.next ≤ labels.next)
    (hds : s.diagnostics <+: ds) :
    Grown s { s with types, strings, labels, diagnostics := ds, named } :=
  { refl s with types := htypes, strings := hstrings, labels := hlabels, diagnostics := hds }

theorem entities (h : Grown s s') : s.entities.entries <+: s'.entities.entries := by
  obtain ⟨new, hentities, -⟩ := h.added
  exact hentities ▸ List.prefix_append ..

/-- The entities that were there stay what they were. -/
theorem get (h : Grown s s') {id : EntityId} {e : Entity} (he : s.entities.get id = .ok e) :
    s'.entities.get id = .ok e := by
  obtain ⟨new, hentities, -⟩ := h.added
  rw [EntityTable.get_eq_ok_iff] at he ⊢
  rw [hentities, List.getElem?_append_left (List.getElem?_eq_some_iff.1 he).1, he]

/-- An entity was there, or it is a temporary. -/
theorem get_cases (h : Grown s s') {id : EntityId} {e : Entity} (he : s'.entities.get id = .ok e) :
    s.entities.get id = .ok e ∨
      e.IsTemp ∧ s.entities.size ≤ id.index ∧ id ∈ s'.function.scope.vars := by
  obtain ⟨new, hentities, hvars, htemp⟩ := h.added
  rw [EntityTable.get_eq_ok_iff, hentities] at he
  rw [EntityTable.get_eq_ok_iff]
  by_cases hlt : id.index < s.entities.size
  · rw [List.getElem?_append_left hlt] at he
    exact .inl he
  · rw [List.getElem?_append_right (not_lt.1 hlt)] at he
    refine .inr ⟨htemp e (List.mem_of_getElem? he), not_lt.1 hlt, ?_⟩
    -- the number of the entity is that of a temporary which was added to the scope
    have hindex := (List.getElem?_eq_some_iff.1 he).1
    rw [hvars]
    refine List.mem_append_right _ (mem_idsFrom.2 ⟨not_lt.1 hlt, ?_⟩)
    change id.index - s.entities.size < new.length at hindex
    omega

/-- Temporaries are no constants and have no initializers, so that a closed part stays closed. -/
theorem closed (h : Grown s s') (hc : p.Closed s.entities) :
    p.Closed s'.entities where
  operand := hc.operand
  constant := by
    intro n id c value hvar hget hvalue
    rcases h.get_cases hget with hget | ⟨htemp, -⟩
    · exact hc.constant hvar hget hvalue
    · rw [Entity.constantValue?, htemp.kind] at hvalue
      cases hvalue
  initial := by
    intro id v init hvar hget hprivate hinit
    rcases h.get_cases hget with hget | ⟨htemp, -⟩
    · exact hc.initial hvar hget hprivate hinit
    · rw [Entity.initializer?, htemp.kind] at hinit
      cases hinit

end Grown

/-- A temporary is one entity more. -/
theorem grown_takeTemporary {type : TypeId} {ref : TypeRef} :
    Grown s (s.takeTemporary type ref) :=
  { Grown.refl s with
    added := by
      refine ⟨[⟨"@tmp" ++ s.entities.size.repr, ref, false, none, .definedVariable none,
        .settled type, .pending, 0, none⟩], rfl, rfl, ?_⟩
      simp only [List.mem_singleton, forall_eq]
      exact ⟨rfl, rfl, rfl, type, rfl⟩ }

/-- Each step only adds. -/
theorem Step.grown (h : Step p s s') : Grown s s' := by
  cases h with
  | typeId hr h =>
    exact .of_same (TypeTable.intern_extends h).1 List.prefix_rfl le_rfl List.prefix_rfl
  | pointerTo h =>
    obtain ⟨ref, -, h⟩ := Backend386.bind_eq_ok_iff.1 h
    exact .of_same (TypeTable.intern_extends h).1 List.prefix_rfl le_rfl List.prefix_rfl
  | stringId value =>
    exact .of_same .refl StringTable.prefix_intern le_rfl List.prefix_rfl
  | newLabel => exact .of_same .refl List.prefix_rfl (Nat.le_succ _) List.prefix_rfl
  | temporary h => exact grown_takeTemporary
  | emit stmt => exact { Grown.refl s with body := by simp [List.prefix_append] }
  | report d => exact .of_same .refl List.prefix_rfl le_rfl (List.prefix_append ..)
  | name named => exact .of_same .refl List.prefix_rfl le_rfl List.prefix_rfl

/-- What every step leaves and adds, a run does. -/
theorem Steps.grown (h : Steps p s s') : Grown s s' := by
  induction h with
  | refl => exact .refl s
  | tail _ h ih => exact ih.trans h.grown

/-! ## Computations of one step -/

section

variable {type : TypeId} {ref : TypeRef} {location : Option Location}

/-- What is looked up, and the state afterwards. -/
theorem typeId_eq_ok {type : TypeId} (h : typeId ref s = .ok (type, s')) :
    ∃ types, s.types.intern ref = .ok (types, type) ∧ s' = { s with types } := by
  obtain ⟨⟨types, id⟩, s₁, hask, hset⟩ := bind_eq_ok_iff.1 h
  obtain ⟨hintern, rfl⟩ := lift_eq_ok (get_bind_eq_ok hask)
  obtain ⟨rfl, rfl⟩ := Prod.mk.inj (Except.ok.inj hset)
  exact ⟨types, hintern, rfl⟩

/-- The type of a pointer, and the state afterwards. -/
theorem pointerTo_eq_ok {type' : TypeId} (h : pointerTo type s = .ok (type', s')) :
    ∃ types, s.types.pointerTo type = .ok (types, type') ∧ s' = { s with types } := by
  obtain ⟨⟨types, id⟩, s₁, hask, hset⟩ := bind_eq_ok_iff.1 h
  obtain ⟨hpointer, rfl⟩ := lift_eq_ok (get_bind_eq_ok hask)
  obtain ⟨rfl, rfl⟩ := Prod.mk.inj (Except.ok.inj hset)
  exact ⟨types, hpointer, rfl⟩

/-- The literal that is looked up. -/
theorem stringId_eq_ok {v : String} {id : StringId} (h : stringId v s = .ok (id, s')) :
    s' = { s with strings := (s.strings.intern v).1 } ∧ s'.strings.value? id = some v := by
  obtain ⟨rfl, rfl⟩ := Prod.mk.inj (Except.ok.inj h)
  exact ⟨rfl, StringTable.value?_intern⟩

/-- What the type table answers leaves the state as it is. -/
theorem ask_eq_ok {α : Type} {question : TypeTable → Except Fault α} {x : α}
    (h : ask question s = .ok (x, s')) : question s.types = .ok x ∧ s' = s :=
  lift_eq_ok (get_bind_eq_ok h)

/-- The type `void` is registered as such. -/
theorem void_eq_ok {id : TypeId} (h : ask (·.void) s = .ok (id, s')) :
    s' = s ∧ s.types.refOf id = .ok .void := by
  obtain ⟨hvoid, rfl⟩ := ask_eq_ok h
  dsimp only [TypeTable.void] at hvoid
  split at hvoid
  · next found hlookup =>
    obtain rfl := Except.ok.inj hvoid
    exact ⟨rfl, TypeTable.refOf_of_lookup? hlookup⟩
  · cases hvoid

/-- An entity that is looked up. -/
theorem entity_eq_ok {id : EntityId} {e : Entity} (h : entity id s = .ok (e, s')) :
    s.entities.get id = .ok e ∧ s' = s :=
  lift_eq_ok (get_bind_eq_ok h)

/-- The statement that is appended. -/
theorem emit_eq_ok {action : Ir.Action} {u : Unit} (h : emit location action s = .ok (u, s')) :
    s' = s.push ⟨action, location⟩ := by
  obtain ⟨-, rfl⟩ := Prod.mk.inj (Except.ok.inj h)
  rfl

/-- A new temporary is the last variable of the outermost scope. -/
theorem temporary_eq_ok {id : EntityId} (h : temporary type s = .ok (id, s')) :
    ∃ ref, s.types.refOf type = .ok ref ∧ id = ⟨s.entities.size⟩ ∧
      s' = s.takeTemporary type ref := by
  have hrefs : ∃ ref, s.types.refOf type = .ok ref := by
    obtain ⟨⟨function, entities, id⟩, hadd, -⟩ := lift_bind_eq_ok (get_bind_eq_ok h)
    obtain ⟨⟨scope, entities, id⟩, hadd, -⟩ := Backend386.bind_eq_ok_iff.1 hadd
    obtain ⟨⟨entities, id⟩, hadd, -⟩ := Backend386.bind_eq_ok_iff.1 hadd
    obtain ⟨ref, hrefs, -⟩ := Backend386.bind_eq_ok_iff.1 hadd
    exact ⟨ref, hrefs⟩
  obtain ⟨ref, hrefs⟩ := hrefs
  have hrun := (@makes_temporary s 0 type ref hrefs).run
  obtain ⟨rfl, rfl⟩ := Prod.mk.inj (Except.ok.inj (h.symm.trans hrun))
  exact ⟨ref, hrefs, rfl, rfl⟩

end

end Lower

end Backend386
