import Backend386.Proofs.Lowering.Steps
import Backend386.Proofs.Source.Evaluated

/-!
# What the lowering of a unit carries on

From one function to the next, the types, the literals, the problems and the entities are carried
on. The entities of the program keep all but their types, their uses and their numbers, and all that
is added to them are temporaries. So what a program declares is found in every state of its
lowering.

* `Lower.Carried` — what is carried on;
* `EntityTable.Readied` — what has become of the entities of a program while it is lowered;
* `EntityTable.Readied.constant?_eq`, `EntityTable.Readied.initial?_eq` — what they declare.
-/

namespace Backend386

namespace Lower

variable {s s' s₁ : LowerState} {p : Source.Part}

/-- What is carried on from one function to the next. -/
structure Carried (s s' : LowerState) : Prop where
  types : s.types.Extends s'.types
  strings : s.strings.entries <+: s'.strings.entries
  diagnostics : s.diagnostics <+: s'.diagnostics
  entities : EntityTable.Passes Entity.Numbered s.entities s'.entities
  temps : ∀ ⦃id e⦄, s'.entities.get id = .ok e → s.entities.size ≤ id.index → e.IsTemp

namespace Carried

/-- Nothing has to be carried on where nothing happens. -/
theorem refl (s : LowerState) : Carried s s where
  types := .refl
  strings := List.prefix_rfl
  diagnostics := List.prefix_rfl
  entities := .refl Entity.Numbered.refl _
  temps := fun _ _ he hle => absurd (EntityTable.lt_of_get he) (not_lt.2 hle)

theorem size_le (h : Carried s s') : s.entities.size ≤ s'.entities.size :=
  EntityTable.Passes.size_le h.entities

/-- Steps may follow one another. -/
theorem trans (h : Carried s s₁) (h' : Carried s₁ s₂) : Carried s s₂ where
  types := h.types.trans h'.types
  strings := h.strings.trans h'.strings
  diagnostics := h.diagnostics.trans h'.diagnostics
  entities := h.entities.trans (fun _ _ _ => .trans) h'.entities
  temps := by
    intro id e he hle
    by_cases hlt : id.index < s₁.entities.size
    · -- a temporary of the first run, perhaps with another number since
      obtain ⟨e₁, he₁⟩ := EntityTable.exists_get hlt
      obtain ⟨e₂, he₂, _, rfl⟩ := h'.entities he₁
      obtain rfl := Except.ok.inj (he₂.symm.trans he)
      obtain ⟨hkind, hprivate, hstorage, htype⟩ := h.temps he₁ hle
      exact ⟨hkind, hprivate, hstorage, htype⟩
    · exact h'.temps he (not_lt.1 hlt)

/-- An entity that was there before, with its number aside, or a temporary. -/
theorem get_cases (h : Carried s s') {id : EntityId} {e : Entity}
    (he : s'.entities.get id = .ok e) :
    (∃ e₀, s.entities.get id = .ok e₀ ∧ e₀.Numbered e) ∨ e.IsTemp := by
  by_cases hlt : id.index < s.entities.size
  · obtain ⟨e₀, he₀⟩ := EntityTable.exists_get hlt
    obtain ⟨e', he', hnumbered⟩ := h.entities he₀
    obtain rfl := Except.ok.inj (he'.symm.trans he)
    exact .inl ⟨e₀, he₀, hnumbered⟩
  · exact .inr (h.temps he (not_lt.1 hlt))

/-- Temporaries hold no expressions, so that nothing is left to cover. -/
theorem covers (h : Carried s s') (hc : p.Covers s.entities) : p.Covers s'.entities where
  operand := hc.operand
  defined := by
    intro id d e hd he
    rcases h.get_cases hd with ⟨d₀, hd₀, _, rfl⟩ | htemp
    · exact hc.defined hd₀ he
    · simp [Entity.exprs, htemp.kind] at he
  vars := hc.vars

end Carried

/-- Where entities are only added, those that are there stay. -/
theorem Grown.carried (h : Grown s s') : Carried s s' where
  types := h.types
  strings := h.strings
  diagnostics := h.diagnostics
  entities := fun id e he => ⟨e, h.get he, .refl e⟩
  temps := by
    intro id e he hle
    rcases h.get_cases he with hold | ⟨htemp, -⟩
    · exact absurd (EntityTable.lt_of_get hold) (not_lt.2 hle)
    · exact htemp

end Lower

/-! ## The entities of a program -/

/-- The entity has a type, its uses were counted and it may have been numbered. -/
def Entity.Readied (e e' : Entity) : Prop :=
  ∃ type uses sequence, e' = { e with type := .settled type, uses, sequence }

/-- The entities of a program while it is lowered. All that has been added to them are
temporaries. -/
structure EntityTable.Readied (t t' : EntityTable) : Prop where
  passes : Passes Entity.Readied t t'
  temps : ∀ ⦃id e⦄, t'.get id = .ok e → t.size ≤ id.index → e.IsTemp

namespace EntityTable.Readied

variable {t t' : EntityTable} {id : EntityId} {e : Entity}

/-- An entity of the program, or a temporary. -/
theorem get_cases (h : t.Readied t') (he : t'.get id = .ok e) :
    (∃ e₀, t.get id = .ok e₀ ∧ e₀.Readied e) ∨ e.IsTemp ∧ t.size ≤ id.index := by
  by_cases hlt : id.index < t.size
  · obtain ⟨e₀, he₀⟩ := exists_get hlt
    obtain ⟨e', he', hready⟩ := h.passes he₀
    obtain rfl := Except.ok.inj (he'.symm.trans he)
    exact .inl ⟨e₀, he₀, hready⟩
  · exact .inr ⟨h.temps he (not_lt.1 hlt), not_lt.1 hlt⟩

/-- Every entity has a type. -/
theorem typed (h : t.Readied t') (he : t'.get id = .ok e) : ∃ type, e.type = .settled type := by
  rcases h.get_cases he with ⟨e₀, -, type, uses, sequence, rfl⟩ | ⟨htemp, -⟩
  · exact ⟨type, rfl⟩
  · exact htemp.type

/-- Temporaries hold no expressions, so that nothing more is lowered along with a part. -/
theorem occurs (h : t.Readied t') {part : Source.Part} {x : Source.Expr}
    (hx : Source.Occurs t' part x) : Source.Occurs t part x := by
  induction hx with
  | root h => exact .root h
  | operand _ ho ih => exact .operand ih ho
  | constant _ hc hv ih =>
    rcases h.get_cases hc with ⟨c, hc₀, type, uses, sequence, rfl⟩ | ⟨htemp, -⟩
    · exact .constant ih hc₀ hv
    · rw [Entity.constantValue?, htemp.kind] at hv
      cases hv
  | initial hvar hv hi =>
    rcases h.get_cases hv with ⟨v, hv₀, type, uses, sequence, rfl⟩ | ⟨htemp, -⟩
    · exact .initial hvar hv₀ hi
    · rw [Entity.initializer?, htemp.kind] at hi
      cases hi

/-- What has been settled of the entities stays as it is. -/
theorem carried {s s' : LowerState} (h : t.Readied s.entities) (hc : Lower.Carried s s') :
    t.Readied s'.entities where
  passes := fun id e he => by
    obtain ⟨e₁, he₁, type, uses, number, rfl⟩ := h.passes he
    obtain ⟨e₂, he₂, sequence, rfl⟩ := hc.entities he₁
    exact ⟨_, he₂, type, uses, sequence, rfl⟩
  temps := fun id e he hle => by
    rcases hc.get_cases he with ⟨e₀, he₀, sequence, rfl⟩ | htemp
    · obtain ⟨hkind, hprivate, hstorage, htype⟩ := h.temps he₀ hle
      exact ⟨hkind, hprivate, hstorage, htype⟩
    · exact htemp

/-! ### What is looked up -/

/-- What is looked up in an entity is the same before the lowering, if neither its type nor its uses
nor its number nor a temporary counts. -/
theorem lookup_eq (h : t.Readied t') {α : Type} {f : Entity → Option α}
    (hready : ∀ e e', e.Readied e' → f e' = f e) (htemp : ∀ e, e.IsTemp → f e = none)
    (he : t'.get id = .ok e) : (t.get id).toOption.bind f = f e := by
  rcases h.get_cases he with ⟨e₀, he₀, hready'⟩ | ⟨htemp', hle⟩
  · rw [he₀]
    exact (hready e₀ e hready').symm
  · cases he₀ : t.get id with
    | ok e₀ => exact absurd (EntityTable.lt_of_get he₀) (not_lt.2 hle)
    | error fault => exact (htemp e htemp').symm

theorem constant?_eq (h : t.Readied t') (he : t'.get id = .ok e) :
    t.constant? id = e.constantValue? :=
  h.lookup_eq (by rintro e _ ⟨type, uses, sequence, rfl⟩; rfl)
    (fun e he => by rw [Entity.constantValue?, he.kind]) he

theorem initializer?_eq (h : t.Readied t') (he : t'.get id = .ok e) :
    t.initializer? id = e.initializer? :=
  h.lookup_eq (by rintro e _ ⟨type, uses, sequence, rfl⟩; rfl)
    (fun e he => by rw [Entity.initializer?, he.kind]) he

theorem initial?_eq (h : t.Readied t') (he : t'.get id = .ok e) :
    t.initial? id = if e.isPrivate then none else e.initializer? :=
  h.lookup_eq (f := fun e => if e.isPrivate then none else e.initializer?)
    (by rintro e _ ⟨type, uses, sequence, rfl⟩; rfl)
    (fun e he => by rw [Entity.initializer?, he.kind, ite_self]) he

end EntityTable.Readied

end Backend386
