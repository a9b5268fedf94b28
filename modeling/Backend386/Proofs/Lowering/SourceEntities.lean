import Backend386.Proofs.Lowering.Units
import Backend386.Proofs.Source.Evaluated
import Backend386.Proofs.Stages

/-!
# The entities of a program while it is lowered

What is looked up in the entities while a program is lowered is what stands in the program, since
they keep all but their types, uses and numbers, and since temporaries hold nothing.

* `EntityTable.Readied.body?_eq`, `EntityTable.Readied.withPrivacy_eq` — the functions and the
  static variables;
* `Lower.Grown.filterMap_variables` — the variables of a function are those of its body and
  temporaries;
* `Lower.declare_functions` — the functions of a unit are those that it declares, in this order.
-/

namespace Backend386

namespace EntityTable.Readied

variable {t t' : EntityTable} {id : EntityId} {e : Entity}

theorem declared?_eq (h : t.Readied t') (he : t'.get id = .ok e) :
    t.declared? id = e.constantValue?.or e.initializer? := by
  rw [declared?, h.constant?_eq he, h.initializer?_eq he]

theorem body?_eq (h : t.Readied t') (he : t'.get id = .ok e) : t.body? id = t'.body? id := by
  rw [body?, body?, he]
  exact h.lookup_eq (by rintro e _ ⟨type, uses, sequence, rfl⟩; rfl)
    (fun e he => by simp only [he.kind]) he

/-- The static variables are the same, since temporaries are not static. -/
theorem withPrivacy_eq (h : t.Readied t') (ids : List EntityId) :
    t'.withPrivacy true ids = t.withPrivacy true ids := by
  refine List.filter_congr fun id _ => ?_
  have hnone (hout : ∀ e, t.get id ≠ .ok e) : (t.get id).toOption = none := by
    cases he : t.get id with
    | ok e => exact absurd he (hout e)
    | error fault => rfl
  cases he : t'.get id with
  | ok e =>
    rcases h.get_cases he with ⟨e₀, he₀, type, uses, sequence, rfl⟩ | ⟨htemp, hle⟩
    · rw [he₀]
      rfl
    · rw [hnone fun e₀ he₀ => absurd (lt_of_get he₀) (not_lt.2 hle)]
      simp [Except.toOption, htemp.automatic]
  | error fault =>
    rw [hnone fun e₀ he₀ => ?_]
    · rfl
    · obtain ⟨e', he', -⟩ := h.passes he₀
      rw [he] at he'
      cases he'

end EntityTable.Readied

/-- What is made of entities in turn is made of the functions among them, if nothing is made of the
others. -/
theorem EntityTable.flatMap_functions {t : EntityTable} {α : Type} {f : EntityId → List α}
    (hnone : ∀ id, t.body? id = none → f id = []) (ids : List EntityId) :
    (ids.filter fun id => (t.body? id).isSome).flatMap f = ids.flatMap f := by
  induction ids with
  | nil => rfl
  | cons id ids ih =>
    cases hbody : t.body? id with
    | none =>
      rw [List.filter_cons_of_neg (by simp [hbody]), ih, List.flatMap_cons, hnone id hbody,
        List.nil_append]
    | some body =>
      rw [List.filter_cons_of_pos (by simp [hbody]), List.flatMap_cons, ih, List.flatMap_cons]

namespace Lower

variable {s s' : LowerState} {t : EntityTable}

/-- What is made of the variables of a function is made of those that it had before, if nothing is
made of temporaries. -/
theorem Grown.filterMap_variables {α : Type} {f : EntityId → Option α} (h : Grown s s')
    (hnone : ∀ id, s.entities.size ≤ id.index → f id = none) :
    s'.function.scope.variablesOfTree.filterMap f =
      s.function.scope.variablesOfTree.filterMap f := by
  obtain ⟨new, -, hvars, -⟩ := h.added
  have htemps : (idsFrom s.entities.size new.length).filterMap f = [] :=
    List.filterMap_eq_nil_iff.2 fun id hid => hnone id (mem_idsFrom.1 hid).1
  rw [Scope.variablesOfTree_eq, Scope.variablesOfTree_eq, hvars, h.children]
  simp only [List.filterMap_append, htemps, List.append_nil]

/-- The declared functions are kept for later, in the order of the declarations. -/
theorem declare_functions {d d' : Declared} {ids : List EntityId} (hs : t.Readied s.entities)
    (h : declare d ids s = .ok (d', s')) :
    d'.functions = d.functions ++ ids.filter fun id => (t.body? id).isSome := by
  induction ids generalizing d s with
  | nil =>
    obtain ⟨rfl, rfl⟩ := Prod.mk.inj (Except.ok.inj h)
    exact (List.append_nil _).symm
  | cons id ids ih =>
    obtain ⟨e, s₁, he, hrest⟩ := bind_eq_ok_iff.1 h
    obtain ⟨he, hsame⟩ := lift_eq_ok (get_bind_eq_ok he)
    rw [hsame] at hrest
    have hbody := hs.body?_eq he
    -- only a function is added to the functions
    have hother {d₁ : Declared} {s₂ : LowerState} (hcarried : Carried s s₂)
        (hothers : declare d₁ ids s₂ = .ok (d', s')) (hd : d₁.functions = d.functions)
        (hkind : ∀ params body, e.kind ≠ .definedFunction params body) :
        d'.functions = d.functions ++ (id :: ids).filter fun id => (t.body? id).isSome := by
      rw [ih (hs.carried hcarried) hothers, hd, List.filter_cons_of_neg]
      simp [hbody, EntityTable.body?_eq_none he hkind]
    cases hkind : e.kind with
    | parameter =>
      simp only [hkind] at hrest
      cases hrest
    | undefinedVariable | undefinedFunction =>
      simp only [hkind] at hrest
      exact hother (.refl s) hrest rfl (by simp [hkind])
    | definedFunction params body =>
      simp only [hkind] at hrest
      rw [ih hs hrest, List.filter_cons_of_pos, List.append_assoc, List.singleton_append]
      simp [hbody, EntityTable.body?_eq_some he hkind]
    | constant value =>
      simp only [hkind] at hrest
      obtain ⟨result, s₂, hvalue, hothers⟩ := bind_eq_ok_iff.1 hrest
      exact hother (UnitStepwise.carried inferInstance hvalue) hothers rfl
        (by simp [hkind])
    | definedVariable init =>
      simp only [hkind] at hrest
      obtain ⟨v, s₂, hvar, hothers⟩ := bind_eq_ok_iff.1 hrest
      exact hother (UnitStepwise.carried inferInstance hvar) hothers rfl
        (by simp [hkind])

end Lower

end Backend386
