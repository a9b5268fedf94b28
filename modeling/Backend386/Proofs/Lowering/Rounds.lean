import Backend386.Proofs.Lowering.Bodies

/-!
# The rounds of a lowering

A unit is lowered in two rounds: first what is declared, then the functions. The entities that are
given are left as they are, but for the numbers of static variables.

* `Source.Program.Rounds` — the two rounds, and `Source.Program.rounds_of_ok`;
* `Source.Program.Rounds.function` — how each function was lowered;
* `Source.Program.Rounds.kept` — what becomes of the entities that are given.
-/

namespace Backend386

namespace Lower

variable {α β : Type} {s s' s₁ : LowerState} {id : EntityId} {ids : List EntityId}

/-! ## The entities that are given -/

/-- A computation that leaves the entities as they are, and may append others. -/
class Appends (m : Lower α) : Prop where
  entities : ∀ ⦃s x s'⦄, m s = .ok (x, s') → s.entities.entries <+: s'.entities.entries

namespace Appends

variable {m : Lower α} {f : α → Lower β}

instance (priority := low) of_additive [hm : Additive m] : Appends m where
  entities := fun _ _ _ h => (hm.grown h).entities

instance bind [hm : Appends m] [hf : ∀ x, Appends (f x)] : Appends (m >>= f) where
  entities := fun s y s' h => by
    obtain ⟨x, s₁, hx, hy⟩ := bind_eq_ok_iff.1 h
    exact (hm.entities hx).trans ((hf x).entities hy)

instance ite {c : Prop} [Decidable c] {m' : Lower α} [Appends m] [Appends m'] :
    Appends (if c then m else m') := by
  split <;> infer_instance

instance start (f : Ir.Function) : Appends (Lower.start f) where
  entities := fun s _ _ h => by
    obtain ⟨-, rfl⟩ := Prod.mk.inj (Except.ok.inj h)
    exact List.prefix_rfl

end Appends

section

variable {value : Source.Expr}

instance : Appends (constant? id value) := by
  unfold constant?
  refine @Appends.bind _ _ _ _ _ fun _ => @Appends.bind _ _ _ _ _ fun v => ?_
  cases v <;> infer_instance

instance : Appends (reportNonConstant id value) := by
  unfold reportNonConstant
  infer_instance

instance : Appends (staticValue id value) := by
  unfold staticValue
  infer_instance

instance : Appends (staticInitializer id) := by
  unfold staticInitializer
  refine @Appends.bind _ _ _ _ _ fun e => ?_
  cases e.initializer? <;> infer_instance

instance : Appends (staticVariable id) := by
  unfold staticVariable
  infer_instance

instance appends_declare {d : Declared} : Appends (declare d ids) := by
  induction ids generalizing d with
  | nil =>
    rw [declare]
    infer_instance
  | cons id ids ih =>
    have := fun d => ih (d := d)
    rw [declare]
    refine @Appends.bind _ _ _ _ _ fun e => ?_
    cases e.kind <;> infer_instance

instance : Appends (function id) := by
  unfold function
  refine @Appends.bind _ _ _ _ _ fun e => ?_
  cases e.kind <;> infer_instance

end

/-- The entities that are there stay as they are, but for the numbers of some. -/
def Kept (numbered : EntityId → Prop) (s s' : LowerState) : Prop :=
  ∀ ⦃id e⦄, s.entities.get id = .ok e → s'.entities.get id = .ok e ∨
    numbered id ∧ ∃ n, s'.entities.get id = .ok { e with sequence := some n }

namespace Kept

variable {numbered numbered' : EntityId → Prop}

theorem mono (h : Kept numbered s s') (hn : ∀ id, numbered id → numbered' id) :
    Kept numbered' s s' :=
  fun id _ he => (h he).imp_right fun ⟨hid, hget⟩ => ⟨hn id hid, hget⟩

/-- Entities that are kept twice are kept. -/
theorem trans (h : Kept numbered s s₁) (h' : Kept numbered s₁ s') : Kept numbered s s' := by
  intro id e he
  rcases h he with he₁ | ⟨hid, n, he₁⟩
  · exact h' he₁
  · rcases h' he₁ with he' | ⟨-, n', he'⟩
    · exact .inr ⟨hid, n, he'⟩
    · exact .inr ⟨hid, n', he'⟩

end Kept

/-- What only adds entities keeps those that are there. -/
theorem Appends.kept {m : Lower α} [hm : Appends m] {x : α} (h : m s = .ok (x, s'))
    {numbered : EntityId → Prop} : Kept numbered s s' := by
  intro id e he
  obtain ⟨new, hnew⟩ := hm.entities h
  rw [EntityTable.get_eq_ok_iff] at he
  rw [EntityTable.get_eq_ok_iff, ← hnew,
    List.getElem?_append_left (List.getElem?_eq_some_iff.1 he).1]
  exact .inl he

/-- A variable that is numbered changes in its number only. -/
theorem numberStatic_kept {before after : List String}
    (h : numberStatic before id s = .ok (after, s')) : Kept (· = id) s s' := by
  obtain ⟨e, he, h⟩ := lift_bind_eq_ok (get_bind_eq_ok h)
  obtain ⟨-, rfl⟩ := Prod.mk.inj (Except.ok.inj h)
  intro id' e' he'
  by_cases hid : id' = id
  · subst hid
    obtain rfl := Except.ok.inj (he.symm.trans he')
    exact .inr ⟨rfl, _, EntityTable.get_set_self (EntityTable.lt_of_get he)⟩
  · exact .inl ((EntityTable.get_set_of_ne hid).trans he')

/-- So do all static variables of a function. -/
theorem staticLocals_kept {before after : List String} {vars : List Ir.StaticVariable}
    (h : staticLocals before ids s = .ok ((after, vars), s')) : Kept (· ∈ ids) s s' := by
  induction ids generalizing before vars s with
  | nil =>
    obtain ⟨-, rfl⟩ := Prod.mk.inj (Except.ok.inj h)
    exact fun _ _ he => .inl he
  | cons id ids ih =>
    obtain ⟨names, s₁, hnumber, h⟩ := bind_eq_ok_iff.1 h
    obtain ⟨v, s₂, hvar, h⟩ := bind_eq_ok_iff.1 h
    obtain ⟨⟨after', vs⟩, s₃, hothers, h⟩ := bind_eq_ok_iff.1 h
    obtain ⟨hpair, rfl⟩ := Prod.mk.inj (Except.ok.inj h)
    obtain ⟨rfl, -⟩ := Prod.mk.inj hpair
    have hfirst : Kept (· ∈ id :: ids) s s₁ :=
      (numberStatic_kept hnumber).mono fun _ hid => List.mem_cons.2 (.inl hid)
    exact hfirst.trans ((Appends.kept hvar).trans
      ((ih hothers).mono fun _ hid => List.mem_cons_of_mem _ hid))

/-- Lowering functions numbers the static variables that it lists. -/
theorem FunctionsFrom.kept {fs : List Ir.Function} {vars : List Ir.StaticVariable}
    (h : FunctionsFrom ids s fs vars s') : Kept (· ∈ vars.map (·.entity)) s s' := by
  induction h with
  | nil => exact fun _ _ he => .inl he
  | cons hf _ hvars _ ih =>
    obtain ⟨hmap, -⟩ := staticLocals_eq_ok hvars
    simp only [List.map_append, hmap]
    refine (Appends.kept hf).trans (Kept.trans ?_ (ih.mono fun _ => List.mem_append_right _))
    exact (staticLocals_kept hvars).mono fun _ => List.mem_append_left _

end Lower

/-! ## Rounds -/

/-- The two rounds in which a unit is lowered. -/
structure Source.Program.Rounds (p : Source.Program) (types : TypeTable) (ds : Diagnostics)
    (lowered : Lowered) where
  /-- what the declarations amount to -/
  declared : Lower.Declared
  statics : List Ir.StaticVariable
  /-- the states between the two rounds and behind them -/
  between : LowerState
  final : LowerState
  declare : Lower.declare {} p.declarations { types, entities := p.entities, diagnostics := ds } =
    .ok (declared, between)
  functions : Lower.functions [] declared.functions between =
    .ok ((lowered.module.functions, statics), final)
  entities : lowered.module.entities = final.entities

/-- A unit that was lowered has gone through all rounds. -/
theorem Source.Program.rounds_of_ok {p : Source.Program} {types : TypeTable} {ds : Diagnostics}
    {lowered : Lowered} (h : p.lower types ds = .ok lowered) :
    Nonempty (p.Rounds types ds lowered) := by
  obtain ⟨⟨result, final⟩, hwork, hlowered⟩ := bind_eq_ok_iff.1 h
  obtain rfl := Except.ok.inj hlowered
  obtain ⟨declared, between, hdeclare, hrest⟩ := Lower.bind_eq_ok_iff.1 hwork
  obtain ⟨⟨fs, statics⟩, s, hfunctions, hpure⟩ := Lower.bind_eq_ok_iff.1 hrest
  obtain ⟨rfl, rfl⟩ := Prod.mk.inj (Except.ok.inj hpure)
  exact ⟨⟨declared, statics, between, s, hdeclare, hfunctions, rfl⟩⟩

/-- A program is lowered if a run shows part of what it is lowered to. -/
theorem Source.Program.exists_lower (p : Source.Program) (types : TypeTable) (ds : Diagnostics)
    {α : Type} (view : Lowered → α) (seen : α)
    (h : (p.lower types ds).toOption.map view = some seen) :
    ∃ lowered, p.lower types ds = .ok lowered ∧ view lowered = seen := by
  cases hlower : p.lower types ds with
  | error fault =>
    rw [hlower] at h
    cases h
  | ok lowered =>
    rw [hlower] at h
    exact ⟨lowered, rfl, Option.some.inj h⟩

namespace Source.Program.Rounds

open Lower (Carried Declares FunctionsFrom entered)

variable {p : Source.Program} {types : TypeTable} {ds : Diagnostics} {lowered : Lowered}
  {f : Ir.Function}

/-- The state in which the first round begins. -/
def start (_ : p.Rounds types ds lowered) : LowerState :=
  { types, entities := p.entities, diagnostics := ds }

theorem declares (r : p.Rounds types ds lowered) :
    Declares {} p.declarations r.start r.declared r.between :=
  Lower.declare_eq_ok r.declare

theorem functionsFrom (r : p.Rounds types ds lowered) :
    FunctionsFrom r.declared.functions r.between lowered.module.functions r.statics r.final :=
  Lower.functionsFrom_of_ok r.functions

theorem declared_of_mem (r : p.Rounds types ds lowered) {id : EntityId}
    (h : id ∈ r.declared.functions) : id ∈ p.declarations := by
  obtain ⟨new, hnew, hsub⟩ := r.declares.functions
  rw [hnew] at h
  exact hsub.mem h

theorem carried (r : p.Rounds types ds lowered) : Carried r.start r.final :=
  r.declares.carried.trans r.functionsFrom.carried

/-- Each function was lowered on the way, from its definition in the program. -/
theorem function (r : p.Rounds types ds lowered) (hf : f ∈ lowered.module.functions) :
    ∃ e params body s last, f.entity ∈ p.declarations ∧ p.entities.get f.entity = .ok e ∧
      e.kind = .definedFunction params body ∧ Carried r.start s ∧
      body.lower {} (entered s f.entity params body) = .ok ((), last) ∧ f = last.function ∧
      Carried last r.final := by
  obtain ⟨id, hid, s, s', statics, hs, hs', hrun, -⟩ := r.functionsFrom.function hf
  have hstart := r.declares.carried.trans hs
  obtain ⟨e, params, body, last, he, hkind, hbody, rfl, rfl⟩ := Lower.function_eq_body hrun
  have hgrown : Lower.Grown (entered s id params body) last :=
    Lower.Additive.grown inferInstance hbody
  have hentity : last.function.entity = id := hgrown.entity
  have hlast : Carried last r.final := by
    refine Carried.trans ?_ hs'
    exact { Carried.refl last with diagnostics := List.prefix_append .. }
  obtain ⟨e₀, he₀, sequence, rfl⟩ | htemp := hstart.get_cases he
  · refine ⟨e₀, params, body, s, last, ?_, ?_, hkind, hstart, ?_, rfl, hlast⟩
    · exact hentity ▸ r.declared_of_mem hid
    · exact hentity ▸ he₀
    · rwa [hentity]
  · rw [htemp.kind] at hkind
    cases hkind

/-- What is given stays as it is, but for the numbers of the static variables of functions. -/
theorem kept (r : p.Rounds types ds lowered) {id : EntityId} {e : Entity}
    (he : p.entities.get id = .ok e) : lowered.module.entities.get id = .ok e ∨
      e.isPrivate = true ∧ (∃ f ∈ lowered.module.functions, id ∈ f.scope.variablesOfTree) ∧
        ∃ n, lowered.module.entities.get id = .ok { e with sequence := some n } := by
  rw [r.entities]
  have hkept := (Lower.Appends.kept r.declare).trans r.functionsFrom.kept
  refine (hkept he).imp_right fun ⟨hid, hnumbered⟩ => ?_
  obtain ⟨v, hv, rfl⟩ := List.mem_map.1 hid
  obtain ⟨f, hf, s, -, e', hs, -, -, htree, he', hprivate⟩ := r.functionsFrom.static hv
  have hs : Carried r.start s := r.declares.carried.trans hs
  obtain ⟨e'', he'', sequence, rfl⟩ := hs.entities he
  obtain rfl := Except.ok.inj (he''.symm.trans he')
  exact ⟨hprivate, ⟨f, hf, htree⟩, hnumbered⟩

end Source.Program.Rounds

end Backend386
