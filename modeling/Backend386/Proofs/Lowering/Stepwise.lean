import Mathlib.Logic.Basic
import Backend386.Proofs.Lowering.Walks

/-!
# Computations of a walk

The rules by which a computation of the lowering takes the steps of a walk, one for each way in
which computations are put together and one for each function that the lowering of expressions is
put together from.

* `Lower.Walked` — what a computation has done that started in a state and ended in another;
* `Lower.Stepwise` — computations that do so from every state; instances of this class follow the
  structure of a computation;
* `Lower.Productive` — computations that leave statements behind;
* `Lower.Stepwise.bind_temporary`, `Lower.Stepwise.bind_typeId`, … — what is known of the results of
  a step.
-/

namespace Backend386.Lower

open Relation (ReflTransGen)
open Lasting (known base carried)

variable {α β γ : Type} {s s' s₁ : LowerState} {w : Walk} {A B : Lasting}
  {es es' : List Source.Expr}

/-! ## Computations -/

/-- A computation has taken steps of a walk. It took temporaries only for statements that use them,
its result mentions what may be mentioned, and the literals of some expressions were looked up if
there were no errors. -/
structure Walked (w : Walk) (es : List Source.Expr) [Refers α] (s : LowerState) (x : α)
    (s' : LowerState) : Prop where
  moves : Moves w s s'
  quiet : s'.function.body.toList = [] → s'.entities = s.entities
  known : Knows w x s'
  interns : w.source.Readied s.entities → s'.diagnostics.hasErrors = false →
    InternsLiterals w.source es s s'

theorem Walked.grown [Refers α] {x : α} (h : Walked w es s x s') : Grown s s' :=
  h.moves.grown

/-- Whenever something holds, a computation takes steps of a walk over a part of a program that
holds whatever is lowered along with it. Some expressions are lowered by it, in this order. -/
class Stepwise (w : Walk) (A : Lasting) [Refers α] (m : Lower α)
    (es : outParam (List Source.Expr)) : Prop where
  walked : ∀ ⦃s x s'⦄, w.part.Closed s.entities → A.holds s → m s = .ok (x, s') →
    Walked w es s x s'

/-- A computation that leaves statements behind. What was computed before is written down so that
instance search keeps it in mind: it starts over behind each result that it forgets. -/
class ProductiveAfter {ι : Type} (before : ι) (m : Lower α) : Prop where
  body_ne_nil : ∀ ⦃s x s'⦄, m s = .ok (x, s') → s'.function.body.toList ≠ []

/-- The same whatever was computed before. -/
abbrev Productive (m : Lower α) : Prop :=
  ProductiveAfter () m

instance (priority := low) {ι : Type} {before : ι} {m : Lower α} [h : Productive m] :
    ProductiveAfter before m :=
  ⟨h.body_ne_nil⟩

namespace Stepwise

variable [Refers α] [Refers β] {m m' : Lower α} {f : α → Lower β}

theorem mono (h : Stepwise w A m es) (hb : ∀ s, B.holds s → A.holds s) : Stepwise w B m es :=
  ⟨fun s _ _ hc b hm => h.walked hc (hb s b) hm⟩

theorem and_left (h : Stepwise w A m es) : Stepwise w (A.and B) m es :=
  h.mono fun _ => And.left

theorem cast (h : Stepwise w A m es) (heq : es = es') : Stepwise w A m es' :=
  heq ▸ h

/-- The same steps, seen as the lowering of other expressions. -/
theorem of_interns (h : Stepwise w A m es)
    (hi : ∀ s s', InternsLiterals w.source es s s' → InternsLiterals w.source es' s s') :
    Stepwise w A m es' where
  walked s x s' hc ha hm := by
    have hwalked := h.walked hc ha hm
    exact { hwalked with interns := fun hr hq => hi s s' (hwalked.interns hr hq) }

/-- A computation that takes one step or none, and neither a temporary nor a statement nor a
literal. -/
theorem of_step (h : ∀ s x s', A.holds s → m s = .ok (x, s') → s' = s ∨ Move w s s')
    (hsame : ∀ s x s', m s = .ok (x, s') → s'.entities = s.entities ∧ s'.strings = s.strings)
    (hknown : ∀ s x s', A.holds s → m s = .ok (x, s') → Knows w x s') : Stepwise w A m [] where
  walked s x s' _ ha hm := by
    obtain ⟨hentities, hstrings⟩ := hsame s x s' hm
    refine ⟨?_, fun _ => hentities, hknown s x s' ha hm, fun _ _ => .of_same hstrings⟩
    rcases h s x s' ha hm with rfl | hmove
    · exact .refl
    · exact .single hmove

/-- A computation that leaves the state alone. -/
theorem of_same (h : ∀ s x s', m s = .ok (x, s') → s' = s)
    (hknown : ∀ s x s', A.holds s → m s = .ok (x, s') → Knows w x s') : Stepwise w A m [] :=
  of_step (fun s x s' _ hm => .inl (h s x s' hm))
    (fun s x s' hm => by rw [h s x s' hm]; exact ⟨rfl, rfl⟩) hknown

/-- A first step, and what is known afterwards. -/
theorem bind_of {P : α → Prop} {Q : α → Lasting} (hm : Stepwise w A m es)
    (hP : ∀ s x s', w.part.Closed s.entities → m s = .ok (x, s') → P x)
    (hQ : ∀ s x s', A.holds s → m s = .ok (x, s') → (Q x).holds s')
    (hf : ∀ x, P x → Stepwise w ((A.and (known w x)).and (Q x)) (f x) es') :
    Stepwise w A (m >>= f) (es ++ es') where
  walked s y s' hc ha h := by
    obtain ⟨x, s₁, hx, hy⟩ := bind_eq_ok_iff.1 h
    have h₁ := hm.walked hc ha hx
    have hc₁ := h₁.grown.closed hc
    have h₂ := (hf x (hP s x s₁ hc hx)).walked hc₁
      ⟨⟨A.lasts h₁.grown ha, h₁.known⟩, hQ s x s₁ ha hx⟩ hy
    refine ⟨h₁.moves.trans h₂.moves, fun hempty => ?_, h₂.known, fun hr hq => ?_⟩
    · -- where no statement stands in the end, none stood before
      have hempty₁ : s₁.function.body.toList = [] := List.prefix_nil.1 (hempty ▸ h₂.grown.body)
      rw [h₂.quiet hempty, h₁.quiet hempty₁]
    · have hq₁ := hasErrors_mono h₂.grown.diagnostics hq
      exact (h₁.interns hr hq₁).trans (h₂.interns (hr.carried h₁.grown.carried) hq)

instance (priority := low) bind [hm : Stepwise w A m es]
    [hf : ∀ x, Stepwise w (A.and (known w x)) (f x) es'] : Stepwise w A (m >>= f) (es ++ es') :=
  bind_of (P := fun _ => True) (Q := fun _ => .always) hm (fun _ _ _ _ _ => trivial)
    (fun _ _ _ _ _ => trivial) fun x _ => (hf x).and_left

/-- A first step that lowers nothing. -/
instance silent_bind [Stepwise w A m []] [∀ x, Stepwise w (A.and (known w x)) (f x) es] :
    Stepwise w A (m >>= f) es :=
  (inferInstance : Stepwise w A (m >>= f) ([] ++ es))

/-- A first step that lowers some expressions. -/
theorem and_then (_ : Stepwise w A m es) (_ : ∀ x, Stepwise w (A.and (known w x)) (f x) es') :
    Stepwise w A (m >>= f) (es ++ es') :=
  bind

theorem after (_ : Stepwise w A m []) (_ : ∀ x, Stepwise w (A.and (known w x)) (f x) es) :
    Stepwise w A (m >>= f) es :=
  silent_bind

/-- A first step that lowers nothing, and what is known afterwards. -/
theorem silent_bind_of {Q : α → Lasting} (hm : Stepwise w A m [])
    (hQ : ∀ s x s', A.holds s → m s = .ok (x, s') → (Q x).holds s')
    (hf : ∀ x, Stepwise w (A.and (Q x)) (f x) es) : Stepwise w A (m >>= f) es :=
  bind_of (P := fun _ => True) (Q := Q) hm (fun _ _ _ _ _ => trivial) hQ
    fun x _ => (hf x).mono fun _ h => ⟨h.1.1, h.2⟩

instance pure {x : α} [h : Given A (known w x)] : Stepwise w A (Pure.pure x : Lower α) [] := by
  refine of_same (fun s y s' hm => ?_) fun s y s' ha hm => ?_
  · exact (Prod.mk.inj (Except.ok.inj hm)).2.symm
  · obtain ⟨rfl, rfl⟩ := Prod.mk.inj (Except.ok.inj hm)
    exact h.holds ha

instance ite {c : Prop} [Decidable c] [Stepwise w A m es] [Stepwise w A m' es] :
    Stepwise w A (if c then m else m') es := by
  split <;> infer_instance

/-- A computation that always fails. -/
theorem of_error (h : ∀ s r, m s ≠ .ok r) : Stepwise w A m es :=
  ⟨fun _ _ _ _ _ hm => absurd hm (h _ _)⟩

instance fail (fault : Fault) : Stepwise w A (throw fault : Lower α) [] :=
  of_error fun _ _ h => nomatch h

/-- What is read from the tables mentions nothing. -/
instance lift {α : Type} (x : Except Fault α) :
    @Stepwise α w A Refers.none (liftM x : Lower α) [] :=
  letI : Refers α := Refers.none
  of_same (fun _ _ _ h => (lift_eq_ok h).2) fun _ _ _ _ _ => .nothing

instance get : Stepwise w A (MonadState.get : Lower LowerState) [] :=
  of_same (fun _ _ _ h => (Prod.mk.inj (Except.ok.inj h)).2.symm) fun _ _ _ _ _ => .nothing

/-- A loop lowers what its rounds lower. -/
theorem forM_of {l : List γ} {f : γ → Lower Unit} {g : γ → List Source.Expr}
    (hf : ∀ a ∈ l, Stepwise w A (f a) (g a)) : Stepwise w A (l.forM f) (l.flatMap g) := by
  induction l with
  | nil => exact Stepwise.pure
  | cons a l ih =>
    have := hf a List.mem_cons_self
    have hrest := ih fun a ha => hf a (List.mem_cons_of_mem _ ha)
    exact @Stepwise.bind _ _ _ _ _ _ _ _ _ (fun _ => l.forM f) _ fun _ => hrest.and_left

instance forM {l : List γ} {f : γ → Lower Unit} [hf : ∀ a, Stepwise w A (f a) []] :
    Stepwise w A (l.forM f) [] :=
  (forM_of fun a _ => hf a).cast (by simp)

theorem forM_option_of {o : Option Source.Expr} {f : Source.Expr → Lower Unit}
    (hf : ∀ e ∈ o, Stepwise w A (f e) [e]) : Stepwise w A (o.forM f) o.toList := by
  cases o with
  | none => exact Stepwise.pure
  | some a => exact hf a rfl

/-- An entity is looked up. It may say what is lowered next. -/
theorem bind_entity {id : EntityId} {f : Entity → Lower β} {g : Entity → List Source.Expr}
    (hf : ∀ e t, w.part.Closed t → t.get id = .ok e →
      Stepwise w (A.and (.entity id e)) (f e) (g e))
    (hg : ∀ e t, w.source.Readied t → t.get id = .ok e → ∀ s s',
      InternsLiterals w.source (g e) s s' → InternsLiterals w.source es s s') :
    Stepwise w A (entity id >>= f) es where
  walked s y s' hc ha h := by
    obtain ⟨e, s₁, he, hy⟩ := bind_eq_ok_iff.1 h
    obtain ⟨he, hsame⟩ := entity_eq_ok he
    rw [hsame] at hy
    have hwalked := (hf e s.entities hc he).walked hc ⟨ha, he⟩ hy
    exact { hwalked with interns := fun hr hq => hg e s.entities hr he _ _ (hwalked.interns hr hq) }

end Stepwise

/-! ## Steps of the state -/

section Steps

variable {type t composite source target : TypeId} {id : EntityId} {ref : TypeRef}
  {location : Option Location} {x y address value : Ir.Expr} {d : Demand} {op : Ir.Op}
  {l yes no : Ir.Label}

instance {question : TypeTable → Except Fault α} :
    @Stepwise α w A Refers.none (ask question) [] := by
  unfold ask
  infer_instance

instance : Stepwise w A (entity id) [] := by
  unfold entity
  infer_instance

instance : Stepwise w A functionName [] := by
  unfold functionName
  infer_instance

/-- A step of the supplies mentions nothing and says nothing. -/
theorem Stepwise.of_supply {m : Lower α} (h : ∀ s x s', m s = .ok (x, s') → Move w s s' ∧
    s'.entities = s.entities ∧ s'.strings = s.strings) : @Stepwise α w A Refers.none m [] :=
  letI : Refers α := Refers.none
  .of_step (fun s x s' _ hm => .inr (h s x s' hm).1) (fun s x s' hm => (h s x s' hm).2)
    fun _ _ _ _ _ => .nothing

/-- Any program mentions any type. -/
theorem mentions_all : Source.Part.all.Mentions ref :=
  ⟨.sizeofType ⟨ref, none⟩ ref, trivial, List.mem_cons_self⟩

instance : Fact (Source.Part.all.Mentions ref) := ⟨mentions_all⟩

/-- Whatever is in a walk unless it is said otherwise. -/
instance : Fact True := ⟨trivial⟩

instance [hr : Fact (w.part.Mentions ref)] : Stepwise w A (typeId ref) [] := by
  refine .of_supply fun s x s' h => ?_
  obtain ⟨types, hintern, rfl⟩ := typeId_eq_ok h
  exact ⟨.typeId hr.out hintern, rfl, rfl⟩

instance : Stepwise w A (pointerTo type) [] := by
  refine .of_supply fun s x s' h => ?_
  obtain ⟨types, hpointer, rfl⟩ := pointerTo_eq_ok h
  exact ⟨.pointerTo hpointer, rfl, rfl⟩

instance [hl : Fact w.hasLabels] : Stepwise w A newLabel [] := by
  refine .of_supply fun s x s' h => ?_
  obtain ⟨-, rfl⟩ := Prod.mk.inj (Except.ok.inj h)
  exact ⟨.newLabel hl.out, rfl, rfl⟩

/-- The type that is looked up is one that the part mentions. -/
theorem Stepwise.after_typeId [Refers β] {f : TypeId → Lower β} [hr : Fact (w.part.Mentions ref)]
    (hf : ∀ id, Stepwise w (A.and (base w id)) (f id) es) : Stepwise w A (typeId ref >>= f) es := by
  refine .silent_bind_of (m := typeId ref) inferInstance (fun s id s' _ h _ => ?_) hf
  obtain ⟨types, hintern, rfl⟩ := typeId_eq_ok h
  exact ⟨ref, TypeTable.intern_refOf hintern, .inl hr.out⟩

instance (priority := high) Stepwise.bind_typeId [Refers β] {f : TypeId → Lower β}
    [Fact (w.part.Mentions ref)] [∀ id, Stepwise w (A.and (base w id)) (f id) es] :
    Stepwise w A (typeId ref >>= f) es :=
  .after_typeId inferInstance

/-- A pointer is made to a type that the part mentions, or to anything. -/
theorem Stepwise.after_pointerTo [Refers β] {f : TypeId → Lower β} [ht : Given A (base w type)]
    (hf : ∀ id, Stepwise w (A.and (carried w id)) (f id) es) :
    Stepwise w A (pointerTo type >>= f) es := by
  refine .silent_bind_of (m := pointerTo type) inferInstance (fun s id s' ha h hstrict => ?_) hf
  obtain ⟨types, hpointer, rfl⟩ := pointerTo_eq_ok h
  obtain ⟨ref, href, hintern⟩ := Backend386.bind_eq_ok_iff.1 hpointer
  obtain ⟨ref', href', hbase⟩ := ht.holds ha hstrict
  obtain rfl := Except.ok.inj (href.symm.trans href')
  exact ⟨.pointer ref, TypeTable.intern_refOf hintern, .inr ⟨ref, hbase, rfl⟩⟩

instance (priority := high) Stepwise.bind_pointerTo [Refers β] {f : TypeId → Lower β}
    [Given A (base w type)] [∀ id, Stepwise w (A.and (carried w id)) (f id) es] :
    Stepwise w A (pointerTo type >>= f) es :=
  .after_pointerTo inferInstance

instance (priority := high) Stepwise.bind_void [Refers β] {f : TypeId → Lower β}
    [hf : ∀ id, Stepwise w (A.and (base w id)) (f id) es] :
    Stepwise w A (ask (·.void) >>= f) es := by
  refine .silent_bind_of (m := ask (·.void)) inferInstance (fun s id s' _ h _ => ?_) hf
  obtain ⟨rfl, hvoid⟩ := void_eq_ok h
  exact ⟨.void, hvoid, .inr rfl⟩

/-- A string literal of the part is looked up. -/
theorem stepwise_stringId {n : Source.Note} {v : String} (he : w.part.exprs (.str n v)) :
    Stepwise w A (stringId v) [.str n v] where
  walked s id s' _ _ h := by
    obtain ⟨rfl, hvalue⟩ := stringId_eq_ok h
    refine ⟨.single (.stringId he), fun _ => rfl, ⟨List.forall_mem_nil _, ?_⟩, fun _ _ => ?_⟩
    · exact List.forall_mem_singleton.2 fun _ => ⟨n, v, he, hvalue⟩
    · exact ⟨[] ++ [.str n v], .single_node rfl .nil, rfl⟩

/-- A problem is reported that has nothing to do with the labels that the program names. What would
have been lowered after it does not count. -/
theorem stepwise_report {problem : LoweringProblem} (hl : w.hasLabels)
    (hn : w.hasNames ∨ Finding.isControl ⟨location, problem⟩ = false) :
    Stepwise w A (report location problem) es where
  walked s u s' _ _ h := by
    obtain ⟨rfl, rfl⟩ := Prod.mk.inj (Except.ok.inj h)
    refine ⟨.single (.report hl hn), fun _ => rfl, .nothing, fun _ hq => ?_⟩
    simp [Diagnostics.hasErrors, Diagnostics.errorCount, Diagnostics.errors, Diagnostics.error,
      Diagnostics.report] at hq

instance {bytes : Nat} [hl : Fact w.hasLabels] :
    Stepwise w A (report location (.initializerTooLong bytes)) [] :=
  stepwise_report hl.out (.inr rfl)

instance {name : String} [hl : Fact w.hasLabels] :
    Stepwise w A (report location (.nonConstantInitializer name)) [] :=
  stepwise_report hl.out (.inr rfl)

instance {problem : LoweringProblem} [hl : Fact w.hasLabels] [hn : Fact w.hasNames] :
    Stepwise w A (report location problem) [] :=
  stepwise_report hl.out (.inl hn.out)

/-! ### Statements -/

instance {action : Ir.Action} : Productive (emit location action) where
  body_ne_nil s x s' h := by simp [emit_eq_ok h]

/-- A statement may be written that mentions nothing new. -/
theorem stepwise_emit {action : Ir.Action} [hk : Given A (known w action)]
    (hl : w.hasLabels ∨ (⟨action, location⟩ : Ir.Stmt).placed? = none ∧
      (⟨action, location⟩ : Ir.Stmt).targets = []) : Stepwise w A (emit location action) [] where
  walked s u s' _ ha h := by
    have hp : Productive (emit location action) := inferInstance
    refine ⟨?_, fun hempty => absurd hempty (hp.body_ne_nil h), .nothing, fun _ _ => ?_⟩
    · exact emit_eq_ok h ▸ .single (.emit (hk.holds ha) hl)
    · exact .of_same (by rw [emit_eq_ok h]; rfl)

instance [Given A (known w x)] [Given A (known w y)] : Stepwise w A (store location x y) [] :=
  have : Given A (known w (Ir.Action.assign x y)) := .both (x := x) (y := y) rfl rfl
  stepwise_emit (.inr ⟨rfl, rfl⟩)

instance [hl : Fact w.hasLabels] : Stepwise w A (jump location l) [] :=
  have : Given A (known w (Ir.Action.jump l)) := .nothing rfl rfl
  stepwise_emit (.inl hl.out)

instance [hl : Fact w.hasLabels] : Stepwise w A (place l) [] :=
  have : Given A (known w (Ir.Action.label l)) := .nothing rfl rfl
  stepwise_emit (.inl hl.out)

instance [hl : Fact w.hasLabels] [Given A (known w x)] :
    Stepwise w A (branch location x yes no) [] :=
  have : Given A (known w (Ir.Action.branch x yes no)) := .same (x := x) rfl rfl
  stepwise_emit (.inl hl.out)

instance [Given A (known w x)] : Stepwise w A (emit location (.eval x)) [] :=
  have : Given A (known w (Ir.Action.eval x)) := .same (x := x) rfl rfl
  stepwise_emit (.inr ⟨rfl, rfl⟩)

instance {value : Option Ir.Expr} [Given A (known w value)] :
    Stepwise w A (emit location (.ret value)) [] :=
  have : Given A (known w (Ir.Action.ret value)) := by
    cases value with
    | none => exact .nothing rfl rfl
    | some v => exact .same (x := some v) entities_some.symm rfl
  stepwise_emit (.inr ⟨rfl, rfl⟩)

instance : Productive (store location x y) := inferInstanceAs (Productive (emit _ _))
instance : Productive (place l) := inferInstanceAs (Productive (emit _ _))

instance ProductiveAfter.bind {ι : Type} {before : ι} {m : Lower α} {f : α → Lower β}
    [hf : ∀ x, ProductiveAfter (before, x) (f x)] : ProductiveAfter before (m >>= f) where
  body_ne_nil s y s' h := by
    obtain ⟨x, s₁, -, hy⟩ := bind_eq_ok_iff.1 h
    exact (hf x).body_ne_nil hy

instance ProductiveAfter.bind_pure {ι : Type} {before : ι} {m : Lower α} {g : α → β}
    [hm : Productive m] : ProductiveAfter before (m >>= fun x => Pure.pure (g x)) where
  body_ne_nil s y s' h := by
    obtain ⟨x, s₁, hx, hy⟩ := bind_eq_ok_iff.1 h
    obtain ⟨-, rfl⟩ := Prod.mk.inj (Except.ok.inj hy)
    exact hm.body_ne_nil hx

/-- A temporary is taken for statements that follow. -/
theorem Stepwise.after_temporary [Refers β] {f : EntityId → Lower β}
    [ht : Given A (carried w type)] [hp : ∀ id, ProductiveAfter id (f id)]
    (hf : ∀ id, Stepwise w (A.and (known w id)) (f id) es) :
    Stepwise w A (temporary type >>= f) es where
  walked s y s' hc ha h := by
    obtain ⟨id, s₁, hid, hy⟩ := bind_eq_ok_iff.1 h
    obtain ⟨ref, href, rfl, rfl⟩ := temporary_eq_ok hid
    have hg : Grown s (s.takeTemporary type ref) := grown_takeTemporary
    have hknown : Knows w (⟨s.entities.size⟩ : EntityId) (s.takeTemporary type ref) := by
      refine ⟨List.forall_mem_singleton.2 fun _ => .inr (.inl ?_), List.forall_mem_nil _⟩
      exact List.mem_append_right _ List.mem_cons_self
    have hwalked := (hf _).walked (hg.closed hc) ⟨A.lasts hg ha, hknown⟩ hy
    refine ⟨.head (.temporary href fun hstrict => ?_) hwalked.moves,
      fun hempty => absurd hempty ((hp _).body_ne_nil hy), hwalked.known,
      fun hr hq => hwalked.interns (hr.carried hg.carried) hq⟩
    obtain ⟨ref', href', hcarries⟩ := ht.holds ha hstrict
    obtain rfl := Except.ok.inj (href.symm.trans href')
    exact hcarries

instance (priority := high) Stepwise.bind_temporary [Refers β] {f : EntityId → Lower β}
    [Given A (carried w type)] [∀ id, ProductiveAfter id (f id)]
    [∀ id, Stepwise w (A.and (known w id)) (f id) es] : Stepwise w A (temporary type >>= f) es :=
  .after_temporary inferInstance

/-! ### Pieces of expressions -/

instance : Stepwise w A pointerWidth [] := by
  unfold pointerWidth
  infer_instance

instance : Stepwise w A (isByAddress type) [] := by
  unfold isByAddress
  infer_instance

instance : Stepwise w A (width type) [] := by
  unfold width
  infer_instance

instance : Stepwise w A (castChanges source target) [] := by
  unfold castChanges
  infer_instance

instance {fault : String → Fault} : Stepwise w A (refuseComposite type fault) [] := by
  unfold refuseComposite
  infer_instance

instance [Given A (known w address)] : Stepwise w A (load type address) [] := by
  unfold load
  infer_instance

instance {offset : Nat} [Given A (known w address)] :
    Stepwise w A (offsetAddress address offset) [] := by
  unfold offsetAddress
  infer_instance

instance {size : Nat} [Given A (known w x)] : Stepwise w A (scale x size) [] := by
  unfold scale
  infer_instance

instance {name : String} [Given A (known w address)] :
    Stepwise w A (member type composite address name) [] := by
  unfold member
  refine .after inferInstance fun found => ?_
  cases found <;> infer_instance

instance [Given A (known w id)] : Stepwise w A (designated type id) [] := by
  unfold designated
  infer_instance

instance [Given A (carried w type)] [Given A (known w value)] :
    Stepwise w A (storeTemporary location type value) [] := by
  unfold storeTemporary
  infer_instance

instance [Given A (known w address)] : Stepwise w A (stable location address) [] := by
  unfold stable
  cases address <;> infer_instance

instance [Given A (known w x)] [Given A (known w y)] :
    Stepwise w A (copyAggregate location type x y) [] := by
  unfold copyAggregate
  infer_instance

instance {place : Option Location} {result : Option Ir.Expr} [Given A (known w result)] :
    Stepwise w A (needed place result) [] := by
  cases result with
  | none =>
    unfold needed
    infer_instance
  | some v =>
    have : Given A (known w v) := .of_some
    unfold needed
    infer_instance

instance {result : Option Ir.Expr} [Given A (known w result)] :
    Stepwise w A (discard location result) [] := by
  cases result with
  | none =>
    unfold discard
    infer_instance
  | some v =>
    have : Given A (known w v) := .of_some
    unfold discard
    infer_instance

instance {place : Option Location} [Given A (known w value)] :
    Stepwise w A (objectAddress place type value) [] := by
  unfold objectAddress
  refine .after inferInstance fun byAddress => ?_
  split
  · infer_instance
  · refine .after inferInstance fun ptr => ?_
    split
    · next address haddress =>
      have (ptr : Width) : Given ((A.and (known w byAddress)).and (known w ptr))
        (known w address) :=
        .addressOf? haddress
      infer_instance
    · infer_instance

instance {op : Source.BinaryOp} [Given A (known w x)] [Given A (known w y)] :
    Stepwise w A (binary type op source target x y) [] := by
  unfold binary
  dsimp only
  refine .after inferInstance fun signed => .after inferInstance fun width => ?_
  cases op with
  | sub =>
    simp only [reduceCtorEq, reduceIte, false_or]
    refine .after inferInstance fun isPointer => ?_
    split
    · refine .after inferInstance fun isDifference => ?_
      split <;> infer_instance
    · infer_instance
  | _ =>
    simp only [reduceCtorEq, reduceIte, true_or, or_self]
    infer_instance

instance [Given A (known w x)] [Given A (known w y)] :
    Stepwise w A (arithmetic op type x y) [] := by
  unfold arithmetic
  infer_instance

/-- The variable of a location mentions what the location mentions. -/
theorem Given.of_var {width : Width} (h : Given A (known w (Ir.Expr.var width id))) :
    Given A (known w id) :=
  .same (x := Ir.Expr.var width id) rfl rfl

instance [Given A (base w type)] [Given A (known w x)] [Given A (known w y)] :
    Stepwise w A (opAssign d location op type x y) [] := by
  unfold opAssign
  refine .after inferInstance fun ptr => ?_
  split
  · next _ v hv =>
    have : Given A (known w v) := .of_var hv
    infer_instance
  · split
    · infer_instance
    · next address haddress =>
      have : Given A (known w address) := .addressOf? haddress
      infer_instance

instance {width : Width} [Given A (base w type)] [Given A (known w x)] :
    Stepwise w A (postStep d location op type width x) [] := by
  unfold postStep
  refine .after inferInstance fun ptr => ?_
  split
  · infer_instance
  · next _ v hv =>
    have : Given A (known w v) := .of_var hv
    infer_instance
  · split
    · infer_instance
    · next address haddress =>
      have : Given A (known w address) := .addressOf? haddress
      dsimp only
      refine .after_pointerTo fun pointer => .after_temporary fun holder => ?_
      refine .after_temporary fun old => .after inferInstance fun _ => ?_
      exact .after inferInstance fun _ => inferInstance

instance {args : List Ir.Expr} [Given A (carried w type)] [Given A (known w x)]
    [Given A (known w args)] : Stepwise w A (call d location type x args) [] := by
  unfold call
  infer_instance

end Steps

end Backend386.Lower
