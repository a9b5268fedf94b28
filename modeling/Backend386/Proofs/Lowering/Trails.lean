import Backend386.Proofs.Lowering.Bodies
import Backend386.Proofs.Lowering.FlatCode
import Backend386.Proofs.Source.Calls

/-!
# The trail of a lowering

What holds of the code that has been made so far: it is orderly, and its calls are those of the
expressions that have been lowered, one for each and in their order. Labels that are handed out get
the variables that are to be written wherever they are reached.

* `Lower.Gives`, `Lower.CallOf` — what expressions and calls were lowered to;
* `Lower.Trail` — what holds of a state on the way;
* `Lower.Looks`, `Lower.Ensures` — computations that only look things up, and their results;
* `Lower.Goes` — what a computation leads to, if it keeps to the trail.
-/

namespace Backend386

/-- A part of a program names an entity. -/
def Source.Part.Named (p : Source.Part) (v : EntityId) : Prop :=
  ∃ n, p.exprs (.var n v)

namespace Lower

variable {α β γ : Type} {p : Source.Part} {s₀ s s' s₁ : LowerState}
  {P P' : List (Ir.Label × Set EntityId)} {A A' : Set EntityId} {cs cs' : List Source.Expr}
  {x y : Ir.Expr} {e : Source.Expr} {location : Option Location}

/-! ## Constants and initial values -/

namespace Carried

/-- What is looked up in an entity stays the same, if neither its number nor a temporary counts. -/
theorem lookup_eq (h : Carried s s') {look : Entity → Option α}
    (hnumber : ∀ e sequence, look { e with sequence } = look e)
    (htemp : ∀ e, e.IsTemp → look e = none) (id : EntityId) :
    (s'.entities.get id).toOption.bind look = (s.entities.get id).toOption.bind look := by
  by_cases hlt : id.index < s.entities.size
  · obtain ⟨e, he⟩ := EntityTable.exists_get hlt
    obtain ⟨e', he', sequence, rfl⟩ := h.entities he
    rw [he, he']
    exact hnumber e sequence
  · have hnone : (s.entities.get id).toOption = none := by
      cases he : s.entities.get id with
      | ok e => exact absurd (EntityTable.lt_of_get he) hlt
      | error fault => rfl
    rw [hnone]
    cases he : s'.entities.get id with
    | ok e => exact htemp e (h.temps he (not_lt.1 hlt))
    | error fault => rfl

theorem constant?_eq (h : Carried s s') (id : EntityId) :
    s'.entities.constant? id = s.entities.constant? id :=
  h.lookup_eq (fun _ _ => rfl) (fun e he => by simp [Entity.constantValue?, he.kind]) id

theorem initial?_eq (h : Carried s s') (id : EntityId) :
    s'.entities.initial? id = s.entities.initial? id :=
  h.lookup_eq (fun _ _ => rfl) (fun e he => by simp [Entity.initializer?, he.kind]) id

end Carried

/-! ## Calls -/

/-- On the way from one state to another, the value of an expression was lowered to this one. -/
def Gives (s₀ s : LowerState) (e : Source.Expr) (x : Ir.Expr) : Prop :=
  ∃ depth s₁ s₂, Grown s₀ s₁ ∧ e.lowerWithin depth .value s₁ = .ok (some x, s₂) ∧ Grown s₂ s

theorem Gives.mono (h : Gives s₀ s e x) (hg : Grown s s') : Gives s₀ s' e x := by
  obtain ⟨depth, s₁, s₂, h₁, hrun, h₂⟩ := h
  exact ⟨depth, s₁, s₂, h₁, hrun, h₂.trans hg⟩

/-- A call of the program was lowered to a call with as many arguments in the same order. -/
inductive CallOf (s₀ s : LowerState) : Source.Expr → Ir.Expr → Prop where
  | mk {n : Source.Note} {callee : Source.Expr} {args : List Source.Expr} {w : Width}
    {callee' : Ir.Expr} {args' : List Ir.Expr} (hcallee : Gives s₀ s callee callee')
    (hargs : List.Forall₂ (Gives s₀ s) args args') :
    CallOf s₀ s (.call n callee args) (.call w callee' args')

theorem CallOf.mono (h : CallOf s₀ s e x) (hg : Grown s s') : CallOf s₀ s' e x := by
  obtain ⟨hcallee, hargs⟩ := h
  exact ⟨hcallee.mono hg, hargs.imp fun _ _ h => h.mono hg⟩

/-! ## The trail -/

/-- The state of the supplies changes, and no statement, label or name is added. -/
structure Calm (s s' : LowerState) : Prop extends Grown s s' where
  sameLabels : s'.labels = s.labels
  sameNames : s'.named = s.named
  sameBody : s'.function.body = s.function.body

theorem Calm.trans (h : Calm s s₁) (h' : Calm s₁ s') : Calm s s' where
  toGrown := h.toGrown.trans h'.toGrown
  sameLabels := h'.sameLabels.trans h.sameLabels
  sameNames := h'.sameNames.trans h.sameNames
  sameBody := h'.sameBody.trans h.sameBody

theorem Grown.size_le (h : Grown s s') : s.entities.size ≤ s'.entities.size :=
  h.carried.size_le

theorem grown_push {stmt : Ir.Stmt} : Grown s (s.push stmt) :=
  Step.grown (p := .all) (.emit stmt)

/-- An expression without calls, which mentions entities that are there and reads variables that the
program names or that are written. -/
abbrev Plain (p : Source.Part) (A : Set EntityId) (s : LowerState) (x : Ir.Expr) : Prop :=
  x.Plain (·.index < s.entities.size) fun v => p.Named v ∨ v ∈ A

theorem Plain.grown (h : Plain p A s x) (hg : Grown s s') (hA : A ⊆ A') : Plain p A' s' x :=
  Ir.Expr.Plain.mono h (fun _ hv => Nat.lt_of_lt_of_le hv hg.size_le)
    fun _ hv => hv.imp_right (hA ·)

theorem Plain.of_same (h : Plain p A s x) (heq : s'.entities = s.entities) : Plain p A s' x :=
  Ir.Expr.Plain.mono h (fun _ hv => heq ▸ hv) fun _ => id

/-- What holds of a state that goes on from the first state of a function: some labels are known
with the variables that are written wherever they are reached, some variables are written, and some
calls were made. Labels that the program names may be jumped to from anywhere. -/
structure Trail (p : Source.Part) (s₀ : LowerState) (P : List (Ir.Label × Set EntityId))
    (A : Set EntityId) (cs : List Source.Expr) (s : LowerState) : Prop where
  grown : Grown s₀ s
  orderly : ∃ known : Ir.Label → Set EntityId,
    (∀ q ∈ P, q.1.index < s.labels.next ∧ known q.1 = q.2) ∧
    (∀ e ∈ s.named, e.label.index < s.labels.next ∧ known e.label = ∅) ∧
    Ir.Orderly s₀.entities.size p.Named known s.function.body.toList s.entities.size
      s.labels.next A
  calls : List.Forall₂ (CallOf s₀ s) cs (Ir.callsOf s.function.body.toList)

namespace Trail

/-- At first nothing is known, written or called. -/
theorem start (hbody : s₀.function.body = #[]) (hnamed : s₀.named = []) :
    Trail p s₀ [] ∅ [] s₀ where
  grown := .refl s₀
  orderly := ⟨fun _ => ∅, by simp, by simp [hnamed], by
    rw [hbody]
    exact .nil le_rfl⟩
  calls := by
    rw [hbody]
    exact .nil

/-- Labels may be forgotten. -/
theorem weaken (h : Trail p s₀ P A cs s) (hP : P' ⊆ P) : Trail p s₀ P' A cs s where
  grown := h.grown
  orderly := by
    obtain ⟨known, hknown, hrest⟩ := h.orderly
    exact ⟨known, fun q hq => hknown q (hP hq), hrest⟩
  calls := h.calls

/-- A trail goes on where nothing is written. -/
theorem calm (h : Trail p s₀ P A cs s) (hs : Calm s s') : Trail p s₀ P A cs s' where
  grown := h.grown.trans hs.toGrown
  orderly := by
    obtain ⟨known, hknown, hnamed, horderly⟩ := h.orderly
    refine ⟨known, hs.sameLabels ▸ hknown, hs.sameNames ▸ hs.sameLabels ▸ hnamed, ?_⟩
    rw [hs.sameBody]
    exact horderly.mono hs.toGrown.size_le hs.labels
  calls := by
    rw [hs.sameBody]
    exact h.calls.imp fun _ _ hcall => hcall.mono hs.toGrown

/-- A label that is handed out gets the variables that are to be written where it is reached. -/
theorem takeLabel (h : Trail p s₀ P A cs s) (B : Set EntityId) :
    Trail p s₀ ((⟨s.labels.next⟩, B) :: P) A cs s.takeLabel := by
  obtain ⟨known, hknown, hnamed, horderly⟩ := h.orderly
  have hg : Grown s s.takeLabel := Step.grown (p := .all) .newLabel
  have hne {l : Ir.Label} (hl : l.index < s.labels.next) : l ≠ ⟨s.labels.next⟩ := by
    rintro rfl
    exact Nat.lt_irrefl _ hl
  refine ⟨h.grown.trans hg, ⟨Function.update known ⟨s.labels.next⟩ B, fun q hq => ?_,
    fun e he => ?_, ?_⟩, h.calls.imp fun _ _ hcall => hcall.mono hg⟩
  · rcases List.mem_cons.1 hq with rfl | hq
    · exact ⟨Nat.lt_succ_self _, Function.update_self ..⟩
    · obtain ⟨hlt, heq⟩ := hknown q hq
      exact ⟨Nat.lt_succ_of_lt hlt, (Function.update_of_ne (hne hlt) ..).trans heq⟩
  · obtain ⟨hlt, heq⟩ := hnamed e he
    exact ⟨Nat.lt_succ_of_lt hlt, (Function.update_of_ne (hne hlt) ..).trans heq⟩
  · exact (horderly.congr fun l hl => Function.update_of_ne (hne hl) ..).mono le_rfl (Nat.le_succ _)

/-- A name can be jumped to where nothing is known to be written. -/
theorem named (h : Trail p s₀ P A cs s) {entry : NamedLabel} (he : entry ∈ s.named) :
    Trail p s₀ ((entry.label, ∅) :: P) A cs s := by
  obtain ⟨known, hknown, hnamed, horderly⟩ := h.orderly
  refine ⟨h.grown, ⟨known, fun q hq => ?_, hnamed, horderly⟩, h.calls⟩
  rcases List.mem_cons.1 hq with rfl | hq
  · exact hnamed entry he
  · exact hknown q hq

/-- The names of labels that are known with nothing written. -/
theorem rename (h : Trail p s₀ P A cs s) {names : List NamedLabel}
    (hnames : ∀ e ∈ names, (∃ e' ∈ s.named, e'.label = e.label) ∨ (e.label, ∅) ∈ P) :
    Trail p s₀ P A cs { s with named := names } := by
  obtain ⟨known, hknown, hnamed, horderly⟩ := h.orderly
  have hg : Grown s { s with named := names } := Step.grown (p := .all) (.name names)
  refine ⟨h.grown.trans hg, ⟨known, hknown, fun e he => ?_, horderly⟩,
    h.calls.imp fun _ _ hcall => hcall.mono hg⟩
  rcases hnames e he with ⟨e', he', heq⟩ | hP
  · exact heq ▸ hnamed e' he'
  · exact hknown _ hP

/-- A flat statement is appended. -/
theorem push (h : Trail p s₀ P A cs s) (hs : Calm s s') {st : Ir.Stmt} {new : List Source.Expr}
    (hflat : st.action.Flat (Plain p A s') fun v =>
      s.entities.size ≤ v.index ∧ v.index < s'.entities.size)
    (hcalls : List.Forall₂ (CallOf s₀ s') new st.action.calls)
    (hlabels : ∀ l ∈ st.labels, ∃ B, (l, B) ∈ P ∧ B ⊆ A)
    (hwritten : ∀ known, (∀ q ∈ P, known q.1 = q.2) → st.action.written known A = A') :
    Trail p s₀ P A' (cs ++ new) (s'.push st) := by
  obtain ⟨known, hknown, hnamed, horderly⟩ := h.orderly
  refine ⟨h.grown.trans (hs.toGrown.trans grown_push), ⟨known, hs.sameLabels ▸ hknown,
    hs.sameNames ▸ hs.sameLabels ▸ hnamed, ?_⟩, ?_⟩
  · rw [LowerState.push_body, ← hwritten known fun q hq => (hknown q hq).2, hs.sameBody]
    refine horderly.push hs.toGrown.size_le hs.labels hflat fun l hl => ?_
    obtain ⟨B, hB, hsub⟩ := hlabels l hl
    obtain ⟨hlt, heq⟩ := hknown _ hB
    exact ⟨hs.sameLabels ▸ hlt, heq ▸ hsub⟩
  · rw [LowerState.push_body, Ir.callsOf, List.flatMap_append, List.flatMap_singleton, hs.sameBody]
    have hg : Grown s (s'.push st) := hs.toGrown.trans grown_push
    exact List.rel_append (h.calls.imp fun _ _ hcall => hcall.mono hg)
      (hcalls.imp fun _ _ hcall => hcall.mono grown_push)

end Trail

/-! ## Computations that look things up -/

/-- No entity is added either. -/
structure Still (s s' : LowerState) : Prop extends Calm s s' where
  sameEntities : s'.entities = s.entities

namespace Still

/-- Nothing is added where nothing happens. -/
theorem refl (s : LowerState) : Still s s where
  toGrown := .refl s
  sameLabels := rfl
  sameNames := rfl
  sameBody := rfl
  sameEntities := rfl

theorem trans (h : Still s s₁) (h' : Still s₁ s') : Still s s' where
  toCalm := h.toCalm.trans h'.toCalm
  sameEntities := h'.sameEntities.trans h.sameEntities

/-- One step that leaves the function alone. -/
theorem of_step (h : Step .all s s') (hlabels : s'.labels = s.labels) (hnamed : s'.named = s.named)
    (hfunction : s'.function = s.function) (hentities : s'.entities = s.entities) : Still s s' where
  toGrown := h.grown
  sameLabels := hlabels
  sameNames := hnamed
  sameBody := by rw [hfunction]
  sameEntities := hentities

end Still

theorem Plain.still (h : Plain p A s x) (hs : Still s s') : Plain p A s' x :=
  h.of_same hs.sameEntities

/-- A computation that changes nothing but the supplies of types and strings, and reports. -/
class Looks (m : Lower α) : Prop where
  still : ∀ ⦃s x s'⦄, m s = .ok (x, s') → Still s s'

namespace Looks

variable {m : Lower α} {f : α → Lower β}

theorem of_same (h : ∀ s x s', m s = .ok (x, s') → s' = s) : Looks m where
  still := fun s x s' hm => h s x s' hm ▸ .refl s

instance pure (x : α) : Looks (Pure.pure x : Lower α) :=
  of_same fun _ _ _ h => (Prod.mk.inj (Except.ok.inj h)).2.symm

instance bind [hm : Looks m] [hf : ∀ x, Looks (f x)] : Looks (m >>= f) where
  still := fun s y s' h => by
    obtain ⟨x, s₁, hx, hy⟩ := bind_eq_ok_iff.1 h
    exact (hm.still hx).trans ((hf x).still hy)

instance ite {c : Prop} [Decidable c] {m' : Lower α} [Looks m] [Looks m'] :
    Looks (if c then m else m') := by
  split <;> infer_instance

instance fail (fault : Fault) : Looks (throw fault : Lower α) where
  still := fun _ _ _ h => nomatch h

instance lift (r : Except Fault α) : Looks (liftM r : Lower α) :=
  of_same fun _ _ _ h => (lift_eq_ok h).2

instance get : Looks (MonadState.get : Lower LowerState) :=
  of_same fun _ _ _ h => (Prod.mk.inj (Except.ok.inj h)).2.symm

end Looks

section

variable {type composite source target : TypeId} {id : EntityId} {ref : TypeRef} {op : Ir.Op}

instance {question : TypeTable → Except Fault α} : Looks (ask question) := by
  unfold ask
  infer_instance

instance : Looks (entity id) := by
  unfold entity
  infer_instance

instance : Looks functionName := by
  unfold functionName
  infer_instance

instance : Looks (typeId ref) where
  still := fun s type s' h => by
    obtain ⟨types, hintern, rfl⟩ := typeId_eq_ok h
    refine .of_step (.typeId ?_ hintern) rfl rfl rfl rfl
    exact ⟨.sizeofType ⟨ref, none⟩ ref, trivial, List.mem_cons_self⟩

instance : Looks (pointerTo type) where
  still := fun s type s' h => by
    obtain ⟨types, hpointer, rfl⟩ := pointerTo_eq_ok h
    exact .of_step (.pointerTo hpointer) rfl rfl rfl rfl

instance {value : String} : Looks (stringId value) where
  still := fun s id s' h => by
    obtain ⟨-, rfl⟩ := Prod.mk.inj (Except.ok.inj h)
    exact .of_step (.stringId value) rfl rfl rfl rfl

instance {problem : LoweringProblem} : Looks (report location problem) where
  still := fun s id s' h => by
    obtain ⟨-, rfl⟩ := Prod.mk.inj (Except.ok.inj h)
    exact .of_step (.report _) rfl rfl rfl rfl

instance : Looks pointerWidth := by
  unfold pointerWidth
  infer_instance

instance : Looks (isByAddress type) := by
  unfold isByAddress
  infer_instance

instance : Looks (width type) := by
  unfold width
  infer_instance

instance : Looks (castChanges source target) := by
  unfold castChanges
  infer_instance

instance {fault : String → Fault} : Looks (refuseComposite type fault) := by
  unfold refuseComposite
  infer_instance

instance : Looks (load type x) := by
  unfold load
  infer_instance

instance {offset : Nat} : Looks (offsetAddress x offset) := by
  unfold offsetAddress
  infer_instance

instance {size : Nat} : Looks (scale x size) := by
  unfold scale
  infer_instance

instance {name : String} : Looks (member type composite x name) := by
  unfold member
  refine @Looks.bind _ _ _ _ _ fun found => ?_
  cases found <;> infer_instance

instance : Looks (designated type id) := by
  unfold designated
  infer_instance

instance : Looks (objectAddress location type x) := by
  unfold objectAddress
  refine @Looks.bind _ _ _ _ _ fun _ => @Looks.ite _ _ _ _ _ _ ?_
  refine @Looks.bind _ _ _ _ _ fun ptr => ?_
  split <;> infer_instance

instance {op : Source.BinaryOp} : Looks (binary type op source target x y) := by
  unfold binary
  dsimp only
  refine @Looks.bind _ _ _ _ _ fun signed => @Looks.bind _ _ _ _ _ fun width => ?_
  cases op <;> simp only [reduceCtorEq, reduceIte, true_or, or_true, or_self] <;> infer_instance

instance : Looks (arithmetic op type x y) := by
  unfold arithmetic
  infer_instance

end

/-- All results of a computation are of a certain form. -/
def Ensures (m : Lower α) (Q : α → Prop) : Prop :=
  ∀ ⦃s x s'⦄, m s = .ok (x, s') → Q x

namespace Ensures

variable {m : Lower α} {f : α → Lower β} {R : α → Prop} {Q : β → Prop}

theorem pure {x : β} (h : Q x) : Ensures (Pure.pure x : Lower β) Q := by
  intro s y s' hm
  obtain ⟨rfl, -⟩ := Prod.mk.inj (Except.ok.inj hm)
  exact h

theorem fail (fault : Fault) : Ensures (throw fault : Lower β) Q :=
  fun _ _ _ h => nomatch h

theorem bind (hm : Ensures m R) (hf : ∀ x, R x → Ensures (f x) Q) : Ensures (m >>= f) Q := by
  intro s y s' h
  obtain ⟨x, s₁, hx, hy⟩ := bind_eq_ok_iff.1 h
  exact hf x (hm hx) hy

/-- A first step whose result may be anything. -/
theorem next (hf : ∀ x, Ensures (f x) Q) : Ensures (m >>= f) Q :=
  bind (R := fun _ => True) (fun _ _ _ _ => trivial) fun x _ => hf x

theorem ite {c : Prop} [Decidable c] {m m' : Lower β} (h : Ensures m Q) (h' : Ensures m' Q) :
    Ensures (if c then m else m') Q := by
  split
  · exact h
  · exact h'

end Ensures

section

variable {mention read : EntityId → Prop} {type composite source target : TypeId} {op : Ir.Op}
  {id : EntityId}

theorem ensures_load (h : x.Plain mention read) :
    Ensures (load type x) (Ir.Expr.Plain mention read) :=
  .next fun _ => .ite (.pure h) (.next fun _ => .pure (.mem h))

theorem ensures_offsetAddress {offset : Nat} (h : x.Plain mention read) :
    Ensures (offsetAddress x offset) (Ir.Expr.Plain mention read) :=
  .ite (.pure h) (.next fun _ => .pure (.bin h .int))

theorem ensures_scale {size : Nat} (h : x.Plain mention read) :
    Ensures (scale x size) (Ir.Expr.Plain mention read) :=
  .ite (.pure h) (.next fun _ => .pure (.bin h .int))

/-- A member mentions no more than its object. -/
theorem ensures_member {name : String} (h : x.Plain mention read) :
    Ensures (member type composite x name) (Ir.Expr.Plain mention read) := by
  refine .next fun found => ?_
  cases found with
  | none => exact .next fun _ => .fail _
  | some found => exact .bind (ensures_offsetAddress h) fun _ => ensures_load

theorem ensures_designated (hm : mention id) (hr : read id) :
    Ensures (designated type id) (Ir.Expr.Plain mention read) :=
  .next fun _ => .ite (.next fun _ => .pure (.addr hm)) (.next fun _ => .pure (.var hm hr))

/-- Neither does an address. -/
theorem ensures_objectAddress (h : x.Plain mention read) :
    Ensures (objectAddress location type x) (Ir.Expr.Plain mention read) := by
  refine .next fun _ => .ite (.pure h) (.next fun ptr => ?_)
  split
  · next address haddress => exact .pure (h.addressOf? haddress)
  · exact .fail _

/-- A binary operation mentions no more than its operands. -/
theorem ensures_binary {op : Source.BinaryOp} (hx : x.Plain mention read)
    (hy : y.Plain mention read) :
    Ensures (binary type op source target x y) (Ir.Expr.Plain mention read) := by
  refine .next fun signed => .next fun w => ?_
  have hplain : Ensures (pure (.bin w (.ofBinary op signed) x y) : Lower Ir.Expr)
    (Ir.Expr.Plain mention read) := .pure (.bin hx hy)
  -- the branches from the last one on, since each goes on with the next where it does not apply
  have hright : Ensures (do
      if op = .add then
        if ← ask (·.isPointerLike target) then
          return .bin w (.ofBinary op signed) (← scale x (← ask (·.elementSize target))) y
      return .bin w (.ofBinary op signed) x y) (Ir.Expr.Plain mention read) := by
    refine .ite (.next fun _ => .ite (.next fun size => ?_) hplain) hplain
    exact .bind (ensures_scale hx) fun x' hx' => .pure (.bin hx' hy)
  have hleft : Ensures (do
      if op = .add ∨ op = .sub then
        if ← ask (·.isPointerLike source) then
          return .bin w (.ofBinary op signed) x (← scale y (← ask (·.elementSize source)))
      if op = .add then
        if ← ask (·.isPointerLike target) then
          return .bin w (.ofBinary op signed) (← scale x (← ask (·.elementSize target))) y
      return .bin w (.ofBinary op signed) x y) (Ir.Expr.Plain mention read) := by
    refine .ite (.next fun _ => .ite (.next fun size => ?_) hright) hright
    exact .bind (ensures_scale hy) fun y' hy' => .pure (.bin hx hy')
  refine .ite (.next fun _ => .ite (.next fun _ => .ite (.next fun size => ?_) hleft) hleft) hleft
  exact .ite (.pure (.bin hx hy)) (.pure (.bin (.bin hx hy) .int))

/-- Neither does arithmetic. -/
theorem ensures_arithmetic (hx : x.Plain mention read) (hy : y.Plain mention read) :
    Ensures (arithmetic op type x y) (Ir.Expr.Plain mention read) := by
  have hplain : Ensures (pure (.bin x.width op x y) : Lower Ir.Expr) (Ir.Expr.Plain mention read) :=
    .pure (.bin hx hy)
  refine .ite (.next fun _ => .ite (.next fun size => ?_) hplain) hplain
  exact .bind (ensures_scale hy) fun y' hy' => .pure (.bin hx hy')

end

/-! ## What a computation leads to -/

/-- A computation keeps to the trail. What it leads to says which variables are written, which calls
were made and which state is reached. -/
def Goes (p : Source.Part) (s₀ : LowerState) (P : List (Ir.Label × Set EntityId))
    (A : Set EntityId) (cs : List Source.Expr) (s : LowerState) (m : Lower α)
    (K : α → Set EntityId → List Source.Expr → LowerState → Prop) : Prop :=
  Trail p s₀ P A cs s → ∀ ⦃x s'⦄, m s = .ok (x, s') →
    ∃ A' cs', Trail p s₀ P A' cs' s' ∧ K x A' cs' s'

namespace Goes

variable {m : Lower α} {f : α → Lower β} {R : α → Prop}
  {Q : α → Set EntityId → List Source.Expr → LowerState → Prop}
  {K K' : β → Set EntityId → List Source.Expr → LowerState → Prop}

theorem pure {x : β} (h : K x A cs s) : Goes p s₀ P A cs s (Pure.pure x) K := by
  intro htrail y s' hm
  obtain ⟨rfl, rfl⟩ := Prod.mk.inj (Except.ok.inj hm)
  exact ⟨A, cs, htrail, h⟩

theorem fail (fault : Fault) : Goes p s₀ P A cs s (throw fault : Lower β) K :=
  fun _ _ _ hm => nomatch hm

theorem mono {m : Lower β} (h : Goes p s₀ P A cs s m K)
    (hK : ∀ y A' cs' s', K y A' cs' s' → K' y A' cs' s') : Goes p s₀ P A cs s m K' := by
  intro htrail y s' hm
  obtain ⟨A', cs', htrail', h'⟩ := h htrail hm
  exact ⟨A', cs', htrail', hK y A' cs' s' h'⟩

/-- What is known of the state may be used. -/
theorem on_trail {m : Lower β} (h : Trail p s₀ P A cs s → Goes p s₀ P A cs s m K) :
    Goes p s₀ P A cs s m K :=
  fun htrail => h htrail htrail

/-- What follows may depend on the run of the first step. -/
theorem bind_run (h : Goes p s₀ P A cs s m Q) (hnext : ∀ x A₁ cs₁ s₁, m s = .ok (x, s₁) →
    Q x A₁ cs₁ s₁ → Goes p s₀ P A₁ cs₁ s₁ (f x) K) : Goes p s₀ P A cs s (m >>= f) K := by
  intro htrail y s' hm
  obtain ⟨x, s₁, hx, hy⟩ := bind_eq_ok_iff.1 hm
  obtain ⟨A₁, cs₁, htrail₁, hQ⟩ := h htrail hx
  exact hnext x A₁ cs₁ s₁ hx hQ htrail₁ hy

theorem bind [hm : Additive m] (h : Goes p s₀ P A cs s m Q) (hnext : ∀ x A₁ cs₁ s₁, Grown s s₁ →
    Q x A₁ cs₁ s₁ → Goes p s₀ P A₁ cs₁ s₁ (f x) K) : Goes p s₀ P A cs s (m >>= f) K :=
  h.bind_run fun x A₁ cs₁ s₁ hx => hnext x A₁ cs₁ s₁ (hm.grown hx)

theorem ite {c : Prop} [Decidable c] {m m' : Lower β} (h : c → Goes p s₀ P A cs s m K)
    (h' : ¬ c → Goes p s₀ P A cs s m' K) : Goes p s₀ P A cs s (if c then m else m') K := by
  split
  · next hc => exact h hc
  · next hc => exact h' hc

/-- Nothing but the supplies has changed when something was looked up. -/
theorem look [hm : Looks m] (hR : Ensures m R) (hnext : ∀ x s₁, Still s s₁ → R x →
    Goes p s₀ P A cs s₁ (f x) K) : Goes p s₀ P A cs s (m >>= f) K := by
  intro htrail y s' hrun
  obtain ⟨x, s₁, hx, hy⟩ := bind_eq_ok_iff.1 hrun
  have hstill := hm.still hx
  exact hnext x s₁ hstill (hR hx) (htrail.calm hstill.toCalm) hy

/-- A piece of a plain expression. -/
theorem piece {m : Lower Ir.Expr} {f : Ir.Expr → Lower β} [Looks m] (h : Ensures m (Plain p A s))
    (hnext : ∀ x s₁, Still s s₁ → Plain p A s₁ x → Goes p s₀ P A cs s₁ (f x) K) :
    Goes p s₀ P A cs s (m >>= f) K :=
  look h fun x s₁ hstill hx => hnext x s₁ hstill (hx.still hstill)

theorem skip [Looks m] (hnext : ∀ x s₁, Still s s₁ → Goes p s₀ P A cs s₁ (f x) K) :
    Goes p s₀ P A cs s (m >>= f) K :=
  look (R := fun _ => True) (fun _ _ _ _ => trivial) fun x s₁ hstill _ => hnext x s₁ hstill

/-- A computation goes on with the answer to a question. -/
theorem ask {question : TypeTable → Except Fault α}
    (hnext : ∀ a, question s.types = .ok a → Goes p s₀ P A cs s (f a) K) :
    Goes p s₀ P A cs s (Lower.ask question >>= f) K := by
  intro htrail y s' hrun
  obtain ⟨a, s₁, ha, hy⟩ := bind_eq_ok_iff.1 hrun
  obtain ⟨ha, rfl⟩ := lift_eq_ok (get_bind_eq_ok ha)
  exact hnext a ha htrail hy

/-- So it does with an entity. -/
theorem entity {f : Entity → Lower β} {id : EntityId}
    (hnext : ∀ e, s.entities.get id = .ok e → Goes p s₀ P A cs s (f e) K) :
    Goes p s₀ P A cs s (Lower.entity id >>= f) K := by
  intro htrail y s' hrun
  obtain ⟨e, s₁, he, hy⟩ := bind_eq_ok_iff.1 hrun
  obtain ⟨he, rfl⟩ := lift_eq_ok (get_bind_eq_ok he)
  exact hnext e he htrail hy

/-- A label that is handed out is known for what follows. The variables that are written where it is
reached may depend on the state. -/
theorem newLabel_of {f : Ir.Label → Lower β} (B : LowerState → Set EntityId)
    (hnext : ∀ l s₁, s₁.entities = s.entities → Goes p s₀ ((l, B s₁) :: P) A cs s₁ (f l) K) :
    Goes p s₀ P A cs s (Lower.newLabel >>= f) K := by
  intro htrail y s' hrun
  have hlabel : Lower.newLabel s = .ok (⟨s.labels.next⟩, s.takeLabel) := rfl
  rw [bind_ok hlabel] at hrun
  obtain ⟨A', cs', htrail', hK⟩ := hnext _ s.takeLabel rfl (htrail.takeLabel (B s.takeLabel)) hrun
  exact ⟨A', cs', htrail'.weaken (List.subset_cons_self ..), hK⟩

theorem newLabel {f : Ir.Label → Lower β} (B : Set EntityId)
    (hnext : ∀ l s₁, s₁.entities = s.entities → Goes p s₀ ((l, B) :: P) A cs s₁ (f l) K) :
    Goes p s₀ P A cs s (Lower.newLabel >>= f) K :=
  newLabel_of (fun _ => B) hnext

/-- So it does with a new temporary. -/
theorem temporary {type : TypeId} {f : EntityId → Lower β} (hnext : ∀ v s₁, Grown s s₁ →
    v.index = s.entities.size → v.index < s₁.entities.size → Goes p s₀ P A cs s₁ (f v) K) :
    Goes p s₀ P A cs s (Lower.temporary type >>= f) K := by
  intro htrail y s' hrun
  obtain ⟨v, s₁, hv, hy⟩ := bind_eq_ok_iff.1 hrun
  obtain ⟨ref, -, rfl, rfl⟩ := temporary_eq_ok hv
  refine hnext _ _ grown_takeTemporary rfl ?_ (htrail.calm ⟨grown_takeTemporary, rfl, rfl, rfl⟩) hy
  rw [LowerState.size_takeTemporary]
  exact Nat.lt_succ_self _

/-! ### Statements that are appended -/

/-- A statement without calls is appended. -/
theorem emit {action : Ir.Action} (hflat : action.Flat (Plain p A s) fun _ => False)
    (hcalls : action.calls = [])
    (hlabels : ∀ l ∈ (⟨action, location⟩ : Ir.Stmt).labels, ∃ B, (l, B) ∈ P ∧ B ⊆ A)
    (hwritten : ∀ known, (∀ q ∈ P, known q.1 = q.2) → action.written known A = A') :
    Goes p s₀ P A cs s (Lower.emit location action) fun _ A₁ cs₁ s₁ =>
      A₁ = A' ∧ cs₁ = cs ∧ s₁ = s.push ⟨action, location⟩ := by
  intro htrail u s' hrun
  obtain rfl := emit_eq_ok hrun
  have hflat' : action.Flat (Plain p A s) fun v =>
      s.entities.size ≤ v.index ∧ v.index < s.entities.size :=
    hflat.mono (fun _ => id) fun _ => False.elim
  have hpush : Trail p s₀ P A' (cs ++ []) (s.push ⟨action, location⟩) :=
    htrail.push (Still.refl s).toCalm hflat' (by rw [hcalls]; exact .nil) hlabels hwritten
  exact ⟨A', cs, by rwa [List.append_nil] at hpush, rfl, rfl, rfl⟩

theorem eval (hx : Plain p A s x) : Goes p s₀ P A cs s (Lower.emit location (.eval x))
    fun _ A₁ cs₁ s₁ => A₁ = A ∧ cs₁ = cs ∧ s₁ = s.push ⟨.eval x, location⟩ :=
  emit (.eval hx) hx.calls nofun fun _ _ => rfl

theorem store (hx : Plain p A s x) (hy : Plain p A s y) :
    Goes p s₀ P A cs s (Lower.store location x y) fun _ A₁ cs₁ s₁ =>
      A₁ = A ∪ {v | ∃ ptr, x = .addr ptr v} ∧ cs₁ = cs ∧ s₁ = s.push ⟨.assign x y, location⟩ :=
  emit (.assign hx hy) (by rw [Ir.Action.calls, hx.calls, hy.calls]; rfl) nofun fun _ _ => rfl

/-- A variable is written. -/
theorem write {ptr : Width} {v : EntityId} (hv : v.index < s.entities.size) (hy : Plain p A s y) :
    Goes p s₀ P A cs s (Lower.store location (.addr ptr v) y) fun _ A₁ cs₁ s₁ =>
      A₁ = A ∪ {v} ∧ cs₁ = cs ∧ s₁ = s.push ⟨.assign (.addr ptr v) y, location⟩ := by
  have hset : {u | ∃ ptr', Ir.Expr.addr ptr v = .addr ptr' u} = {v} := by
    ext u
    simp [eq_comm]
  exact hset ▸ store (.addr hv) hy

/-- Behind a jump everything counts as written, since nothing gets there. -/
theorem jump {l : Ir.Label} {B : Set EntityId} (hl : (l, B) ∈ P) (hB : B ⊆ A) :
    Goes p s₀ P A cs s (Lower.jump location l) fun _ A₁ cs₁ s₁ =>
      A₁ = Set.univ ∧ cs₁ = cs ∧ s₁ = s.push ⟨.jump l, location⟩ := by
  refine emit .jump rfl (fun l' hl' => ?_) fun _ _ => rfl
  obtain rfl := List.mem_singleton.1 hl'
  exact ⟨B, hl, hB⟩

/-- The same behind a branch, if both labels are known with what is written. -/
theorem branch {yes no : Ir.Label} {B B' : Set EntityId} (hx : Plain p A s x)
    (hyes : (yes, B) ∈ P) (hB : B ⊆ A) (hno : (no, B') ∈ P) (hB' : B' ⊆ A) :
    Goes p s₀ P A cs s (Lower.branch location x yes no) fun _ A₁ cs₁ s₁ =>
      A₁ = Set.univ ∧ cs₁ = cs ∧ s₁ = s.push ⟨.branch x yes no, location⟩ := by
  refine emit (.branch hx) hx.calls (fun l hl => ?_) fun _ _ => rfl
  rcases List.mem_pair.1 hl with rfl | rfl
  · exact ⟨B, hyes, hB⟩
  · exact ⟨B', hno, hB'⟩

/-- Behind a label that is written which is written wherever it is reached. -/
theorem place {l : Ir.Label} {B : Set EntityId} (hl : (l, B) ∈ P) (hB : B ⊆ A) :
    Goes p s₀ P A cs s (Lower.place l) fun _ A₁ cs₁ s₁ =>
      A₁ = B ∧ cs₁ = cs ∧ s₁ = s.push ⟨.label l, none⟩ := by
  refine emit .label rfl (fun l' hl' => ?_) fun known hknown => hknown _ hl
  obtain rfl := List.mem_singleton.1 hl'
  exact ⟨B, hl, hB⟩

/-- Behind a return everything counts as written. -/
theorem ret {value : Option Ir.Expr} (h : ∀ x, value = some x → Plain p A s x) :
    Goes p s₀ P A cs s (Lower.emit location (.ret value)) fun _ A₁ cs₁ s₁ =>
      A₁ = Set.univ ∧ cs₁ = cs ∧ s₁ = s.push ⟨.ret value, location⟩ := by
  refine emit (.ret h) ?_ nofun fun _ _ => rfl
  cases value with
  | none => rfl
  | some x => exact (h x rfl).calls

/-- A loop keeps what each of its rounds keeps. -/
theorem forM {I : Set EntityId → List Source.Expr → LowerState → Prop} {l : List γ}
    {f : γ → Lower Unit} (hI : I A cs s)
    (h : ∀ a ∈ l, ∀ A cs s, I A cs s → Goes p s₀ P A cs s (f a) fun _ => I) :
    Goes p s₀ P A cs s (l.forM f) fun _ => I := by
  induction l generalizing A cs s with
  | nil => exact pure hI
  | cons a l ih =>
    refine bind_run (h a List.mem_cons_self A cs s hI) fun _ A₁ cs₁ s₁ _ hI₁ => ?_
    exact ih hI₁ fun a ha => h a (List.mem_cons_of_mem _ ha)

/-- A loop makes the calls of its rounds in turn. -/
theorem forM_calling {I : Set EntityId → LowerState → Prop} {l : List γ}
    {g : γ → List Source.Expr} {f : γ → Lower Unit} {t : EntityTable} (hI : I A s)
    (h : ∀ a ∈ l, ∀ A cs s, I A s → Goes p s₀ P A cs s (f a) fun _ A' cs' s' =>
      I A' s' ∧ Source.Calling t (g a) cs cs') :
    Goes p s₀ P A cs s (l.forM f) fun _ A' cs' s' =>
      I A' s' ∧ Source.Calling t (l.flatMap g) cs cs' := by
  induction l generalizing A cs s with
  | nil => exact pure ⟨hI, .refl cs⟩
  | cons a l ih =>
    refine bind_run (h a List.mem_cons_self A cs s hI) fun _ A₁ cs₁ s₁ _ ⟨hI₁, hcalls⟩ => ?_
    refine (ih hI₁ fun a ha => h a (List.mem_cons_of_mem _ ha)).mono fun _ _ _ _ hrest => ?_
    exact ⟨hrest.1, hcalls.trans hrest.2⟩

end Goes

end Lower

end Backend386
