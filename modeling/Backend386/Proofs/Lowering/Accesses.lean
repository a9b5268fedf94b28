import Backend386.Proofs.Lowering.Runs
import Backend386.Proofs.Source.Annotations
import Backend386.Proofs.Source.Evaluated

/-!
# What lowered code reads and writes

Each read and each store of the lowered code belongs to an expression of the program. What is read
is as wide as the type of that expression, and what is stored is inside the object that it selects.

* `Ir.Held`, `Ir.Reaches` — addresses that are computed from each other, through temporaries too;
* `Lower.Course` — the lowering of a unit, and `Lower.Course.Gives` — what an expression becomes;
* `Lower.Course.Reads`, `Lower.Course.Stores`, `Lower.Course.Copies` — reads, stores and copies that
  fit the types;
* `Lower.Course.TypedAction`, `Lower.Course.TypedCode` — statements whose accesses fit the types;
* `Lower.Course.Leads` — what a computation leads to, where the accesses of every statement that it
  appends fit the types.
-/

namespace Backend386

namespace Ir

/-! ## Addresses -/

/-- A store to somewhere else than a variable. -/
def Stmt.Keeps (v : EntityId) (st : Stmt) : Prop :=
  ∃ target value, st.action = .assign target value ∧ ∀ w, target ≠ .addr w v

/-- Behind these statements a variable holds what an expression was: that was stored in it, and only
stores to somewhere else have followed. -/
def Held (code : List Stmt) (v : EntityId) (x : Expr) : Prop :=
  ∃ before w location after, code = before ++ ⟨.assign (.addr w v) x, location⟩ :: after ∧
    ∀ st ∈ after, st.Keeps v

/-- Behind these statements, an address is so many bytes beyond another one. -/
inductive Reaches (code : List Stmt) (base : Expr) : Nat → Expr → Prop where
  | self : Reaches code base 0 base
  | add {a : Expr} {k : Nat} {w w' : Width} (h : Reaches code base k a) (offset : Nat) :
    Reaches code base (k + offset) (.bin w .add a (.int w' (Int64.ofNat offset)))
  | held {a : Expr} {k : Nat} {v : EntityId} {w : Width} (h : Reaches code base k a)
    (hv : Held code v a) : Reaches code base k (.var w v)

section

variable {code : List Stmt} {v : EntityId} {x a base : Expr} {k : Nat} {st : Stmt}

theorem not_held_nil : ¬ Held [] v x := by
  rintro ⟨before, w, location, after, h, -⟩
  simp at h

theorem Held.of_store {w : Width} {location : Option Location} :
    Held (code ++ [⟨.assign (.addr w v) x, location⟩]) v x :=
  ⟨code, w, location, [], rfl, by simp⟩

/-- What is held stays held until something writes it. -/
theorem Held.push (h : Held code v x) (hst : st.Keeps v) : Held (code ++ [st]) v x := by
  obtain ⟨before, w, location, after, rfl, hafter⟩ := h
  refine ⟨before, w, location, after ++ [st], by simp, fun st' hmem => ?_⟩
  rcases List.mem_append.1 hmem with hmem | hmem
  · exact hafter st' hmem
  · exact List.mem_singleton.1 hmem ▸ hst

/-- What is reached without temporaries is reached behind any statements. -/
theorem Reaches.of_nil (h : Reaches [] base k a) : Reaches code base k a := by
  induction h with
  | self => exact .self
  | add _ offset ih => exact .add ih offset
  | held _ hv => exact absurd hv not_held_nil

/-- Offsets add up. -/
theorem Reaches.trans {k' : Nat} {b : Expr} (h : Reaches code base k a)
    (h' : Reaches code a k' b) : Reaches code base (k + k') b := by
  induction h' with
  | self => exact h
  | add _ offset ih => exact Nat.add_assoc .. ▸ ih.add offset
  | held _ hv ih => exact ih.held hv

end

end Ir

/-- The object that a value of a type was read from has this address. -/
def TypeTable.AddressOf (t : TypeTable) (type : TypeId) (x a : Ir.Expr) : Prop :=
  t.isByAddress type = .ok true ∧ a = x ∨
    t.isByAddress type = .ok false ∧ ∃ ptr, t.pointerWidth = .ok ptr ∧ x.addressOf? ptr = some a

/-- A value of this width fills an object of a type, which is no struct, union, array or function.
-/
def TypeTable.Fills (t : TypeTable) (type : TypeId) (w : Width) : Prop :=
  t.isByAddress type = .ok false ∧ t.sizeOf type = .ok w.bytes

/-- One of the chunks in which an aggregate of a type is copied, so many bytes behind its beginning.
It is inside of the aggregate. -/
structure TypeTable.Chunk (t : TypeTable) (type : TypeId) (k : Nat) (w : Width) : Prop where
  aggregate : t.isAggregate type = .ok true
  offset : ∃ size alignment, t.sizeOf type = .ok size ∧ t.alignmentOf type = .ok alignment ∧
    w = Lower.chunkWidth alignment ∧ k ∈ Lower.chunkOffsets size w.bytes ∧ k + w.bytes ≤ size

/-- One of the chars of an array of a type. -/
def TypeTable.CharOf (t : TypeTable) (type : TypeId) (k : Nat) : Prop :=
  t.isArray type = .ok true ∧ ∃ size, t.sizeOf type = .ok size ∧ k < size

namespace Lower

/-! ## The course of a lowering -/

/-- The lowering of a part of a program, from its first state to its last one. -/
structure Course where
  part : Source.Part
  first : LowerState
  last : LowerState

namespace Course

variable (c : Course)

/-- The types that are known in the end. -/
abbrev types : TypeTable :=
  c.last.types

/-- An expression was lowered to this one on the way. -/
def Gives (e : Source.Expr) (x : Ir.Expr) : Prop :=
  ∃ depth d s s', Carried c.first s ∧ e.lowerWithin depth d s = .ok (some x, s') ∧
    Carried s' c.last

/-- The type that an expression carries. -/
def HasType (e : Source.Expr) (type : TypeId) : Prop :=
  c.types.lookup? e.type = some type

/-- The type of a variable or a temporary. -/
def TypeOf (v : EntityId) (type : TypeId) : Prop :=
  ∃ e, c.last.entities.get v = .ok e ∧ e.type = .settled type

/-- The object that an expression selects has this address. -/
def ObjectAt (l : Source.Expr) (a : Ir.Expr) : Prop :=
  ∃ x type, c.Gives l x ∧ c.HasType l type ∧ c.types.AddressOf type x a

/-- What is read is no struct, union, array or function, and it is read as wide as it is: a
variable, or the object that an expression selects. -/
def Reads (code : List Ir.Stmt) : Ir.Expr → Prop
  | .var w v => ∃ type, c.TypeOf v type ∧ c.types.isByAddress type = .ok false ∧
    c.types.registerWidth type = .ok w
  | .mem w a => ∃ l type a', c.part.exprs l ∧ c.HasType l type ∧
    c.types.isByAddress type = .ok false ∧ c.types.registerWidth type = .ok w ∧
    c.Gives l (.mem w a') ∧ Ir.Reaches code a' 0 a
  | _ => True

/-- A variable of a type that is initialized with an expression whenever its block is entered. -/
structure Initializes (v : EntityId) (type : TypeId) (init : Source.Expr) : Prop where
  typeOf : c.TypeOf v type
  initial : c.last.entities.initial? v = some init

/-- The object of a type at an address is given the value of an expression: an assignment selects
it, or it is a variable that is initialized. -/
inductive Receives (type : TypeId) : Ir.Expr → Source.Expr → Prop where
  | assigned {n : Source.Note} {l r : Source.Expr} {a : Ir.Expr} (he : c.part.exprs (.assign n l r))
    (htype : c.HasType l type) (hobject : c.ObjectAt l a) : Receives type a r
  | initialized {ptr : Width} {v : EntityId} {init : Source.Expr} (h : c.Initializes v type init) :
    Receives type (.addr ptr v) init

/-- A value is stored that fills its object: a temporary, the object that an assignment selects, or
a variable that is initialized with it. The chars of an array behind those of a string are zero. -/
inductive Stores (code : List Ir.Stmt) : Ir.Expr → Ir.Expr → Prop where
  | temporary {ptr : Width} {v : EntityId} {type : TypeId} {value : Ir.Expr}
    (hv : c.first.entities.size ≤ v.index) (htype : c.TypeOf v type)
    (hfills : c.types.Fills type value.width) : Stores code (.addr ptr v) value
  | object {e l : Source.Expr} {type : TypeId} {a target value : Ir.Expr} (he : c.part.exprs e)
    (hl : e.assigned? = some l) (htype : c.HasType l type) (hobject : c.ObjectAt l a)
    (hreach : Ir.Reaches code a 0 target) (hfills : c.types.Fills type value.width) :
    Stores code target value
  | initial {ptr : Width} {v : EntityId} {type : TypeId} {init : Source.Expr} {value : Ir.Expr}
    (h : c.Initializes v type init) (hvalue : c.Gives init value)
    (hfills : c.types.Fills type value.width) : Stores code (.addr ptr v) value
  | zero {ptr : Width} {v : EntityId} {type : TypeId} {n : Source.Note} {text : String} {k : Nat}
    {target : Ir.Expr} (h : c.Initializes v type (.str n text)) (hchar : c.types.CharOf type k)
    (hlength : text.utf8ByteSize < k) (hreach : Ir.Reaches code (.addr ptr v) k target) :
    Stores code target (.int .w8 0)

/-- A piece of an object is copied to the same place of another one: a chunk of an aggregate, or a
char of a string, whose terminator is the last one. -/
inductive Copies (code : List Ir.Stmt) : Ir.Expr → Width → Ir.Expr → Prop where
  | chunk {type : TypeId} {e : Source.Expr} {a x target source : Ir.Expr} {k : Nat} {w : Width}
    (hreceives : c.Receives type a e) (hx : c.Gives e x) (hchunk : c.types.Chunk type k w)
    (hreach : Ir.Reaches code a k target) (hsource : Ir.Reaches code x k source) :
    Copies code target w source
  | char {ptr : Width} {v : EntityId} {type : TypeId} {n : Source.Note} {text : String} {k : Nat}
    {x target source : Ir.Expr} (h : c.Initializes v type (.str n text))
    (hx : c.Gives (.str n text) x) (hchar : c.types.CharOf type k) (hlength : k ≤ text.utf8ByteSize)
    (hreach : Ir.Reaches code (.addr ptr v) k target) (hsource : Ir.Reaches code x k source) :
    Copies code target .w8 source

/-- A statement whose reads and stores fit the types. A copy reads a piece of an aggregate. -/
inductive TypedAction (code : List Ir.Stmt) : Ir.Action → Prop where
  | plain {action : Ir.Action} (hreads : ∀ r ∈ action.reads, c.Reads code r)
    (hstores : ∀ target value, action = .assign target value → c.Stores code target value) :
    TypedAction code action
  | copy {target source : Ir.Expr} {w : Width}
    (hreads : ∀ r ∈ target.reads ++ source.reads, c.Reads code r)
    (hcopies : c.Copies code target w source) : TypedAction code (.assign target (.mem w source))

/-- The accesses of each statement fit the types, behind the statements before it. -/
def TypedCode (code : List Ir.Stmt) : Prop :=
  ∀ before st after, code = before ++ st :: after → c.TypedAction before st.action

variable {c} {code : List Ir.Stmt}

theorem typedCode_nil : c.TypedCode [] := by
  intro before st after h
  simp at h

/-- A statement that is typed may follow typed code. -/
theorem TypedCode.push (h : c.TypedCode code) {st : Ir.Stmt} (hst : c.TypedAction code st.action) :
    c.TypedCode (code ++ [st]) := by
  intro before st' after heq
  rcases List.eq_nil_or_concat after with rfl | ⟨after, last, rfl⟩
  · obtain ⟨rfl, hlast⟩ := List.append_inj' heq rfl
    obtain rfl := List.singleton_inj.1 hlast
    exact hst
  · rw [List.concat_eq_append, ← List.cons_append, ← List.append_assoc] at heq
    exact h before st' after (List.append_inj' heq rfl).1

/-- A read that needs no temporaries fits the types behind any statements. -/
theorem Reads.of_nil {r : Ir.Expr} (h : c.Reads [] r) : c.Reads code r := by
  cases r with
  | mem w a =>
    obtain ⟨l, type, a', hl, htype, hbyAddress, hw, hgives, hreach⟩ := h
    exact ⟨l, type, a', hl, htype, hbyAddress, hw, hgives, hreach.of_nil⟩
  | _ => exact h

end Course

/-! ## Computations that only add to the state -/

section

variable {α β γ : Type} {s s' : LowerState} {m : Lower α} {f : α → Lower β} {type : TypeId}

/-- A computation that only adds to the state. What was computed before is written down so that
instance search keeps it in mind. -/
class AdditiveAfter {ι : Type} (before : ι) (m : Lower α) : Prop where
  grown : ∀ ⦃s x s'⦄, m s = .ok (x, s') → Grown s s'

/-- The same whatever was computed before. -/
abbrev Additive (m : Lower α) : Prop :=
  AdditiveAfter () m

theorem Additive.grown (h : Additive m) {x : α} (hm : m s = .ok (x, s')) : Grown s s' :=
  AdditiveAfter.grown () hm

section

variable {ι : Type} {before : ι}

theorem AdditiveAfter.elsewhere {κ : Type} {before' : κ} (h : AdditiveAfter before' m) :
    AdditiveAfter before m :=
  ⟨h.grown⟩

instance (priority := low) [h : Additive m] : AdditiveAfter before m :=
  h.elsewhere

instance (priority := low) AdditiveAfter.of_stepwise [Refers α] {es : List Source.Expr}
    [h : Stepwise .any .always m es] : AdditiveAfter before m where
  grown := fun _ _ _ hm => (h.walked (Source.Part.closed_all _) trivial hm).grown

instance AdditiveAfter.bind [hm : AdditiveAfter before m]
    [hf : ∀ x, AdditiveAfter (before, x) (f x)] : AdditiveAfter before (m >>= f) where
  grown := fun s y s' h => by
    obtain ⟨x, s₁, hx, hy⟩ := bind_eq_ok_iff.1 h
    exact (hm.grown hx).trans ((hf x).grown hy)

instance AdditiveAfter.ite {p : Prop} [Decidable p] {m' : Lower α} [AdditiveAfter before m]
    [AdditiveAfter before m'] : AdditiveAfter before (if p then m else m') := by
  split <;> infer_instance

-- the commonest steps, to be found at once

variable {location : Option Location} {l yes no : Ir.Label} {x y : Ir.Expr} {value : String}
  {result : Option Ir.Expr} {d : Demand} {e : Source.Expr}

instance {x : α} : AdditiveAfter before (pure x : Lower α) :=
  letI : Refers α := Refers.none
  .of_stepwise

instance {question : TypeTable → Except Fault α} : AdditiveAfter before (ask question) :=
  letI : Refers α := Refers.none
  .of_stepwise

instance : AdditiveAfter before (temporary type) where
  grown := fun _ _ _ h => by
    obtain ⟨ref, -, -, rfl⟩ := temporary_eq_ok h
    exact grown_takeTemporary

instance : AdditiveAfter before (stringId value) where
  grown := fun _ _ _ h => by
    obtain ⟨rfl, -⟩ := stringId_eq_ok h
    exact (Step.stringId (p := .all) value).grown

instance {action : Ir.Action} : AdditiveAfter before (emit location action) :=
  have : Stepwise .any .always (emit location action) [] := stepwise_emit (.inl trivial)
  .of_stepwise

instance {ref : TypeRef} : AdditiveAfter before (typeId ref) := .of_stepwise
instance : AdditiveAfter before (pointerTo type) := .of_stepwise
instance : AdditiveAfter before newLabel := .of_stepwise
instance : AdditiveAfter before pointerWidth := .of_stepwise
instance : AdditiveAfter before (width type) := .of_stepwise
instance : AdditiveAfter before (store location x y) := .of_stepwise
instance : AdditiveAfter before (branch location x yes no) := .of_stepwise
instance : AdditiveAfter before (jump location l) := .of_stepwise
instance : AdditiveAfter before (place l) := .of_stepwise
instance : AdditiveAfter before (needed location result) := .of_stepwise

instance {inline : Entity → Source.Expr → Lower Ir.Expr}
    [∀ e v A, Stepwise .any A (inline e v) [v]] :
    AdditiveAfter before (e.lowerUsing inline d) := .of_stepwise

instance {l : List γ} {f : γ → Lower Unit} [hf : ∀ a, AdditiveAfter (before, a) (f a)] :
    AdditiveAfter before (l.forM f) where
  grown := by
    induction l with
    | nil =>
      intro s u s' h
      obtain ⟨-, rfl⟩ := Prod.mk.inj (Except.ok.inj h)
      exact .refl s
    | cons a l ih =>
      intro s u s' h
      obtain ⟨u₁, s₁, hfirst, hrest⟩ := bind_eq_ok_iff.1 h
      exact ((hf a).grown hfirst).trans (ih hrest)

instance {o : Option γ} {f : γ → Lower Unit} [hf : ∀ a, AdditiveAfter (before, a) (f a)] :
    AdditiveAfter before (o.forM f) where
  grown := fun s u s' h => by
    cases o with
    | none =>
      obtain ⟨-, rfl⟩ := Prod.mk.inj (Except.ok.inj h)
      exact .refl s
    | some a => exact (hf a).grown h

end

end

/-! ## What a computation leads to -/

theorem pointerWidth_eq : pointerWidth = ask TypeTable.pointerWidth :=
  rfl

theorem ask_apply {α : Type} (question : TypeTable → Except Fault α) (s : LowerState) :
    ask question s = question s.types >>= fun a => .ok (a, s) := by
  change (liftM (question s.types) : Lower α) s = _
  cases question s.types <;> rfl

/-- Two questions, one after the other. -/
theorem ask_bind_ask {α β : Type} (question : TypeTable → Except Fault α)
    (next : α → TypeTable → Except Fault β) :
    (ask question >>= fun a => ask (next a)) = ask fun t => question t >>= fun a => next a t := by
  funext s
  change (ask question s >>= fun r => ask (next r.1) r.2) = _
  rw [ask_apply, ask_apply]
  cases question s.types with
  | error => rfl
  | ok a => exact ask_apply (next a) s

theorem ask_ite {α : Type} {p : Prop} [Decidable p]
    (question question' : TypeTable → Except Fault α) :
    (if p then ask question else ask question') =
      ask fun t => if p then question t else question' t := by
  split <;> rfl

theorem isByAddress_eq (type : TypeId) : isByAddress type = ask (·.isByAddress type) := by
  have hpure (b : Bool) : (pure b : Lower Bool) = ask fun _ => pure b := rfl
  simp only [isByAddress, hpure, ask_bind_ask]
  rfl

theorem width_eq (type : TypeId) : width type = ask (·.registerWidth type) := by
  have hlift (n : Nat) : (liftM (Width.ofBytes n) : Lower Width) =
      ask fun _ => Width.ofBytes n := rfl
  simp only [width, isByAddress_eq, pointerWidth_eq, hlift, ask_bind_ask, ask_ite]
  rfl

theorem castChanges_eq (source target : TypeId) :
    castChanges source target = ask (·.castChanges source target) := by
  have hpure (b : Bool) : (pure b : Lower Bool) = ask fun _ => pure b := rfl
  simp only [castChanges, hpure, ask_bind_ask, ask_ite]
  rfl

/-- What a computation of the course leads to. The accesses of the statements that it
appends fit the types. -/
def Course.Leads {α : Type} (c : Course) (s : LowerState) (m : Lower α)
    (K : α → LowerState → Prop) : Prop :=
  Carried c.first s → Carried s c.last → ∀ ⦃x s'⦄, m s = .ok (x, s') → Carried s' c.last →
    (c.TypedCode s.function.body.toList → c.TypedCode s'.function.body.toList) ∧ K x s'

namespace Course.Leads

variable {α β γ : Type} {c : Course} {s s' : LowerState} {m : Lower α} {f : α → Lower β}
  {Q : α → LowerState → Prop} {K : β → LowerState → Prop} {x : β}

theorem pure (h : K x s) : c.Leads s (Pure.pure x) K := by
  intro _ _ y s' hm _
  obtain ⟨rfl, rfl⟩ := Prod.mk.inj (Except.ok.inj hm)
  exact ⟨id, h⟩

theorem fail (fault : Fault) : c.Leads s (throw fault) K :=
  fun _ _ _ _ hm => nomatch hm

theorem bind_fail {fault : α → Fault} : c.Leads s (m >>= fun a => throw (fault a)) K := by
  intro _ _ y s' hrun _
  obtain ⟨a, s₁, -, hy⟩ := bind_eq_ok_iff.1 hrun
  cases hy

theorem mono {K' : β → LowerState → Prop} {m : Lower β} (h : c.Leads s m K)
    (hK : ∀ y s', K y s' → K' y s') : c.Leads s m K' :=
  fun hfirst hlast y s' hm hend => (h hfirst hlast hm hend).imp_right (hK y s')

/-- What a computation leads to is a state that has grown. -/
theorem grown {K' : β → LowerState → Prop} {m : Lower β} [hm : Additive m] (h : c.Leads s m K)
    (hK : ∀ y s', Grown s s' → K y s' → K' y s') : c.Leads s m K' :=
  fun hfirst hlast y s' hrun hend =>
    (h hfirst hlast hrun hend).imp_right (hK y s' (hm.grown hrun))

/-- The states on the way are carried on to the last one, since the rest only adds to them. -/
theorem bind [hm : Additive m] [hf : ∀ x, AdditiveAfter x (f x)] (h : c.Leads s m Q)
    (hnext : ∀ x s₁, Grown s s₁ → Q x s₁ → c.Leads s₁ (f x) K) : c.Leads s (m >>= f) K := by
  intro hfirst hlast y s' hrun hend
  obtain ⟨x, s₁, hx, hy⟩ := bind_eq_ok_iff.1 hrun
  have hgrown := hm.grown hx
  have hlast₁ := ((hf x).grown hy).carried.trans hend
  obtain ⟨htyped, hQ⟩ := h hfirst hlast hx hlast₁
  obtain ⟨htyped', hK⟩ := hnext x s₁ hgrown hQ (hfirst.trans hgrown.carried) hlast₁ hy hend
  exact ⟨fun h => htyped' (htyped h), hK⟩

theorem ite {p : Prop} [Decidable p] {m m' : Lower β} (h : p → c.Leads s m K)
    (h' : ¬ p → c.Leads s m' K) : c.Leads s (if p then m else m') K := by
  split
  · next hp => exact h hp
  · next hp => exact h' hp

/-- A loop keeps what each of its rounds keeps. -/
theorem forM {I : LowerState → Prop} {l : List γ} {f : γ → Lower Unit} [∀ a, Additive (f a)]
    (hI : I s) (h : ∀ a ∈ l, ∀ s, I s → c.Leads s (f a) fun _ s' => I s') :
    c.Leads s (l.forM f) fun _ s' => I s' := by
  induction l generalizing s with
  | nil => exact pure hI
  | cons a l ih =>
    refine bind (h a List.mem_cons_self s hI) fun _ s₁ _ hI₁ => ?_
    exact ih hI₁ fun a ha => h a (List.mem_cons_of_mem _ ha)

/-! ### Questions -/

/-- What was answered is answered in the end. -/
theorem ask {question : TypeTable → Except Fault α} [TypeTable.Lasting question]
    (h : ∀ a, question c.types = .ok a → c.Leads s (f a) K) :
    c.Leads s (Lower.ask question >>= f) K := by
  intro hfirst hlast y s' hrun hend
  obtain ⟨a, s₁, ha, hy⟩ := bind_eq_ok_iff.1 hrun
  obtain ⟨ha, rfl⟩ := lift_eq_ok (get_bind_eq_ok ha)
  exact h a (hlast.types.lasts question ha) hfirst hlast hy hend

theorem pointerWidth {f : Width → Lower β}
    (h : ∀ ptr, c.types.pointerWidth = .ok ptr → c.Leads s (f ptr) K) :
    c.Leads s (Lower.pointerWidth >>= f) K :=
  ask h

theorem isByAddress {f : Bool → Lower β} {type : TypeId}
    (h : ∀ b, c.types.isByAddress type = .ok b → c.Leads s (f b) K) :
    c.Leads s (Lower.isByAddress type >>= f) K :=
  isByAddress_eq type ▸ ask h

theorem width {f : Width → Lower β} {type : TypeId}
    (h : ∀ w, c.types.registerWidth type = .ok w → c.Leads s (f w) K) :
    c.Leads s (Lower.width type >>= f) K :=
  width_eq type ▸ ask h

theorem castChanges {f : Bool → Lower β} {source target : TypeId}
    (h : ∀ b, c.types.castChanges source target = .ok b → c.Leads s (f b) K) :
    c.Leads s (Lower.castChanges source target >>= f) K :=
  castChanges_eq source target ▸ ask h

theorem get {f : LowerState → Lower β} (h : c.Leads s (f s) K) :
    c.Leads s (MonadState.get >>= f) K :=
  h

/-- What was read without a change of the state. -/
theorem lift {r : Except Fault α} (h : ∀ a, r = .ok a → c.Leads s (f a) K) :
    c.Leads s ((liftM r : Lower α) >>= f) K := by
  intro hfirst hlast y s' hrun hend
  obtain ⟨a, ha, hy⟩ := lift_bind_eq_ok hrun
  exact h a ha hfirst hlast hy hend

/-- An entity, and what has become of it in the end. -/
theorem entity {f : Entity → Lower β} {id : EntityId}
    (h : ∀ e e', s.entities.get id = .ok e → c.last.entities.get id = .ok e' → e.Numbered e' →
      c.Leads s (f e) K) : c.Leads s (Lower.entity id >>= f) K := by
  intro hfirst hlast y s' hrun hend
  obtain ⟨e, s₁, he, hy⟩ := bind_eq_ok_iff.1 hrun
  obtain ⟨he, rfl⟩ := lift_eq_ok (get_bind_eq_ok he)
  obtain ⟨e', he', hnumbered⟩ := hlast.entities he
  exact h e e' he he' hnumbered hfirst hlast hy hend

/-! ### Steps -/

/-- A step that leaves the statements alone. -/
theorem of_step {m : Lower β} (h : Carried c.first s → ∀ ⦃y s'⦄, m s = .ok (y, s') →
    Carried s' c.last → s'.function.body = s.function.body ∧ K y s') : c.Leads s m K := by
  intro hfirst _ y s' hm hend
  obtain ⟨hbody, hK⟩ := h hfirst hm hend
  exact ⟨fun htyped => hbody ▸ htyped, hK⟩

theorem typeId {ref : TypeRef} :
    c.Leads s (Lower.typeId ref) fun type _ => c.types.lookup? ref = some type := by
  refine of_step fun _ type s' hm hend => ?_
  obtain ⟨types, hintern, rfl⟩ := typeId_eq_ok hm
  exact ⟨rfl, hend.types.lookup? (TypeTable.intern_lookup? hintern)⟩

/-- A type that points to another one is registered, and no code is written. -/
theorem pointerTo {type : TypeId} : c.Leads s (Lower.pointerTo type) fun id s' =>
    (∃ ref, c.types.lookup? (.pointer ref) = some id) ∧ s'.entities.size = s.entities.size ∧
      s'.function.body = s.function.body := by
  refine of_step fun _ id s' hm hend => ?_
  obtain ⟨types, hpointer, rfl⟩ := pointerTo_eq_ok hm
  obtain ⟨ref, -, hintern⟩ := Backend386.bind_eq_ok_iff.1 hpointer
  exact ⟨rfl, ⟨ref, hend.types.lookup? (TypeTable.intern_lookup? hintern)⟩, rfl, rfl⟩

theorem newLabel : c.Leads s Lower.newLabel fun _ _ => True := by
  refine of_step fun _ l s' hm _ => ?_
  obtain ⟨-, rfl⟩ := Prod.mk.inj (Except.ok.inj hm)
  exact ⟨rfl, trivial⟩

theorem stringId {value : String} : c.Leads s (Lower.stringId value) fun _ _ => True := by
  refine of_step fun _ id s' hm _ => ?_
  obtain ⟨-, rfl⟩ := Prod.mk.inj (Except.ok.inj hm)
  exact ⟨rfl, trivial⟩

/-- A temporary has the type that it is made for. -/
theorem temporary {type : TypeId} : c.Leads s (Lower.temporary type) fun id s' =>
    c.first.entities.size ≤ id.index ∧ c.TypeOf id type ∧ id.index = s.entities.size ∧
      s'.entities.size = s.entities.size + 1 ∧ s'.function.body = s.function.body := by
  refine of_step fun hfirst id s' hm hend => ?_
  obtain ⟨ref, -, rfl, rfl⟩ := temporary_eq_ok hm
  refine ⟨rfl, hfirst.size_le, ?_, rfl, LowerState.size_takeTemporary, rfl⟩
  have hget : (s.takeTemporary type ref).entities.get ⟨s.entities.size⟩ = .ok _ :=
    EntityTable.get_eq_ok_iff.2 List.getElem?_concat_length
  obtain ⟨e, he, sequence, rfl⟩ := hend.entities hget
  exact ⟨_, he, rfl⟩

/-- A statement is written at the end of the code. -/
theorem emit {action : Ir.Action} {location : Option Location}
    (h : c.TypedAction s.function.body.toList action) :
    c.Leads s (Lower.emit location action) fun _ s' => s'.entities.size = s.entities.size ∧
      s'.function.body.toList = s.function.body.toList ++ [⟨action, location⟩] := by
  intro _ _ u s' hm _
  obtain rfl := emit_eq_ok hm
  exact ⟨fun htyped => LowerState.push_body ▸ htyped.push h, rfl, LowerState.push_body⟩

end Course.Leads

end Lower

end Backend386
