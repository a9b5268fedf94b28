import Backend386.Proofs.Lowering.TrailValues

/-!
# Statements on the trail

Where the code of a statement is reached by a jump, nothing is known to be written: loops and labels
that the program names can be entered from anywhere. So every statement begins anew, and what an
expression of it writes counts only up to the next label.

* `Exits.Known` — break and continue lead to known labels;
* `Lower.Made` — the calls of some expressions were made;
* `Lower.goes_enterVariable`, `Lower.goes_testCases` — initial values and switches;
* `Lower.goes_block` — blocks keep to the trail, and make the calls of their expressions in order;
* `Lower.body_trail` — so do the bodies of functions.
-/

namespace Backend386

open Source (Block Stmt Case lowerStmts lowerCases exprsOfStmts exprsOfCases scopesOfStmts
  scopesOfCases evaluatedOfStmts evaluatedOfCases)
open Scope (variablesOfTree variablesOfTrees variablesOfTrees_append)

/-- Where break and continue lead is known, and nothing is known to be written there. -/
structure Exits.Known (exits : Exits) (P : List (Ir.Label × Set EntityId)) : Prop where
  breaks : ∀ l ∈ exits.breakTo, (l, ∅) ∈ P
  continues : ∀ l ∈ exits.continueTo, (l, ∅) ∈ P

namespace Exits.Known

variable {exits : Exits} {P P' : List (Ir.Label × Set EntityId)}

theorem mono (h : exits.Known P) (hP : P ⊆ P') : exits.Known P' :=
  ⟨fun l hl => hP (h.breaks l hl), fun l hl => hP (h.continues l hl)⟩

theorem cons (h : exits.Known P) {q : Ir.Label × Set EntityId} : exits.Known (q :: P) :=
  h.mono (List.subset_cons_self ..)

end Exits.Known

namespace Lower

variable {α β : Type} {p : Source.Part} {s₀ s s' s₁ : LowerState}
  {P P' : List (Ir.Label × Set EntityId)} {A A' : Set EntityId}
  {cs cs₁ : List Source.Expr} {es es' : List Source.Expr} {x value : Ir.Expr}
  {e init : Source.Expr} {location : Option Location} {type : TypeId} {id : EntityId}
  {l yes no : Ir.Label} {exits : Exits} {f : α → Lower β}
  {K : β → Set EntityId → List Source.Expr → LowerState → Prop}

/-! ## Pieces of statements -/

/-- The calls of some expressions were made, and whatever was written is forgotten. -/
def Made (s₀ : LowerState) (cs es : List Source.Expr) (_ : Unit) (_ : Set EntityId)
    (cs' : List Source.Expr) (_ : LowerState) : Prop :=
  Source.Calling s₀.entities es cs cs'

namespace Goes

/-- Expressions were evaluated before. -/
theorem after {m : Lower Unit} (h : Source.Calling s₀.entities es cs cs₁)
    (hm : Goes p s₀ P A cs₁ s m (Made s₀ cs₁ es')) :
    Goes p s₀ P A cs₁ s m (Made s₀ cs (es ++ es')) :=
  hm.mono fun _ _ _ _ => h.trans

/-- The last step looks something up. -/
theorem looked {m : Lower Unit} [hm : Looks m] : Goes p s₀ P A cs s m (Made s₀ cs []) :=
  fun htrail _ _ hrun => ⟨A, cs, htrail.calm (hm.still hrun).toCalm, .refl cs⟩

/-- A label is placed where nothing is known to be written. -/
theorem at_label {f : Unit → Lower β} (hl : (l, ∅) ∈ P)
    (hnext : ∀ s₁, Goes p s₀ P ∅ cs s₁ (f ()) K) : Goes p s₀ P A cs s (Lower.place l >>= f) K :=
  .bind (.place hl (Set.empty_subset A)) fun _ A₁ cs₁ s₁ _ ⟨hA, hcs, _⟩ => by
    subst hA hcs
    exact hnext s₁

/-- A jump to where nothing is known to be written. -/
theorem jump_to {f : Unit → Lower β} (hl : (l, ∅) ∈ P)
    (hnext : ∀ s₁, Goes p s₀ P Set.univ cs s₁ (f ()) K) :
    Goes p s₀ P A cs s (Lower.jump location l >>= f) K :=
  .bind (.jump hl (Set.empty_subset A)) fun _ A₁ cs₁ s₁ _ ⟨hA, hcs, _⟩ => by
    subst hA hcs
    exact hnext s₁

/-- A branch to where nothing is known to be written. -/
theorem branch_to {f : Unit → Lower β} (hx : Plain p A s x) (hyes : (yes, ∅) ∈ P)
    (hno : (no, ∅) ∈ P) (hnext : ∀ s₁, Goes p s₀ P Set.univ cs s₁ (f ()) K) :
    Goes p s₀ P A cs s (Lower.branch location x yes no >>= f) K :=
  .bind (.branch hx hyes (Set.empty_subset A) hno (Set.empty_subset A))
    fun _ A₁ cs₁ s₁ _ ⟨hA, hcs, _⟩ => by
      subst hA hcs
      exact hnext s₁

/-- The last label of a statement. -/
theorem end_label (hl : (l, ∅) ∈ P) (h : Source.Calling s₀.entities es cs cs₁) :
    Goes p s₀ P A cs₁ s (Lower.place l) (Made s₀ cs es) :=
  (place hl (Set.empty_subset A)).mono fun _ _ _ _ ⟨_, hcs, _⟩ => hcs ▸ h

/-- The last jump of a statement. -/
theorem end_jump (hl : (l, ∅) ∈ P) : Goes p s₀ P A cs s (Lower.jump location l) (Made s₀ cs []) :=
  (jump hl (Set.empty_subset A)).mono fun _ _ _ _ ⟨_, hcs, _⟩ => .of_eq hcs

end Goes

theorem goes_effects (hc : p.Closed s₀.entities) (he : p.exprs e) :
    Goes p s₀ P A cs s e.lowerEffects (Made s₀ cs [e]) :=
  (goes_lowerEffects hc he).mono fun _ _ _ _ h => h.calling

/-- The value of an expression, and what is done with it. -/
theorem goes_value {f : Ir.Expr → Lower β} (hc : p.Closed s₀.entities) (he : p.exprs e)
    (hnext : ∀ x A₁ cs₁ s₁, A ⊆ A₁ → Grown s s₁ → Source.Calling s₀.entities [e] cs cs₁ →
      Plain p A₁ s₁ x → Goes p s₀ P A₁ cs₁ s₁ (f x) K) :
    Goes p s₀ P A cs s (e.lowerValue >>= f) K :=
  .bind (goes_lowerValue hc he) fun x A₁ cs₁ s₁ hg h =>
    hnext x A₁ cs₁ s₁ h.written hg h.calling (h.plain x rfl)

/-- The test of a statement. -/
theorem goes_test {f : Unit → Lower β} (hc : p.Closed s₀.entities) (he : p.exprs e)
    (hyes : (yes, ∅) ∈ P) (hno : (no, ∅) ∈ P)
    (hnext : ∀ cs₁ s₁, Source.Calling s₀.entities [e] cs cs₁ →
      Goes p s₀ P Set.univ cs₁ s₁ (f ()) K) :
    Goes p s₀ P A cs s (e.lowerValue >>= fun x => branch location x yes no >>= f) K :=
  goes_value hc he fun _ _ cs₁ _ _ _ hcalls hx =>
    .branch_to hx hyes hno fun s₂ => hnext cs₁ s₂ hcalls

/-- An optional expression is evaluated if it is there. -/
theorem goes_forM_option {o : Option Source.Expr} {f : Source.Expr → Lower Unit}
    (h : ∀ e ∈ o, Goes p s₀ P A cs s (f e) (Made s₀ cs [e])) :
    Goes p s₀ P A cs s (o.forM f) (Made s₀ cs o.toList) := by
  cases o with
  | none => exact .pure (.refl cs)
  | some e => exact h e rfl

/-! ## Initial values -/

/-- The chars of a string make no calls, also when there are too many of them. -/
theorem goes_storeInitialChars {n : Source.Note} {string : String} {length : Nat}
    (hc : p.Closed s₀.entities) (he : p.exprs (.str n string)) (hx : Plain p A s x) :
    Goes p s₀ P A cs s (storeInitialChars location type x (.str n string) length)
      (Made s₀ cs [.str n string]) := by
  refine .skip fun size s₁ hstill => .ite (fun _ => ?_) fun _ => ?_
  · refine Goes.looked.mono fun _ _ _ _ h => ?_
    have hnode : Source.Calling s₀.entities [.str n string] cs (cs ++ []) :=
      (Source.Calling.refl cs).node rfl
    rw [List.append_nil] at hnode
    exact hnode.trans h
  · refine .bind (goes_stable (hx.still hstill)) fun dst A₁ cs₁ s₂ _ hdst => ?_
    refine goes_value hc he fun src A₂ cs₂ s₃ hA₂ hg₃ hcalls hsrc => ?_
    have hdst₃ := (hdst.plain dst rfl).grown hg₃ hA₂
    refine (Goes.forM (I := fun A' cs' s' => cs' = cs₂ ∧ Plain p A' s' dst ∧ Plain p A' s' src)
      ⟨rfl, hdst₃, hsrc⟩ fun offset _ B cs₃ s₄ ⟨hcs, hd, hs⟩ => ?_).mono
        fun _ _ _ _ ⟨hcs, _⟩ => hcs ▸ hdst.calling.trans hcalls
    refine .piece (ensures_offsetAddress hd) fun target s₅ hstill₅ htarget => ?_
    -- a char is copied, or a zero is stored
    have hstore {y : Ir.Expr} {s₆ : LowerState} (hstill₆ : Still s₅ s₆) (hy : Plain p B s₆ y) :
        Goes p s₀ P B cs₃ s₆ (store location target y) fun _ A' cs' s' =>
          cs' = cs₂ ∧ Plain p A' s' dst ∧ Plain p A' s' src := by
      refine (Goes.store (htarget.still hstill₆) hy).mono
        fun _ B' cs₄ s₇ ⟨hB', hcs', hs₇⟩ => ?_
      have hsub : B ⊆ B' := hB' ▸ Set.subset_union_left
      have hg : Grown s₄ s₇ := hs₇ ▸ (hstill₅.trans hstill₆).toGrown.trans grown_push
      exact ⟨hcs'.trans hcs, hd.grown hg hsub, hs.grown hg hsub⟩
    refine .ite (fun _ => ?_) fun _ => hstore (.refl s₅) .int
    exact .piece (ensures_offsetAddress (hs.still hstill₅))
      fun source s₆ hstill₆ hsource => hstore hstill₆ (.mem hsource)

/-- An initializer is evaluated while it is stored. -/
theorem goes_storeInitial (hc : p.Closed s₀.entities) (he : p.exprs init) (hx : Plain p A s x) :
    Goes p s₀ P A cs s (storeInitial location type x init) (Made s₀ cs [init]) := by
  have hvalue {s₁ : LowerState} (hstill : Still s s₁) : Goes p s₀ P A cs s₁ (do
      if ← ask (·.isAggregate type) then
        let _ ← copyAggregate location type x (← init.lowerValue)
      else
        store location x (← init.lowerValue)) (Made s₀ cs [init]) := by
    refine .skip fun _ s₂ hstill₂ => .ite (fun _ => ?_) fun _ => ?_
    · refine goes_value hc he fun src A₁ cs₁ s₃ hA₁ hg₃ hcalls hsrc => ?_
      have hx := hx.grown ((hstill.trans hstill₂).toGrown.trans hg₃) hA₁
      exact .bind (goes_copyAggregate hx hsrc) fun _ _ _ _ _ h => .pure (hcalls.trans h.calling)
    · refine goes_value hc he fun y A₁ cs₁ s₃ hA₁ hg₃ hcalls hy => ?_
      have hx := hx.grown ((hstill.trans hstill₂).toGrown.trans hg₃) hA₁
      exact (Goes.store hx hy).mono fun _ _ _ _ ⟨_, hcs, _⟩ => hcs ▸ hcalls
  unfold storeInitial
  split
  · refine .skip fun _ s₁ hstill => .ite (fun _ => ?_) fun _ => hvalue hstill
    exact goes_storeInitialChars hc he (hx.still hstill)
  · exact hvalue (.refl s)

/-- The initial value of a variable is stored, unless it is static. -/
theorem goes_enterVariable (hc : p.Closed s₀.entities) (hid : p.vars id) :
    Goes p s₀ P A cs s (enterVariable id) (Made s₀ cs (s₀.entities.initial? id).toList) := by
  refine .entity fun v hget => .on_trail fun htrail => ?_
  have hinitial : s₀.entities.initial? id = if v.isPrivate then none else v.initializer? := by
    rw [← htrail.grown.carried.initial?_eq, EntityTable.initial?_eq hget]
  refine .ite (fun hprivate => ?_) fun hprivate => ?_
  · rw [hinitial, if_pos hprivate]
    exact .pure (.refl cs)
  · rw [if_neg hprivate] at hinitial
    rw [hinitial]
    cases hinit : v.initializer? with
    | none => exact .pure (.refl cs)
    | some init =>
      have he : p.exprs init :=
        (htrail.grown.closed hc).initial hid hget (Bool.eq_false_iff.2 hprivate) hinit
      refine .skip fun type s₁ hstill => .skip fun ptr s₂ hstill' => ?_
      refine goes_storeInitial hc he (.addr ?_)
      exact (hstill.trans hstill').sameEntities ▸ EntityTable.lt_of_get hget

/-! ## Switches -/

/-- What a switch compares is plain until the last case was tested. -/
theorem goes_switchValue (hc : p.Closed s₀.entities) (he : p.exprs e) :
    Goes p s₀ P A cs s (switchValue location e) fun x A' cs' s' =>
      Source.Calling s₀.entities [e] cs cs' ∧ Plain p A' s' x := by
  refine .skip fun type s₁ _ => goes_value hc he fun x A₁ cs₁ s₂ _ _ hcalls hx => ?_
  split
  · exact .pure ⟨hcalls, hx⟩
  · exact .pure ⟨hcalls, hx⟩
  · refine .bind (goes_storeTemporary hx) fun v A₂ cs₂ s₃ _ hstored => ?_
    obtain ⟨-, hv, hcs, hlt⟩ := hstored
    exact .pure ⟨hcs ▸ hcalls, .var hlt (.inr hv)⟩

/-- Where a value is not that of the case, all that was written is so still. -/
theorem goes_testCase (hc : p.Closed s₀.entities) (he : p.exprs e) (hvalue : Plain p A s value)
    (hl : (l, ∅) ∈ P) : Goes p s₀ P A cs s (testCase location value l e) fun _ A' cs' s' =>
      Plain p A' s' value ∧ Source.Calling s₀.entities [e] cs cs' := by
  refine goes_value hc he fun x A₁ cs₁ s₁ hA₁ hg₁ hcalls hx => .newLabel A₁ fun next s₂ heq₂ => ?_
  refine .skip fun int s₃ hstill₃ => .skip fun w s₄ hstill₄ => ?_
  have hsame : s₄.entities = s₁.entities := by
    rw [hstill₄.sameEntities, hstill₃.sameEntities, heq₂]
  have hvalue := (hvalue.grown hg₁ hA₁).of_same hsame
  refine .bind (.branch (.bin hvalue (hx.of_same hsame)) (List.mem_cons_of_mem _ hl)
    (Set.empty_subset _) List.mem_cons_self subset_rfl) fun _ A₂ cs₂ s₅ hg₅ ⟨hA₂, hcs₂, _⟩ => ?_
  refine (Goes.place List.mem_cons_self (hA₂ ▸ Set.subset_univ A₁)).mono
    fun _ A₃ cs₃ s₆ ⟨hA₃, hcs₃, hs₆⟩ => ⟨?_, hcs₃ ▸ hcs₂ ▸ hcalls⟩
  exact hvalue.grown (hs₆ ▸ hg₅.trans grown_push) hA₃.symm.subset

/-- The labels of all cases are known behind the tests. -/
theorem goes_testCases {cases : List Case} {f : List Ir.Label → Lower β}
    (hc : p.Closed s₀.entities) (he : ∀ e ∈ exprsOfCases cases, p.exprs e)
    (hvalue : Plain p A s value) (hnext : ∀ labels P' A₁ cs₁ s₁, labels.length = cases.length →
      (∀ l ∈ labels, (l, ∅) ∈ P') → P ⊆ P' →
      Source.Calling s₀.entities (cases.flatMap (·.values)) cs cs₁ →
      Goes p s₀ P' A₁ cs₁ s₁ (f labels) K) :
    Goes p s₀ P A cs s (testCases location value cases >>= f) K := by
  -- by induction on the cases: the label of each is known with nothing written, before its values
  -- are compared
  induction cases generalizing f P A cs s with
  | nil =>
    rw [testCases, pure_bind]
    exact hnext [] P A cs s rfl (List.forall_mem_nil _) (List.Subset.refl P) (.refl cs)
  | cons c cases ih =>
    obtain ⟨values, body⟩ := c
    simp only [exprsOfCases, List.mem_append, or_imp, forall_and] at he
    rw [testCases, bind_assoc]
    refine .newLabel ∅ fun l s₁ heq => ?_
    rw [bind_assoc]
    refine .bind (.forM_calling (I := fun A' s' => Plain p A' s' value)
      (t := s₀.entities) (g := fun e => [e]) ?_ fun e hmem A cs s hvalue =>
        goes_testCase hc (he.1.1 e hmem) hvalue List.mem_cons_self)
          fun _ A₁ cs₁ s₂ _ htested => ?_
    -- the value stays plain while it is compared
    · exact hvalue.of_same heq
    · obtain ⟨hvalue₁, hcalls⟩ := htested
      rw [List.flatMap_singleton'] at hcalls
      rw [bind_assoc]
      refine ih he.2 hvalue₁ fun labels P' A₂ cs₂ s₃ hlength hlabels hP hcalls' => ?_
      rw [pure_bind]
      refine hnext (l :: labels) P' A₂ cs₂ s₃ (congrArg Nat.succ hlength) ?_
        (fun q hq => hP (List.mem_cons_of_mem _ hq)) (hcalls.trans hcalls')
      intro l' hl'
      rcases List.mem_cons.1 hl' with rfl | hl'
      · exact hP List.mem_cons_self
      · exact hlabels l' hl'

/-! ## Jumps -/

/-- A jump to a known label makes no calls. -/
theorem goes_jumpOut {target : Option Ir.Label} {problem : LoweringProblem}
    (h : ∀ l ∈ target, (l, ∅) ∈ P) :
    Goes p s₀ P A cs s (jumpOut location target problem) (Made s₀ cs []) := by
  cases target with
  | none => exact (Goes.looked : Goes p s₀ P A cs s (report location problem) _)
  | some l => exact .end_jump (h l rfl)

/-- A name of the program is known from where it is met first. -/
theorem goes_labelNamed {name : String} {f : NamedLabel → Lower β}
    (hnext : ∀ entry s₁, Goes p s₀ ((entry.label, ∅) :: P) A cs s₁ (f entry) K) :
    Goes p s₀ P A cs s (labelNamed name location >>= f) K := by
  intro htrail y s' hrun
  obtain ⟨entry, s₁, hentry, hrun⟩ := bind_eq_ok_iff.1 hrun
  have hknown : Trail p s₀ ((entry.label, ∅) :: P) A cs s₁ := by
    rcases labelNamed_eq_ok hentry with ⟨hmem, -, rfl⟩ | ⟨-, rfl, rfl⟩
    · exact htrail.named hmem
    · refine (htrail.takeLabel ∅).rename fun e he => ?_
      rcases List.mem_append.1 he with he | he
      · exact .inl ⟨e, he, rfl⟩
      · obtain rfl := List.mem_singleton.1 he
        exact .inr List.mem_cons_self
  obtain ⟨A', cs', htrail', hK⟩ := hnext entry s₁ hknown hrun
  exact ⟨A', cs', htrail'.weaken (List.subset_cons_self ..), hK⟩

/-- Names that are placed keep their labels. -/
theorem goes_markPlaced {name : String} :
    Goes p s₀ P A cs s (markPlaced name location) fun _ A' cs' _ => A' = A ∧ cs' = cs := by
  intro htrail u s' hrun
  obtain ⟨-, rfl⟩ := Prod.mk.inj (Except.ok.inj hrun)
  refine ⟨A, cs, htrail.rename fun e he => ?_, rfl, rfl⟩
  obtain ⟨e', he', rfl⟩ := List.mem_map.1 he
  refine .inl ⟨e', he', ?_⟩
  split <;> rfl

/-- The label for a name that is placed. -/
theorem goes_placeNamed {name : String} {f : Ir.Label → Lower β}
    (hnext : ∀ l s₁ P', (l, ∅) ∈ P' → P ⊆ P' → Goes p s₀ P' A cs s₁ (f l) K) :
    Goes p s₀ P A cs s (placeNamed name location >>= f) K := by
  rw [placeNamed, bind_assoc]
  refine goes_labelNamed fun entry s₁ => ?_
  split
  · simp only [bind_assoc]
    refine .skip fun _ s₂ _ => .skip fun _ s₃ _ => .newLabel ∅ fun l s₄ _ => ?_
    exact hnext l s₄ _ List.mem_cons_self
      fun q hq => List.mem_cons_of_mem _ (List.mem_cons_of_mem _ hq)
  · simp only [bind_assoc, pure_bind]
    refine .bind goes_markPlaced fun _ A₁ cs₁ s₂ _ ⟨hA, hcs⟩ => ?_
    subst hA hcs
    exact hnext entry.label s₂ _ List.mem_cons_self (List.subset_cons_self ..)

/-! ## Statements -/

/-- Statements whose expressions and variables are those of the part. -/
structure Holds (p : Source.Part) (exprs : List Source.Expr) (vars : List EntityId) : Prop where
  expr : ∀ e ∈ exprs, p.exprs e
  var : ∀ id ∈ vars, p.vars id

/-- The parts of two pieces. -/
theorem Holds.append (es : List Source.Expr) (vs : List EntityId) {vs' : List EntityId}
    (h : Holds p (es ++ es') (vs ++ vs')) : Holds p es vs ∧ Holds p es' vs' :=
  ⟨⟨fun e he => h.expr e (List.mem_append_left _ he),
    fun v hv => h.var v (List.mem_append_left _ hv)⟩,
   ⟨fun e he => h.expr e (List.mem_append_right _ he),
    fun v hv => h.var v (List.mem_append_right _ hv)⟩⟩

/-- A statement keeps to the trail and makes the calls of its expressions in order, wherever known
labels are that break and continue lead to. -/
def GoesStmt (p : Source.Part) (s₀ : LowerState) (exits : Exits) (st : Stmt) : Prop :=
  ∀ P, exits.Known P → ∀ A cs s,
    Goes p s₀ P A cs s (st.lower exits) (Made s₀ cs (st.evaluated s₀.entities))

section

variable {test : Source.Expr} {body elseBody : Stmt}

/-- A statement with one arm keeps to the trail if its arm does. -/
theorem goesStmt_ifThen (hc : p.Closed s₀.entities) (ht : p.exprs test)
    (hbody : GoesStmt p s₀ exits body) : GoesStmt p s₀ exits (.ifThen location test body) := by
  intro P hexits A cs s
  rw [Stmt.lower, Stmt.evaluated]
  refine .newLabel ∅ fun bodyLabel _ _ => .newLabel ∅ fun endLabel _ _ => ?_
  refine goes_test hc ht (by simp) (by simp) fun cs₁ _ hcalls => .at_label (by simp) fun s₁ => ?_
  exact .bind (hbody _ hexits.cons.cons ∅ cs₁ s₁)
    fun _ _ _ _ _ hcalls' => .end_label (by simp) (hcalls.trans hcalls')

/-- The same for two arms. -/
theorem goesStmt_ifElse (hc : p.Closed s₀.entities) (ht : p.exprs test)
    (hyes : GoesStmt p s₀ exits body) (hno : GoesStmt p s₀ exits elseBody) :
    GoesStmt p s₀ exits (.ifElse location test body elseBody) := by
  intro P hexits A cs s
  rw [Stmt.lower, Stmt.evaluated]
  refine .newLabel ∅ fun yesLabel _ _ => .newLabel ∅ fun endLabel _ _ => ?_
  refine goes_value hc ht fun x A₁ cs₁ s₁ _ _ hcalls hx => .newLabel ∅ fun noLabel s₂ heq => ?_
  have hx : Plain p A₁ s₂ x := hx.of_same heq
  refine .branch_to hx (by simp) (by simp) fun _ => .at_label (by simp) fun s₃ => ?_
  refine .bind (hyes _ hexits.cons.cons.cons ∅ cs₁ s₃)
    fun _ _ cs₂ _ _ hcalls₂ => .jump_to (by simp) fun _ => .at_label (by simp) fun s₄ => ?_
  exact .bind (hno _ hexits.cons.cons.cons ∅ cs₂ s₄)
    fun _ _ _ _ _ hcalls₃ => .end_label (by simp) (hcalls.trans (hcalls₂.trans hcalls₃))

/-- The body of a loop is left for labels of the loop. -/
theorem goesStmt_whileLoop (hc : p.Closed s₀.entities) (ht : p.exprs test)
    (hbody : ∀ exits, GoesStmt p s₀ exits body) :
    GoesStmt p s₀ exits (.whileLoop location test body) := by
  intro P _ A cs s
  rw [Stmt.lower, Stmt.evaluated]
  refine .newLabel ∅ fun start _ _ => .newLabel ∅ fun bodyLabel _ _ => .newLabel ∅
    fun endLabel _ _ => .at_label (by simp) fun _ => ?_
  refine goes_test hc ht (by simp) (by simp) fun cs₁ _ hcalls => .at_label (by simp) fun s₁ => ?_
  refine .bind (hbody _ _ ⟨by simp, by simp⟩ ∅ cs₁ s₁)
    fun _ _ _ _ _ hcalls₂ => .jump_to (by simp) fun _ => ?_
  exact .end_label (by simp) (hcalls.trans hcalls₂)

/-- The same for a loop with its test at the end. -/
theorem goesStmt_doLoop (hc : p.Closed s₀.entities) (ht : p.exprs test)
    (hbody : ∀ exits, GoesStmt p s₀ exits body) :
    GoesStmt p s₀ exits (.doLoop location body test) := by
  intro P _ A cs s
  rw [Stmt.lower, Stmt.evaluated]
  refine .newLabel ∅ fun start _ _ => .newLabel ∅ fun testLabel _ _ => .newLabel ∅
    fun endLabel _ _ => .at_label (by simp) fun s₁ => ?_
  refine .bind (hbody _ _ ⟨by simp, by simp⟩ ∅ cs s₁)
    fun _ _ _ _ _ hcalls => .at_label (by simp) fun _ => ?_
  exact goes_test hc ht (by simp) (by simp)
    fun _ _ hcalls₂ => .end_label (by simp) (hcalls.trans hcalls₂)

/-- A loop evaluates its initializer, its test, its body and its step, as they stand in the code. -/
theorem goesStmt_forLoop {init test step : Option Source.Expr} (hc : p.Closed s₀.entities)
    (hi : ∀ e ∈ init, p.exprs e) (ht : ∀ e ∈ test, p.exprs e) (hs : ∀ e ∈ step, p.exprs e)
    (hbody : ∀ exits, GoesStmt p s₀ exits body) :
    GoesStmt p s₀ exits (.forLoop location init test step body) := by
  intro P _ A cs s
  rw [Stmt.lower, Stmt.evaluated]
  refine .newLabel ∅ fun start _ _ => .newLabel ∅ fun bodyLabel _ _ => .newLabel ∅
    fun stepLabel _ _ => .newLabel ∅ fun endLabel _ _ => ?_
  -- the four pieces, each behind a label that is reached with nothing known to be written
  refine .bind (goes_forM_option fun e he => goes_effects hc (hi e he))
    fun _ _ cs₁ _ _ hcalls₁ => .at_label (by simp) fun _ => ?_
  refine .bind (goes_forM_option fun e he => ?_) fun _ _ cs₂ _ _ hcalls₂ =>
    .at_label (by simp) fun s₂ => ?_
  · refine goes_value hc (ht e he) fun x A₁ cs₂ _ _ _ hcalls hx => ?_
    exact (Goes.branch hx (B := ∅) (by simp) (Set.empty_subset A₁) (by simp)
      (Set.empty_subset A₁)).mono fun _ _ _ _ ⟨_, hcs, _⟩ => hcs ▸ hcalls
  · refine .bind (hbody _ _ ⟨by simp, by simp⟩ ∅ cs₂ s₂)
      fun _ _ cs₃ _ _ hcalls₃ => .at_label (by simp) fun _ => ?_
    refine .bind (goes_forM_option fun e he => goes_effects hc (hs e he))
      fun _ _ _ _ _ hcalls₄ => .jump_to (by simp) fun _ => .end_label (by simp) ?_
    exact hcalls₁.trans (hcalls₂.trans (hcalls₃.trans hcalls₄))

/-- Behind the tests the labels of all cases are known, and so is where the default leads. -/
theorem goesStmt_switch {value : Source.Expr} {cases : List Case} (hc : p.Closed s₀.entities)
    (hv : p.exprs value) (hvalues : ∀ e ∈ exprsOfCases cases, p.exprs e)
    (hcases : ∀ exits labels, labels.length = cases.length → ∀ P, Exits.Known exits P →
      (∀ l ∈ labels, (l, ∅) ∈ P) → ∀ A cs s, Goes p s₀ P A cs s (lowerCases exits cases labels)
        (Made s₀ cs (evaluatedOfCases s₀.entities cases))) :
    GoesStmt p s₀ exits (.switch location value cases) := by
  intro P hexits A cs s
  rw [Stmt.lower, Stmt.evaluated]
  refine .bind (goes_switchValue hc hv)
    fun x A₁ cs₁ s₁ _ ⟨hcalls₁, hx⟩ => .newLabel ∅ fun endLabel s₂ heq => ?_
  have hx : Plain p A₁ s₂ x := hx.of_same heq
  refine goes_testCases hc hvalues hx fun labels P' A₂ cs₂ _ hlength hlabels hP hcalls₂ => ?_
  have hend : (endLabel, ∅) ∈ P' := hP List.mem_cons_self
  have hexits' : Exits.Known { exits with breakTo := some endLabel } P' := by
    refine ⟨by simpa using hend, fun l hl => hP (List.mem_cons_of_mem _ (hexits.continues l hl))⟩
  have htarget : (defaultTarget cases labels endLabel, ∅) ∈ P' := by
    rcases List.mem_cons.1 (defaultTarget_mem cases labels endLabel) with heq | hmem
    · rwa [heq]
    · exact hlabels _ hmem
  refine .jump_to htarget fun s₃ => ?_
  exact .bind (hcases _ labels hlength P' hexits' hlabels _ cs₂ s₃)
    fun _ _ _ _ _ hcalls₃ => .end_label hend (hcalls₁.trans (hcalls₂.trans hcalls₃))

/-- Names are placed in front of their statements. -/
theorem goesStmt_label {name : String} (hbody : GoesStmt p s₀ exits body) :
    GoesStmt p s₀ exits (.label location name body) := by
  intro P hexits A cs s
  rw [Stmt.lower, Stmt.evaluated]
  refine goes_placeNamed fun l _ P' hl hP => .at_label hl fun s₁ => ?_
  exact hbody P' (hexits.mono hP) ∅ cs s₁

/-- A return evaluates its value. -/
theorem goesStmt_ret {value : Option Source.Expr} (hc : p.Closed s₀.entities)
    (hv : ∀ e ∈ value, p.exprs e) : GoesStmt p s₀ exits (.ret location value) := by
  intro P _ A cs s
  cases value with
  | none =>
    rw [Stmt.lower, Stmt.evaluated]
    refine (Goes.ret ?_).mono fun _ _ _ _ ⟨_, hcs, _⟩ => .of_eq hcs
    nofun
  | some e =>
    rw [Stmt.lower, Stmt.evaluated]
    refine .skip fun _ _ _ => .skip fun _ _ _ => ?_
    refine goes_value hc (hv e rfl) fun x _ _ _ _ _ hcalls hx => ?_
    exact (Goes.ret fun y hy => Option.some.inj hy ▸ hx).mono
      fun _ _ _ _ ⟨_, hcs, _⟩ => hcs ▸ hcalls

end

mutual

/-- Blocks keep to the trail, wherever break and continue lead. -/
theorem goes_block (hc : p.Closed s₀.entities) (exits : Exits) (b : Block)
    (h : Holds p b.exprs b.scope.variablesOfTree) (P : List (Ir.Label × Set EntityId))
    (hexits : exits.Known P) (A : Set EntityId) (cs : List Source.Expr) (s : LowerState) :
    Goes p s₀ P A cs s (b.lower exits) (Made s₀ cs (b.evaluated s₀.entities)) := by
  cases b with
  | mk vars stmts =>
    rw [Block.exprs, Block.scope, variablesOfTree] at h
    obtain ⟨hvars, hstmts⟩ := h.append [] _
    rw [Block.lower, Block.evaluated, List.filterMap_eq_flatMap_toList]
    refine .bind (.forM_calling (I := fun _ _ => True) (t := s₀.entities)
      (g := fun v => (s₀.entities.initial? v).toList) trivial fun v hv A cs s _ => ?_)
        fun _ A₁ cs₁ s₁ _ ⟨_, hcalls⟩ => ?_
    · exact (goes_enterVariable hc (hvars.var v hv)).mono fun _ _ _ _ hmade => ⟨trivial, hmade⟩
    · exact .after hcalls (goes_stmts hc exits stmts hstmts P hexits A₁ cs₁ s₁)

/-- All statements keep to the trail. -/
theorem goes_stmt (hc : p.Closed s₀.entities) (exits : Exits) (st : Stmt)
    (h : Holds p st.exprs (variablesOfTrees st.scopes)) : GoesStmt p s₀ exits st := by
  -- one case per statement: what stands in it is split along its parts, and each form has a lemma
  cases st with
  | expr here e =>
    intro P _ A cs s
    rw [Stmt.lower, Stmt.evaluated]
    exact goes_effects hc (h.expr e List.mem_cons_self)
  | block here body =>
    intro P hexits A cs s
    rw [Stmt.exprs, Stmt.scopes, variablesOfTrees, variablesOfTrees, List.append_nil] at h
    rw [Stmt.lower, Stmt.evaluated]
    exact goes_block hc exits body h P hexits A cs s
  | ifThen here test yes =>
    rw [Stmt.exprs, Stmt.scopes] at h
    obtain ⟨htest, hyes⟩ := h.append [test] []
    exact goesStmt_ifThen hc (htest.expr test List.mem_cons_self) (goes_stmt hc exits yes hyes)
  | ifElse here test yes no =>
    rw [Stmt.exprs, Stmt.scopes, variablesOfTrees_append] at h
    obtain ⟨htest, hrest⟩ := h.append [test] []
    obtain ⟨hyes, hno⟩ := hrest.append _ _
    exact goesStmt_ifElse hc (htest.expr test List.mem_cons_self) (goes_stmt hc exits yes hyes)
      (goes_stmt hc exits no hno)
  | whileLoop here test body =>
    rw [Stmt.exprs, Stmt.scopes] at h
    obtain ⟨htest, hbody⟩ := h.append [test] []
    exact goesStmt_whileLoop hc (htest.expr test List.mem_cons_self)
      fun exits => goes_stmt hc exits body hbody
  | doLoop here body test =>
    rw [Stmt.exprs, Stmt.scopes] at h
    obtain ⟨htest, hbody⟩ := h.append [test] []
    exact goesStmt_doLoop hc (htest.expr test List.mem_cons_self)
      fun exits => goes_stmt hc exits body hbody
  | forLoop here init test step body =>
    rw [Stmt.exprs, Stmt.scopes] at h
    obtain ⟨hheads, hbody⟩ := h.append _ []
    have hheads := hheads.expr
    simp only [List.mem_append, Option.mem_toList, or_imp, forall_and] at hheads
    obtain ⟨⟨hinit, htest⟩, hstep⟩ := hheads
    exact goesStmt_forLoop hc hinit htest hstep fun exits => goes_stmt hc exits body hbody
  | switch here value cases =>
    rw [Stmt.exprs, Stmt.scopes] at h
    obtain ⟨hvalue, hcases⟩ := h.append [value] []
    exact goesStmt_switch hc (hvalue.expr value List.mem_cons_self) hcases.expr
      fun exits labels hlength => goes_cases hc exits cases labels hlength hcases
  | breakOut here =>
    intro P hexits A cs s
    rw [Stmt.lower, Stmt.evaluated]
    exact goes_jumpOut hexits.breaks
  | continueOn here =>
    intro P hexits A cs s
    rw [Stmt.lower, Stmt.evaluated]
    exact goes_jumpOut hexits.continues
  | goto here target =>
    intro P _ A cs s
    rw [Stmt.lower, Stmt.evaluated]
    exact goes_labelNamed fun _ _ => .end_jump (by simp)
  | label here name body =>
    rw [Stmt.exprs, Stmt.scopes] at h
    exact goesStmt_label (goes_stmt hc exits body h)
  | ret here value =>
    refine goesStmt_ret hc fun e he => h.expr e ?_
    obtain rfl : value = some e := he
    exact List.mem_cons_self

/-- So do lists of statements. -/
theorem goes_stmts (hc : p.Closed s₀.entities) (exits : Exits) (ss : List Stmt)
    (h : Holds p (exprsOfStmts ss) (variablesOfTrees (scopesOfStmts ss)))
    (P : List (Ir.Label × Set EntityId)) (hexits : exits.Known P) (A : Set EntityId)
    (cs : List Source.Expr) (s : LowerState) :
    Goes p s₀ P A cs s (lowerStmts exits ss) (Made s₀ cs (evaluatedOfStmts s₀.entities ss)) := by
  cases ss with
  | nil =>
    rw [lowerStmts]
    exact .pure (.refl cs)
  | cons st ss =>
    rw [exprsOfStmts, scopesOfStmts, variablesOfTrees_append] at h
    obtain ⟨hst, hss⟩ := h.append _ _
    rw [lowerStmts]
    exact .bind (goes_stmt hc exits st hst P hexits A cs s) fun _ A₁ cs₁ s₁ _ hcalls =>
      .after hcalls (goes_stmts hc exits ss hss P hexits A₁ cs₁ s₁)

/-- So do the cases of a switch, whose labels are known before. -/
theorem goes_cases (hc : p.Closed s₀.entities) (exits : Exits) (cases : List Case)
    (labels : List Ir.Label) (hlength : labels.length = cases.length)
    (h : Holds p (exprsOfCases cases) (variablesOfTrees (scopesOfCases cases)))
    (P : List (Ir.Label × Set EntityId)) (hexits : exits.Known P)
    (hlabels : ∀ l ∈ labels, (l, ∅) ∈ P) (A : Set EntityId) (cs : List Source.Expr)
    (s : LowerState) : Goes p s₀ P A cs s (lowerCases exits cases labels)
      (Made s₀ cs (evaluatedOfCases s₀.entities cases)) := by
  match cases, labels with
  | [], _ =>
    rw [lowerCases]
    · exact .pure (.refl cs)
    · simp
  | _ :: _, [] => cases hlength
  | .mk values body :: cases, l :: labels =>
    rw [exprsOfCases, scopesOfCases, variablesOfTrees, List.append_assoc] at h
    obtain ⟨-, hrest⟩ := h.append values []
    obtain ⟨hbody, hcases⟩ := hrest.append _ _
    simp only [List.mem_cons, forall_eq_or_imp] at hlabels
    rw [lowerCases, evaluatedOfCases]
    refine .at_label hlabels.1 fun s₁ => ?_
    exact .bind (goes_block hc exits body hbody P hexits ∅ cs s₁) fun _ A₁ cs₁ s₂ _ hcalls =>
      .after hcalls (goes_cases hc exits cases labels (Nat.succ.inj hlength) hcases P hexits
        hlabels.2 A₁ cs₁ s₂)

end

/-- The body of a function keeps to the trail from its first statement on. -/
theorem body_trail {params : List EntityId} {body : Block} (hc : p.Closed s.entities)
    (h : Holds p body.exprs body.scope.variablesOfTree)
    (hbody : body.lower {} (entered s id params body) = .ok ((), s₁)) :
    ∃ A cs, Trail p (entered s id params body) [] A cs s₁ ∧
      Source.Calls s.entities (body.evaluated s.entities) cs := by
  have hstart : Trail p (entered s id params body) [] ∅ [] (entered s id params body) :=
    .start rfl rfl
  have hc : p.Closed (entered s id params body).entities := hc
  obtain ⟨A, cs, htrail, hmade⟩ := goes_block hc {} body h [] ⟨nofun, nofun⟩ ∅ [] _ hstart hbody
  obtain ⟨new, hcalls, rfl⟩ := hmade
  exact ⟨A, _, htrail, hcalls⟩

end Lower

end Backend386
