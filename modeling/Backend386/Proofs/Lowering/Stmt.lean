import Backend386.Proofs.Lowering.Control
import Backend386.Proofs.Lowering.Expr

/-!
# Lowering of statements

The code of a statement stands for its executions, whatever follows it and wherever break and
continue lead from it, as long as no problem is reported.

* `Exits.Lead` — the labels for break and continue stand at the targets;
* `Lower.Lowers` — a computation of the lowering makes code for an execution;
* `Lower.lowers_expr`, `Lower.lowers_ifThen`, … — one lemma for each form of a statement.
-/

namespace Backend386

open Source (Context Store Outcome Execution Typed)
open Source.Execution
open Source.Store (Agree)
open Source.Context (type?_eq_some_iff varType?_eq_some_iff)

/-- The labels for break and continue stand where a break and a continue are to lead. -/
structure Exits.Lead (exits : Exits) (body : List Ir.Stmt)
    (breakTo continueTo : Option (List Ir.Stmt)) : Prop where
  breaks : Option.Rel (fun l rest => Ir.after? l body = some rest) exits.breakTo breakTo
  continues : Option.Rel (fun l rest => Ir.after? l body = some rest) exits.continueTo continueTo

namespace Lower

variable {Γ : Context} {exits : Exits} {s s' s₁ : LowerState} {lo lo' : Nat}
  {a b code body post : List Ir.Stmt}

/-- Problems stay reported, so nothing was reported on the way if nothing is at the end. -/
theorem quiet {d d₁ d₂ : Diagnostics} (h₁ : d <+: d₁) (h₂ : d₁ <+: d₂) (h : d₂ = d) :
    d₁ = d ∧ d₂ = d₁ := by
  have heq : d₁ = d := (h ▸ h₂).eq_of_length_le h₁.length_le
  exact ⟨heq, h.trans heq.symm⟩

/-- A computation of the lowering succeeds, and unless it reports a problem it makes code for an
execution. -/
def Lowers (Γ : Context) (exits : Exits) (m : Lower Unit) (exec : Execution) : Prop :=
  ∀ ⦃s⦄, Ready Γ s → ∃ s' code, Makes s.labels.next m s () s' code ∧
    (s'.diagnostics = s.diagnostics → ∀ {body post breakTo continueTo},
      body = s'.function.body.toList ++ post → exits.Lead body breakTo continueTo →
        Realizes Γ.entities.size body (code ++ post) ⟨post, breakTo, continueTo⟩ exec)

/-- A computation that does the same wherever it is run. -/
theorem Lowers.congr {m m' : Lower Unit} {x : Execution} (hm : Lowers Γ exits m' x)
    (h : ∀ s, Ready Γ s → m s = m' s) : Lowers Γ exits m x := by
  intro s hs
  obtain ⟨s', code, hmakes, hr⟩ := hm hs
  exact ⟨s', code, { hmakes with run := (h s hs).trans hmakes.run }, hr⟩

/-! ## Expressions -/

section

variable {e : Source.Expr} {type : IntType} {r : Ir.Expr}

/-- A typed expression that is lowered for its value. -/
theorem value_of_typed (h : Typed Γ Γ.entities.size e type) (hs : Ready Γ s) :
    ∃ r s' code, Makes s.labels.next e.lowerValue s r s' code ∧
      Implements Γ (e.mentions Γ Γ.entities.size) (e.writes Γ Γ.entities.size) type (e.eval Γ)
        s s' code (some r) := by
  obtain ⟨r, s', code, hm, hi⟩ := (correct_of_typed h).value hs
  refine ⟨r, s', code, ?_, hi⟩
  rw [Source.Expr.lowerValue]
  exact .followed hm ⟨.refl .., needed_some⟩

/-- A typed expression that is lowered for its effects. -/
theorem effects_of_typed (h : Typed Γ Γ.entities.size e type) (hs : Ready Γ s) :
    ∃ s' code, Makes s.labels.next e.lowerEffects s () s' code ∧
      ∀ {body post}, body = s'.function.body.toList ++ post →
        Selects (Agree Γ.entities.size) body (code ++ post) (fun _ => post) (e.effect Γ) := by
  obtain ⟨result, s', code, hm, hi, -⟩ := correct_of_typed h .effects s hs
  -- an expression that leaves nothing behind is finished
  cases result with
  | none =>
    refine ⟨s', code, ?_, ?_⟩
    · rw [Source.Expr.lowerEffects]
      exact .followed hm (.pure ..)
    · intro body post hbody σ τ hτ
      have hd := hi.delivers hbody hτ
      rw [Source.Expr.effect]
      generalize e.eval Γ τ = out at hd
      cases hd with
      | value run keeps agree value => exact .reaches run agree
      | undefined run keeps left value => simp at left
      | fails h => exact .fails h
  -- what it leaves is evaluated once more, for its effects
  | some r =>
    let use : Ir.Stmt := ⟨.eval r, e.location⟩
    refine ⟨s'.push use, code ++ [use], ?_, ?_⟩
    · rw [Source.Expr.lowerEffects]
      exact .bind hm (makes_emit fun l hl => by simp at hl)
    · intro body post hbody σ τ hτ
      have hmid : body = s'.function.body.toList ++ use :: post := by simp [hbody]
      rw [Source.Expr.effect, List.append_assoc]
      rcases (hi.delivers hmid hτ).used fun σ' hr => Ir.fails_eval hr with
        ⟨hout, hf⟩ | ⟨x, τ', σ', hout, hrun, -, hτ', hx⟩
      · rw [hout]
        exact .fails hf
      · rw [hout]
        exact .reaches (hrun.trans (Ir.runs_eval hx)) hτ'

variable {mentions writes : List EntityId} {loc : Option Location} {yes no : Ir.Label}
  {rest yesStart noStart : List Ir.Stmt}

/-- The code of a condition and the jump that it decides. -/
theorem Implements.selects
    (hi : Implements Γ mentions writes type (e.eval Γ) s s' code (some r))
    (hbody : body = s'.function.body.toList ++ ⟨.branch r yes no, loc⟩ :: rest)
    (hyes : Ir.after? yes body = some yesStart) (hno : Ir.after? no body = some noStart) :
    Selects (Agree Γ.entities.size) body (code ++ ⟨.branch r yes no, loc⟩ :: rest)
      (fun b => if b then yesStart else noStart) (e.test Γ) := by
  intro σ τ hτ
  rw [Source.Expr.test]
  rcases (hi.delivers hbody hτ).used fun σ' hr => Ir.fails_branch hr with
    ⟨hout, hf⟩ | ⟨x, τ', σ', hout, hrun, -, hτ', hx⟩
  · rw [hout]
    exact .fails hf
  · rw [hout]
    refine .reaches (hrun.tail (Ir.step_branch hx ?_)) hτ'
    cases x.holds
    · exact hno
    · exact hyes

end

/-! ## Statements without parts -/

theorem lowers_nothing : Lowers Γ exits (pure ()) (exit .normal) := by
  intro s hs
  exact ⟨s, [], .pure .., fun _ _ _ _ _ _ _ => .exit fun _ => .normal .refl⟩

/-- An expression statement does what its expression does. -/
theorem lowers_expr {e : Source.Expr} (h : Γ.IsTyped e) :
    Lowers Γ exits e.lowerEffects (perform (e.effect Γ)) := by
  obtain ⟨type, h⟩ := h
  intro s hs
  obtain ⟨s', code, hm, hselects⟩ := effects_of_typed h hs
  exact ⟨s', code, hm, fun _ _ _ _ _ hbody _ => .perform (hselects hbody)⟩

/-- A jump out of a statement. One that leads nowhere is reported. -/
theorem lowers_jumpOut {here : Option Location} {target : Option Ir.Label}
    {problem : LoweringProblem} {o : Outcome}
    (h : ∀ l ∈ target, ∀ {body post breakTo continueTo}, exits.Lead body breakTo continueTo →
      ∀ σ, Lands body ⟨post, breakTo, continueTo⟩ (⟨.jump l, here⟩ :: post, σ) σ o) :
    Lowers Γ exits (jumpOut here target problem) (exit o) := by
  intro s hs
  cases target with
  | none =>
    let d : Diagnostic := ⟨.error, problem.message, here⟩
    refine ⟨{ s with diagnostics := s.diagnostics ++ [d] }, [], ?_, fun hq => ?_⟩
    · exact {
        Emits.refl s.labels.next s with
        diagnostics := List.prefix_append ..
        run := rfl }
    · simp at hq
  | some l =>
    exact ⟨_, _, makes_jump, fun _ _ _ _ _ _ hexits => .exit (h l rfl hexits)⟩

/-- A break leaves the statement around it. -/
theorem lowers_break {here : Option Location} {problem : LoweringProblem} :
    Lowers Γ exits (jumpOut here exits.breakTo problem) (exit .broke) := by
  refine lowers_jumpOut fun l hl body post breakTo continueTo hexits σ => ?_
  obtain ⟨hbreaks, -⟩ := hexits
  rw [hl] at hbreaks
  cases hbreaks with
  | some hplaced => exact .broke rfl (Ir.runs_jump hplaced)

/-- A continue goes on with its next round. -/
theorem lowers_continue {here : Option Location} {problem : LoweringProblem} :
    Lowers Γ exits (jumpOut here exits.continueTo problem) (exit .continued) := by
  refine lowers_jumpOut fun l hl body post breakTo continueTo hexits σ => ?_
  obtain ⟨-, hcontinues⟩ := hexits
  rw [hl] at hcontinues
  cases hcontinues with
  | some hplaced => exact .continued rfl (.single (.jump hplaced))

theorem lowers_return {here : Option Location} :
    Lowers Γ exits (emit here (.ret none)) (exit (.returned none)) := by
  intro s hs
  refine ⟨_, _, makes_emit fun l hl => by simp at hl, fun _ _ _ _ _ _ _ => ?_⟩
  exact .exit fun σ => .returned ⟨_, .refl, .bare⟩

/-- A return leaves the function with the value of its expression. -/
theorem lowers_returnValue {here : Option Location} {e : Source.Expr} (h : Γ.IsTyped e) :
    Lowers Γ exits (do
        refuseComposite (← typeId e.type) .compositeResult
        emit here (.ret (some (← e.lowerValue))))
      (choose (e.eval Γ) fun x => exit (.returned (some x))) := by
  obtain ⟨type, h⟩ := h
  intro s hs
  obtain ⟨id, hid, hint⟩ := type?_eq_some_iff.1 h.note
  obtain ⟨r, s', code, hm, hi⟩ := value_of_typed h hs
  have hrefuse : refuseComposite id .compositeResult s = .ok ((), s) := by
    rw [refuseComposite, bind_ok (ask_ok (TypeTable.isComposite_of_int (hs.int hint)))]
    rfl
  let ret : Ir.Stmt := ⟨.ret (some r), here⟩
  refine ⟨s'.push ret, code ++ [ret], ?_, fun _ body post breakTo continueTo hbody _ => ?_⟩
  · refine .ask (hs.typeId_ok hid) (.ask hrefuse (.bind hm (makes_emit fun l hl => ?_)))
    simp at hl
  have hmid : body = s'.function.body.toList ++ ret :: post := by simp [hbody]
  have hused {σ τ : Store} (hτ : Agree Γ.entities.size σ τ) :=
    (hi.delivers hmid hτ).used fun σ' hr => Ir.fails_ret hr
  rw [List.append_assoc]
  -- the function returns where the expression has a value, and fails where it has none
  constructor
  · rintro σ τ τ' o hτ ⟨x, ρ, hx, rfl, rfl⟩
    rcases hused hτ with ⟨hout, -⟩ | ⟨y, ρ, σ', hout, hrun, -, hρ, hy⟩
    · simp [hx] at hout
    · obtain ⟨rfl, rfl⟩ : x = y ∧ τ' = ρ := by simpa [hx] using hout
      obtain ⟨v, hv, rfl⟩ := Option.map_eq_some_iff.1 hy
      exact ⟨σ', hρ, .returned ⟨_, hrun, .value hv⟩⟩
  · intro σ τ hτ hm
    rcases hused hτ with ⟨-, hf⟩ | ⟨y, ρ, σ', hout, -⟩
    · exact hf
    · exact (hm _ _ ⟨y, ρ, hout, rfl, rfl⟩).elim

/-! ## Sequences -/

/-- Statements are lowered in their order. -/
theorem Lowers.seq {m₁ m₂ : Lower Unit} {x y : Execution} (h₁ : Lowers Γ exits m₁ x)
    (h₂ : Lowers Γ exits m₂ y) : Lowers Γ exits (do m₁; m₂) (Then x y) := by
  intro s hs
  obtain ⟨s₁, code₁, hm₁, hr₁⟩ := h₁ hs
  obtain ⟨s₂, code₂, hm₂, hr₂⟩ := h₂ (hs.emits hm₁.toEmits)
  refine ⟨s₂, code₁ ++ code₂, hm₁.bind (hm₂.mono hm₁.labels), ?_⟩
  intro hq body post breakTo continueTo hbody hexits
  obtain ⟨hq₁, hq₂⟩ := quiet hm₁.diagnostics hm₂.diagnostics hq
  have hmid : body = s₁.function.body.toList ++ (code₂ ++ post) := by
    rw [hbody, hm₂.body, List.append_assoc]
  rw [List.append_assoc]
  exact .seq (hr₁ hq₁ hmid hexits) (hr₂ hq₂ hbody hexits)

/-! ## Blocks -/

/-- The initial value of an integer variable. -/
theorem makes_storeInitial {v : EntityId} {init : Source.Expr} {type type' : IntType}
    {loc : Option Location} {id : TypeId} {ptr : Width} (hs : Ready Γ s)
    (hint : Γ.types.intType? id = some type) (h : Typed Γ Γ.entities.size init type') :
    ∃ s' code, Makes s.labels.next (storeInitial loc id (.addr ptr v) init) s () s' code ∧
      ∀ {body post}, body = s'.function.body.toList ++ post →
        Selects (Agree Γ.entities.size) body (code ++ post) (fun _ => post)
          (init.initial Γ v) := by
  -- a typed expression is no string
  have hscalar {k : Nat} (h : Typed Γ k init type') :
      storeInitial loc id (.addr ptr v) init = (do
        if ← ask (·.isAggregate id) then
          let _ ← copyAggregate loc id (.addr ptr v) (← init.lowerValue)
        else
          store loc (.addr ptr v) (← init.lowerValue)) := by
    cases h <;> rfl
  obtain ⟨r, s', code, hm, hi⟩ := value_of_typed h hs
  let assign : Ir.Stmt := ⟨.assign (.addr ptr v) r, loc⟩
  refine ⟨s'.push assign, code ++ [assign], ?_, fun {body post} hbody σ τ hτ => ?_⟩
  · rw [hscalar h]
    refine .ask (ask_ok (TypeTable.isAggregate_of_int (hs.int hint))) ?_
    rw [if_neg Bool.false_ne_true]
    exact .bind hm makes_store
  have hmid : body = s'.function.body.toList ++ assign :: post := by simp [hbody]
  rw [Source.Expr.initial, List.append_assoc]
  rcases (hi.delivers hmid hτ).used fun σ' hr => Ir.fails_assign hr with
    ⟨hout, hf⟩ | ⟨x, τ', σ', hout, hrun, -, hτ', hx⟩
  · rw [hout]
    exact .fails hf
  · rw [hout]
    exact .reaches (hrun.trans (Ir.runs_assign hx)) (hτ'.write v x)

/-- A variable is entered with its initial value. -/
theorem lowers_enter {v : EntityId} (h : Γ.Enterable v) :
    Lowers Γ exits (enterVariable v) (Source.enter Γ v) := by
  obtain ⟨hlt, htyped⟩ := h
  obtain ⟨e, he⟩ : ∃ e, Γ.entities.entries[v.index]? = some e :=
    ⟨_, List.getElem?_eq_getElem hlt⟩
  have hinit : Γ.initializer? v = if e.isPrivate then none else e.initializer? := by
    rw [Source.Context.initializer?, he, Option.bind_some]
  -- static variables are initialized elsewhere
  by_cases hp : e.isPrivate
  · rw [if_pos hp] at hinit
    rw [Source.enter, hinit]
    refine lowers_nothing.congr fun s hs => ?_
    rw [enterVariable, bind_ok (hs.entity_ok he), if_pos hp]
  rw [if_neg hp] at hinit
  cases hi : e.initializer? with
  | none =>
    rw [Source.enter, hinit, hi]
    refine lowers_nothing.congr fun s hs => ?_
    rw [enterVariable, bind_ok (hs.entity_ok he), if_neg hp, hi]
  -- the initializer is stored like an assigned value
  | some init =>
    rw [hi] at hinit
    obtain ⟨type, type', hv, ht, -⟩ := htyped init hinit
    obtain ⟨e', id, he', -, hid, hint⟩ := varType?_eq_some_iff.1 hv
    obtain rfl := Option.some.inj (he.symm.trans he')
    rw [Source.enter, hinit]
    intro s hs
    obtain ⟨ptr, hptr⟩ := hs.pointerWidth_ok
    obtain ⟨s', code, hm, hselects⟩ := makes_storeInitial hs hint ht
    refine ⟨s', code, ?_, fun _ _ _ _ _ hbody _ => .perform (hselects hbody)⟩
    rw [enterVariable]
    refine .ask (hs.entity_ok he) ?_
    rw [if_neg hp, hi]
    exact .ask (lift_ok hid) (.ask hptr hm)

/-- So are all variables of a block, in order. -/
theorem lowers_entries {vars : List EntityId} (h : ∀ v ∈ vars, Γ.Enterable v) :
    Lowers Γ exits (vars.forM enterVariable) (sequence (vars.map (Source.enter Γ))) := by
  induction vars with
  | nil => exact lowers_nothing
  | cons v vars ih =>
    obtain ⟨hv, hvars⟩ := List.forall_mem_cons.1 h
    exact (lowers_enter hv).seq (ih hvars)

/-! ## Branches -/

section

variable {here : Option Location} {test : Source.Expr} {yes no : Source.Stmt} {x y : Execution}

/-- A test without a second arm goes on behind the first one. -/
theorem lowers_ifThen (ht : Γ.IsTyped test) (hyes : Lowers Γ exits (yes.lower exits) x) :
    Lowers Γ exits ((Source.Stmt.ifThen here test yes).lower exits)
      (choose (test.test Γ) fun b => if b then x else exit .normal) := by
  obtain ⟨type, ht⟩ := ht
  intro s hs
  let yesLabel : Ir.Label := ⟨s.labels.next⟩
  let endLabel : Ir.Label := ⟨s.labels.next + 1⟩
  obtain ⟨r, s₁, code₁, hm₁, hi₁⟩ := value_of_typed ht hs.takeLabel.takeLabel
  have hlabels₁ : s.labels.next + 2 ≤ s₁.labels.next := hm₁.labels
  let branch : Ir.Stmt := ⟨.branch r yesLabel endLabel, here⟩
  have hs₁ : Ready Γ ((s₁.push branch).push ⟨.label yesLabel, none⟩) :=
    ((hs.takeLabel.takeLabel.emits hm₁.toEmits).push rfl).pushLabel (by simp [yesLabel]; omega)
  obtain ⟨s₂, code₂, hm₂, hr₂⟩ := hyes hs₁
  have hlabels₂ : s₁.labels.next ≤ s₂.labels.next := hm₂.labels
  -- the run of the lowering
  have hm : Makes s.labels.next ((Source.Stmt.ifThen here test yes).lower exits) s ()
      (s₂.push ⟨.label endLabel, none⟩)
      (code₁ ++ branch :: ⟨.label yesLabel, none⟩ :: (code₂ ++ [⟨.label endLabel, none⟩])) := by
    refine .take makes_newLabel (.take makes_newLabel (.bind (hm₁.mono (Nat.le_add_right _ 2)) ?_))
    refine .bind (a := [branch]) makes_branch (.bind (makes_place ?_) (.bind (hm₂.mono ?_)
      (makes_place ?_)))
    all_goals simp; omega
  -- no label is placed twice, so each is found where it stands
  refine ⟨_, _, hm, fun hq body post breakTo continueTo hbody hexits => ?_⟩
  have hcode₁ {l : Ir.Label} (hl : l.index < s.labels.next + 2) : Ir.Lacks l code₁ :=
    hm₁.placed.lacks (.inl hl)
  have hcode₂ {l : Ir.Label} (hl : l.index < s.labels.next + 2) : Ir.Lacks l code₂ :=
    hm₂.placed.lacks (.inl (hl.trans_le hlabels₁))
  have hyesAt : Ir.after? yesLabel body = some (code₂ ++ ⟨.label endLabel, none⟩ :: post) := by
    rw [hs.after? hm.toEmits hbody (by simp [yesLabel])]
    simp [Ir.after?_append_of_lacks (hcode₁ _), Ir.after?, Ir.Stmt.placed?, branch, yesLabel]
  have hendAt : Ir.after? endLabel body = some post := by
    rw [hs.after? hm.toEmits hbody (by simp [endLabel])]
    simp [Ir.after?_append_of_lacks (hcode₁ _), Ir.after?_append_of_lacks (hcode₂ _), Ir.after?,
      Ir.Stmt.placed?, branch, yesLabel, endLabel]
  obtain ⟨-, hq₂⟩ := quiet hm₁.diagnostics hm₂.diagnostics hq
  have hbody₂ : body = s₂.function.body.toList ++ ⟨.label endLabel, none⟩ :: post := by
    simp [hbody]
  have hbody₁ : body = s₁.function.body.toList ++ branch :: ⟨.label yesLabel, none⟩ ::
      (code₂ ++ ⟨.label endLabel, none⟩ :: post) := by
    simp [hbody₂, hm₂.body]
  simp only [List.append_assoc, List.cons_append, List.nil_append]
  -- the code of the test leads to one of the two labels
  refine .choose (hi₁.selects hbody₁ hyesAt hendAt) fun b => ?_
  cases b with
  | false => exact .exit fun _ => .normal .refl
  | true => exact .next_run (fun _ => Ir.runs_label) (hr₂ hq₂ hbody₂ hexits)

/-- Each arm of a test goes on behind the other. -/
theorem lowers_ifElse (ht : Γ.IsTyped test) (hyes : Lowers Γ exits (yes.lower exits) x)
    (hno : Lowers Γ exits (no.lower exits) y) :
    Lowers Γ exits ((Source.Stmt.ifElse here test yes no).lower exits)
      (choose (test.test Γ) fun b => if b then x else y) := by
  obtain ⟨type, ht⟩ := ht
  intro s hs
  let yesLabel : Ir.Label := ⟨s.labels.next⟩
  let endLabel : Ir.Label := ⟨s.labels.next + 1⟩
  obtain ⟨r, s₁, code₁, hm₁, hi₁⟩ := value_of_typed ht hs.takeLabel.takeLabel
  have hlabels₁ : s.labels.next + 2 ≤ s₁.labels.next := hm₁.labels
  -- the label of the else part is taken only after the condition
  let noLabel : Ir.Label := ⟨s₁.labels.next⟩
  let branch : Ir.Stmt := ⟨.branch r yesLabel noLabel, here⟩
  have hs₁ : Ready Γ ((s₁.takeLabel.push branch).push ⟨.label yesLabel, none⟩) :=
    ((hs.takeLabel.takeLabel.emits hm₁.toEmits).takeLabel.push rfl).pushLabel
      (by simp [yesLabel]; omega)
  obtain ⟨s₂, code₂, hm₂, hr₂⟩ := hyes hs₁
  have hlabels₂ : s₁.labels.next + 1 ≤ s₂.labels.next := hm₂.labels
  let skip : Ir.Stmt := ⟨.jump endLabel, none⟩
  have hs₂ : Ready Γ ((s₂.push skip).push ⟨.label noLabel, none⟩) :=
    ((hs₁.emits hm₂.toEmits).push rfl).pushLabel hlabels₂
  obtain ⟨s₃, code₃, hm₃, hr₃⟩ := hno hs₂
  have hlabels₃ : s₂.labels.next ≤ s₃.labels.next := hm₃.labels
  have hm : Makes s.labels.next ((Source.Stmt.ifElse here test yes no).lower exits) s ()
      (s₃.push ⟨.label endLabel, none⟩)
      (code₁ ++ branch :: ⟨.label yesLabel, none⟩ :: (code₂ ++ skip :: ⟨.label noLabel, none⟩ ::
        (code₃ ++ [⟨.label endLabel, none⟩]))) := by
    refine .take makes_newLabel (.take makes_newLabel (.bind (hm₁.mono (Nat.le_add_right _ 2)) ?_))
    refine .take makes_newLabel (.bind (a := [branch]) makes_branch (.bind (makes_place ?_) ?_))
    rotate_left
    refine .bind (hm₂.mono ?_) (.bind (a := [skip]) makes_jump (.bind (makes_place ?_) ?_))
    rotate_left 2
    refine .bind (hm₃.mono ?_) (makes_place ?_)
    all_goals simp [yesLabel, noLabel]; omega
  refine ⟨_, _, hm, fun hq body post breakTo continueTo hbody hexits => ?_⟩
  have hcode₁ {l : Ir.Label} (hl : l.index < s.labels.next + 2) : Ir.Lacks l code₁ :=
    hm₁.placed.lacks (.inl hl)
  have hcode₂ {l : Ir.Label} (hl : l.index < s₁.labels.next + 1) : Ir.Lacks l code₂ :=
    hm₂.placed.lacks (.inl hl)
  have hcode₃ {l : Ir.Label} (hl : l.index < s₂.labels.next) : Ir.Lacks l code₃ :=
    hm₃.placed.lacks (.inl hl)
  have hyesAt : Ir.after? yesLabel body = some (code₂ ++ skip :: ⟨.label noLabel, none⟩ ::
      (code₃ ++ ⟨.label endLabel, none⟩ :: post)) := by
    rw [hs.after? hm.toEmits hbody (by simp [yesLabel])]
    simp [Ir.after?_append_of_lacks (hcode₁ _), Ir.after?, Ir.Stmt.placed?, branch, yesLabel]
  have hnoAt : Ir.after? noLabel body = some (code₃ ++ ⟨.label endLabel, none⟩ :: post) := by
    have hyesNo : s.labels.next ≠ s₁.labels.next := by omega
    rw [hs.after? hm.toEmits hbody (by simp [noLabel]; omega)]
    simp [Ir.after?_append_of_lacks (hm₁.placed.lacks (.inr (le_refl noLabel.index))),
      Ir.after?_append_of_lacks (hcode₂ (Nat.lt_succ_self noLabel.index)), Ir.after?,
      Ir.Stmt.placed?, branch, skip, yesLabel, noLabel, hyesNo]
  have hendAt : Ir.after? endLabel body = some post := by
    have hend₂ : endLabel.index < s₁.labels.next + 1 := by simp [endLabel]; omega
    have hend₃ : endLabel.index < s₂.labels.next := hend₂.trans_le hlabels₂
    have hendNo : s₁.labels.next ≠ s.labels.next + 1 := by omega
    rw [hs.after? hm.toEmits hbody (by simp [endLabel])]
    simp [Ir.after?_append_of_lacks (hcode₁ (Nat.lt_succ_self endLabel.index)),
      Ir.after?_append_of_lacks (hcode₂ hend₂), Ir.after?_append_of_lacks (hcode₃ hend₃), Ir.after?,
      Ir.Stmt.placed?, branch, skip, yesLabel, noLabel, endLabel, hendNo]
  obtain ⟨-, hq⟩ := quiet hm₁.diagnostics (hm₂.diagnostics.trans hm₃.diagnostics) hq
  obtain ⟨hq₂, hq₃⟩ := quiet hm₂.diagnostics hm₃.diagnostics hq
  have hbody₃ : body = s₃.function.body.toList ++ ⟨.label endLabel, none⟩ :: post := by
    simp [hbody]
  have hbody₂ : body = s₂.function.body.toList ++ skip :: ⟨.label noLabel, none⟩ ::
      (code₃ ++ ⟨.label endLabel, none⟩ :: post) := by
    simp [hbody₃, hm₃.body]
  have hbody₁ : body = s₁.function.body.toList ++ branch :: ⟨.label yesLabel, none⟩ ::
      (code₂ ++ skip :: ⟨.label noLabel, none⟩ :: (code₃ ++ ⟨.label endLabel, none⟩ :: post)) := by
    simp [hbody₂, hm₂.body]
  simp only [List.append_assoc, List.cons_append, List.nil_append]
  refine .choose (hi₁.selects hbody₁ hyesAt hnoAt) fun b => ?_
  cases b with
  | false => exact .next_run (fun _ => Ir.runs_label) (hr₃ hq₃ hbody₃ hexits)
  | true => exact .next_run (fun _ => Ir.runs_jump hendAt) (hr₂ hq₂ hbody₂ hexits)

end

/-! ## Loops -/

section

variable {here : Option Location} {test : Source.Expr} {stmt : Source.Stmt} {x : Execution}

/-- A loop tests, runs its body and starts again. -/
theorem lowers_whileLoop (ht : Γ.IsTyped test)
    (hbody : ∀ exits, Lowers Γ exits (stmt.lower exits) x) :
    Lowers Γ exits ((Source.Stmt.whileLoop here test stmt).lower exits)
      (loop (test.test Γ) (fun σ => some ((), σ)) x) := by
  obtain ⟨type, ht⟩ := ht
  intro s hs
  let start : Ir.Label := ⟨s.labels.next⟩
  let bodyLabel : Ir.Label := ⟨s.labels.next + 1⟩
  let endLabel : Ir.Label := ⟨s.labels.next + 2⟩
  have hs₀ : Ready Γ (s.takeLabel.takeLabel.takeLabel.push ⟨.label start, none⟩) :=
    hs.takeLabel.takeLabel.takeLabel.pushLabel (by simp [start]; omega)
  obtain ⟨r, s₁, code₁, hm₁, hi₁⟩ := value_of_typed ht hs₀
  have hlabels₁ : s.labels.next + 3 ≤ s₁.labels.next := hm₁.labels
  let branch : Ir.Stmt := ⟨.branch r bodyLabel endLabel, here⟩
  have hs₁ : Ready Γ ((s₁.push branch).push ⟨.label bodyLabel, none⟩) :=
    ((hs₀.emits hm₁.toEmits).push rfl).pushLabel (by simp [bodyLabel]; omega)
  obtain ⟨s₂, code₂, hm₂, hr₂⟩ := hbody { breakTo := some endLabel, continueTo := some start } hs₁
  have hlabels₂ : s₁.labels.next ≤ s₂.labels.next := hm₂.labels
  let back : Ir.Stmt := ⟨.jump start, none⟩
  -- the run of the lowering
  have hm : Makes s.labels.next ((Source.Stmt.whileLoop here test stmt).lower exits) s ()
      ((s₂.push back).push ⟨.label endLabel, none⟩)
      (⟨.label start, none⟩ :: (code₁ ++ branch :: ⟨.label bodyLabel, none⟩ ::
        (code₂ ++ [back, ⟨.label endLabel, none⟩]))) := by
    refine .take makes_newLabel (.take makes_newLabel (.take makes_newLabel ?_))
    refine .bind (a := [_]) (makes_place ?_) (.bind (hm₁.mono ?_) (.bind (a := [branch])
      makes_branch (.bind (a := [_]) (makes_place ?_) (.bind (hm₂.mono ?_) (.bind (a := [back])
        makes_jump (makes_place ?_))))))
    all_goals simp; omega
  -- each label is found where it stands, as nothing else places it
  refine ⟨_, _, hm, fun hq body post breakTo continueTo hbody hexits => ?_⟩
  have hcode₁ {l : Ir.Label} (hl : l.index < s.labels.next + 3) : Ir.Lacks l code₁ :=
    hm₁.placed.lacks (.inl hl)
  have hcode₂ {l : Ir.Label} (hl : l.index < s.labels.next + 3) : Ir.Lacks l code₂ :=
    hm₂.placed.lacks (.inl (hl.trans_le hlabels₁))
  have hstartAt : Ir.after? start body = some (code₁ ++ branch :: ⟨.label bodyLabel, none⟩ ::
      (code₂ ++ back :: ⟨.label endLabel, none⟩ :: post)) := by
    rw [hs.after? hm.toEmits hbody (by simp [start])]
    simp [Ir.after?, Ir.Stmt.placed?]
  have hbodyAt : Ir.after? bodyLabel body =
      some (code₂ ++ back :: ⟨.label endLabel, none⟩ :: post) := by
    rw [hs.after? hm.toEmits hbody (by simp [bodyLabel])]
    simp [Ir.after?_append_of_lacks (hcode₁ _), Ir.after?, Ir.Stmt.placed?, branch, start,
      bodyLabel]
  have hendAt : Ir.after? endLabel body = some post := by
    rw [hs.after? hm.toEmits hbody (by simp [endLabel])]
    simp [Ir.after?_append_of_lacks (hcode₁ _), Ir.after?_append_of_lacks (hcode₂ _), Ir.after?,
      Ir.Stmt.placed?, branch, back, start, bodyLabel, endLabel]
  obtain ⟨-, hq₂⟩ := quiet hm₁.diagnostics hm₂.diagnostics hq
  have hbody₂ : body = s₂.function.body.toList ++ back :: ⟨.label endLabel, none⟩ :: post := by
    simp [hbody]
  have hbody₁ : body = s₁.function.body.toList ++ branch :: ⟨.label bodyLabel, none⟩ ::
      (code₂ ++ back :: ⟨.label endLabel, none⟩ :: post) := by
    simp [hbody₂, hm₂.body]
  have hrepeated := hr₂ hq₂ hbody₂ ⟨.some hendAt, .some hstartAt⟩
  simp only [List.append_assoc, List.cons_append, List.nil_append]
  -- the loop is entered at its start, and comes back there from its body
  refine .of_run (fun _ => Ir.runs_label) ?_
  refine .loop (hi₁.selects hbody₁ hbodyAt hendAt) hrepeated ?_ ?_
  · exact fun _ => .single (.jump hstartAt)
  · exact .pure () rfl

/-- A loop with its test at the end runs its body first. -/
theorem lowers_doLoop (hbody : ∀ exits, Lowers Γ exits (stmt.lower exits) x)
    (ht : Γ.IsTyped test) :
    Lowers Γ exits ((Source.Stmt.doLoop here stmt test).lower exits)
      (Repeat x (test.test Γ)) := by
  obtain ⟨type, ht⟩ := ht
  intro s hs
  let start : Ir.Label := ⟨s.labels.next⟩
  let testLabel : Ir.Label := ⟨s.labels.next + 1⟩
  let endLabel : Ir.Label := ⟨s.labels.next + 2⟩
  have hs₀ : Ready Γ (s.takeLabel.takeLabel.takeLabel.push ⟨.label start, none⟩) :=
    hs.takeLabel.takeLabel.takeLabel.pushLabel (by simp [start]; omega)
  obtain ⟨s₁, code₁, hm₁, hr₁⟩ :=
    hbody { breakTo := some endLabel, continueTo := some testLabel } hs₀
  have hlabels₁ : s.labels.next + 3 ≤ s₁.labels.next := hm₁.labels
  have hs₁ : Ready Γ (s₁.push ⟨.label testLabel, none⟩) :=
    (hs₀.emits hm₁.toEmits).pushLabel (by simp [testLabel]; omega)
  obtain ⟨r, s₂, code₂, hm₂, hi₂⟩ := value_of_typed ht hs₁
  have hlabels₂ : s₁.labels.next ≤ s₂.labels.next := hm₂.labels
  let branch : Ir.Stmt := ⟨.branch r start endLabel, here⟩
  -- the run of the lowering
  have hm : Makes s.labels.next ((Source.Stmt.doLoop here stmt test).lower exits) s ()
      ((s₂.push branch).push ⟨.label endLabel, none⟩)
      (⟨.label start, none⟩ :: (code₁ ++ ⟨.label testLabel, none⟩ ::
        (code₂ ++ [branch, ⟨.label endLabel, none⟩]))) := by
    refine .take makes_newLabel (.take makes_newLabel (.take makes_newLabel ?_))
    refine .bind (a := [_]) (makes_place ?_) (.bind (hm₁.mono ?_) (.bind (a := [_])
      (makes_place ?_) (.bind (hm₂.mono ?_) (.bind (a := [branch]) makes_branch
        (makes_place ?_)))))
    all_goals simp; omega
  -- each label is found where it stands
  refine ⟨_, _, hm, fun hq body post breakTo continueTo hbody hexits => ?_⟩
  have hcode₁ {l : Ir.Label} (hl : l.index < s.labels.next + 3) : Ir.Lacks l code₁ :=
    hm₁.placed.lacks (.inl hl)
  have hcode₂ {l : Ir.Label} (hl : l.index < s.labels.next + 3) : Ir.Lacks l code₂ :=
    hm₂.placed.lacks (.inl (hl.trans_le hlabels₁))
  have hstartAt : Ir.after? start body = some (code₁ ++ ⟨.label testLabel, none⟩ ::
      (code₂ ++ branch :: ⟨.label endLabel, none⟩ :: post)) := by
    rw [hs.after? hm.toEmits hbody (by simp [start])]
    simp [Ir.after?, Ir.Stmt.placed?]
  have htestAt : Ir.after? testLabel body =
      some (code₂ ++ branch :: ⟨.label endLabel, none⟩ :: post) := by
    rw [hs.after? hm.toEmits hbody (by simp [testLabel])]
    simp [Ir.after?_append_of_lacks (hcode₁ _), Ir.after?, Ir.Stmt.placed?, start, testLabel]
  have hendAt : Ir.after? endLabel body = some post := by
    rw [hs.after? hm.toEmits hbody (by simp [endLabel])]
    simp [Ir.after?_append_of_lacks (hcode₁ _), Ir.after?_append_of_lacks (hcode₂ _), Ir.after?,
      Ir.Stmt.placed?, branch, start, testLabel, endLabel]
  obtain ⟨hq₁, -⟩ := quiet hm₁.diagnostics hm₂.diagnostics hq
  have hbody₂ : body = s₂.function.body.toList ++ branch :: ⟨.label endLabel, none⟩ :: post := by
    simp [hbody]
  have hbody₁ : body = s₁.function.body.toList ++ ⟨.label testLabel, none⟩ ::
      (code₂ ++ branch :: ⟨.label endLabel, none⟩ :: post) := by
    simp [hbody₂, hm₂.body]
  -- a continue goes on with the test, which starts the loop again
  have hrepeated := hr₁ hq₁ hbody₁ ⟨.some hendAt, .some htestAt⟩
  simp only [List.append_assoc, List.cons_append, List.nil_append]
  refine .of_run (fun _ => Ir.runs_label) (.repeats hrepeated ?_ ?_)
  · exact fun _ => .single .label
  · exact hi₂.selects hbody₂ hstartAt hendAt

/-! ### Parts of a for loop that may be missing -/

/-- An optional expression has effects if it is there. -/
theorem effects_of_option {o : Option Source.Expr} (h : ∀ e ∈ o, Γ.IsTyped e) (hs : Ready Γ s) :
    ∃ s' code, Makes s.labels.next (o.forM Source.Expr.lowerEffects) s () s' code ∧
      ∀ {body post}, body = s'.function.body.toList ++ post →
        Selects (Agree Γ.entities.size) body (code ++ post) (fun _ => post)
          (o.elim (fun σ => some ((), σ)) (Source.Expr.effect Γ)) := by
  cases o with
  | none => exact ⟨s, [], .pure .., fun _ => .pure () rfl⟩
  | some e =>
    obtain ⟨type, he⟩ := h e rfl
    exact effects_of_typed he hs

/-- A test that is missing holds. -/
theorem test_of_option {o : Option Source.Expr} {yes no : Ir.Label} (h : ∀ e ∈ o, Γ.IsTyped e)
    (hs : Ready Γ s) :
    ∃ s' code, Makes s.labels.next
        (o.forM fun e => do branch here (← e.lowerValue) yes no) s () s' code ∧
      ∀ {body yesStart noStart},
        body = s'.function.body.toList ++ ⟨.label yes, none⟩ :: yesStart →
          Ir.after? yes body = some yesStart → Ir.after? no body = some noStart →
            Selects (Agree Γ.entities.size) body (code ++ ⟨.label yes, none⟩ :: yesStart)
              (fun b => if b then yesStart else noStart)
              (o.elim (fun σ => some (true, σ)) (Source.Expr.test Γ)) := by
  cases o with
  | none =>
    refine ⟨s, [], .pure .., fun _ _ _ => ?_⟩
    exact .of_run (fun _ => Ir.runs_label) (.pure true rfl)
  | some e =>
    obtain ⟨type, he⟩ := h e rfl
    obtain ⟨r, s', code, hm, hi⟩ := value_of_typed he hs
    refine ⟨_, _, .bind hm makes_branch, fun hbody hyes hno => ?_⟩
    rw [List.append_assoc]
    exact hi.selects (by simp [hbody]) hyes hno

/-- The step of a loop runs behind its body, and where the body continues. -/
theorem lowers_forLoop {init test step : Option Source.Expr} (hi : ∀ e ∈ init, Γ.IsTyped e)
    (ht : ∀ e ∈ test, Γ.IsTyped e) (hstep : ∀ e ∈ step, Γ.IsTyped e)
    (hbody : ∀ exits, Lowers Γ exits (stmt.lower exits) x) :
    Lowers Γ exits ((Source.Stmt.forLoop here init test step stmt).lower exits)
      (Then (perform (init.elim (fun σ => some ((), σ)) (Source.Expr.effect Γ)))
        (loop (test.elim (fun σ => some (true, σ)) (Source.Expr.test Γ))
          (step.elim (fun σ => some ((), σ)) (Source.Expr.effect Γ)) x)) := by
  intro s hs
  let start : Ir.Label := ⟨s.labels.next⟩
  let bodyLabel : Ir.Label := ⟨s.labels.next + 1⟩
  let stepLabel : Ir.Label := ⟨s.labels.next + 2⟩
  let endLabel : Ir.Label := ⟨s.labels.next + 3⟩
  -- the four pieces are lowered one after another, with a label between them
  have hs₀ : Ready Γ s.takeLabel.takeLabel.takeLabel.takeLabel :=
    hs.takeLabel.takeLabel.takeLabel.takeLabel
  obtain ⟨s₁, code₁, hm₁, hi₁⟩ := effects_of_option hi hs₀
  have hlabels₁ : s.labels.next + 4 ≤ s₁.labels.next := hm₁.labels
  have hs₁ : Ready Γ (s₁.push ⟨.label start, none⟩) :=
    (hs₀.emits hm₁.toEmits).pushLabel (by simp [start]; omega)
  obtain ⟨s₂, code₂, hm₂, hi₂⟩ := test_of_option ht hs₁
  have hlabels₂ : s₁.labels.next ≤ s₂.labels.next := hm₂.labels
  have hs₂ : Ready Γ (s₂.push ⟨.label bodyLabel, none⟩) :=
    (hs₁.emits hm₂.toEmits).pushLabel (by simp [bodyLabel]; omega)
  obtain ⟨s₃, code₃, hm₃, hr₃⟩ :=
    hbody { breakTo := some endLabel, continueTo := some stepLabel } hs₂
  have hlabels₃ : s₂.labels.next ≤ s₃.labels.next := hm₃.labels
  have hs₃ : Ready Γ (s₃.push ⟨.label stepLabel, none⟩) :=
    (hs₂.emits hm₃.toEmits).pushLabel (by simp [stepLabel]; omega)
  obtain ⟨s₄, code₄, hm₄, hi₄⟩ := effects_of_option hstep hs₃
  have hlabels₄ : s₃.labels.next ≤ s₄.labels.next := hm₄.labels
  let back : Ir.Stmt := ⟨.jump start, none⟩
  -- the run of the lowering
  have hm : Makes s.labels.next ((Source.Stmt.forLoop here init test step stmt).lower exits) s ()
      ((s₄.push back).push ⟨.label endLabel, none⟩)
      (code₁ ++ ⟨.label start, none⟩ :: (code₂ ++ ⟨.label bodyLabel, none⟩ ::
        (code₃ ++ ⟨.label stepLabel, none⟩ :: (code₄ ++ [back, ⟨.label endLabel, none⟩])))) := by
    refine .take makes_newLabel (.take makes_newLabel (.take makes_newLabel (.take makes_newLabel
      (.bind (hm₁.mono ?_) (.bind (a := [_]) (makes_place ?_) (.bind (hm₂.mono ?_) (.bind
        (a := [_]) (makes_place ?_) ?_)))))))
    rotate_left 4
    refine .bind (hm₃.mono ?_) (.bind (a := [_]) (makes_place ?_) (.bind (hm₄.mono ?_) (.bind
      (a := [back]) makes_jump (makes_place ?_))))
    all_goals simp; omega
  -- the labels were taken first, so none of the pieces places them
  refine ⟨_, _, hm, fun hq body post breakTo continueTo hbody hexits => ?_⟩
  have hcode₁ {l : Ir.Label} (hl : l.index < s.labels.next + 4) : Ir.Lacks l code₁ :=
    hm₁.placed.lacks (.inl hl)
  have hcode₂ {l : Ir.Label} (hl : l.index < s.labels.next + 4) : Ir.Lacks l code₂ :=
    hm₂.placed.lacks (.inl (hl.trans_le hlabels₁))
  have hcode₃ {l : Ir.Label} (hl : l.index < s.labels.next + 4) : Ir.Lacks l code₃ :=
    hm₃.placed.lacks (.inl (hl.trans_le (hlabels₁.trans hlabels₂)))
  have hcode₄ {l : Ir.Label} (hl : l.index < s.labels.next + 4) : Ir.Lacks l code₄ :=
    hm₄.placed.lacks (.inl (hl.trans_le ((hlabels₁.trans hlabels₂).trans hlabels₃)))
  -- what is left behind each label, last to first
  let stepStart := code₄ ++ back :: ⟨.label endLabel, none⟩ :: post
  let bodyStart := code₃ ++ ⟨.label stepLabel, none⟩ :: stepStart
  let testStart := code₂ ++ ⟨.label bodyLabel, none⟩ :: bodyStart
  have hstartAt : Ir.after? start body = some testStart := by
    rw [hs.after? hm.toEmits hbody (by simp [start])]
    simp [Ir.after?_append_of_lacks (hcode₁ _), Ir.after?, Ir.Stmt.placed?, start, testStart,
      bodyStart, stepStart]
  have hbodyAt : Ir.after? bodyLabel body = some bodyStart := by
    rw [hs.after? hm.toEmits hbody (by simp [bodyLabel])]
    simp [Ir.after?_append_of_lacks (hcode₁ _), Ir.after?_append_of_lacks (hcode₂ _), Ir.after?,
      Ir.Stmt.placed?, start, bodyLabel, bodyStart, stepStart]
  have hstepAt : Ir.after? stepLabel body = some stepStart := by
    rw [hs.after? hm.toEmits hbody (by simp [stepLabel])]
    simp [Ir.after?_append_of_lacks (hcode₁ _), Ir.after?_append_of_lacks (hcode₂ _),
      Ir.after?_append_of_lacks (hcode₃ _), Ir.after?, Ir.Stmt.placed?, start, bodyLabel, stepLabel,
      stepStart]
  have hendAt : Ir.after? endLabel body = some post := by
    rw [hs.after? hm.toEmits hbody (by simp [endLabel])]
    simp [Ir.after?_append_of_lacks (hcode₁ _), Ir.after?_append_of_lacks (hcode₂ _),
      Ir.after?_append_of_lacks (hcode₃ _), Ir.after?_append_of_lacks (hcode₄ _), Ir.after?,
      Ir.Stmt.placed?, back, start, bodyLabel, stepLabel, endLabel]
  -- no piece reports anything, if the whole does not
  have hq₃ : s₃.diagnostics = s₂.diagnostics := by
    have hlater := hm₃.diagnostics.trans hm₄.diagnostics
    obtain ⟨-, hq⟩ := quiet (hm₁.diagnostics.trans hm₂.diagnostics) hlater hq
    exact (quiet hm₃.diagnostics hm₄.diagnostics hq).1
  have hbody₄ : body = s₄.function.body.toList ++ back :: ⟨.label endLabel, none⟩ :: post := by
    simp [hbody]
  have hbody₃ : body = s₃.function.body.toList ++ ⟨.label stepLabel, none⟩ :: stepStart := by
    simp [hbody₄, hm₄.body, stepStart]
  have hbody₂ : body = s₂.function.body.toList ++ ⟨.label bodyLabel, none⟩ :: bodyStart := by
    simp [hbody₃, hm₃.body, bodyStart]
  have hbody₁ : body = s₁.function.body.toList ++ ⟨.label start, none⟩ :: testStart := by
    simp [hbody₂, hm₂.body, testStart]
  -- the executions of the pieces, put together like the loop of the source
  have hinit := hi₁ hbody₁
  have htest := hi₂ hbody₂ hbodyAt hendAt
  have hrepeated := hr₃ hq₃ hbody₃ ⟨.some hendAt, .some hstepAt⟩
  have hstepped := (hi₄ hbody₄).next_run fun _ _ => Ir.runs_jump hstartAt
  simp only [List.append_assoc, List.cons_append, List.nil_append]
  refine .seq (.perform hinit) (.of_run (fun _ => Ir.runs_label) ?_)
  exact .loop htest hrepeated (fun _ => .single .label) hstepped

end

end Lower

end Backend386
