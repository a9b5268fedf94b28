import Backend386.Proofs.Lowering.Labels
import Backend386.Proofs.Lowering.Runs

/-!
# The labels of expressions and statements

Every expression places the labels that it takes, each of them once, and jumps only to these. A
statement may also jump out to where break and continue lead from it. A label that the program names
is noted when it is first met, and waits there until the program places it.

* `Lower.balanced_lower` — expressions;
* `Lower.not_isUndefinedLabel` — problems other than undefined labels read differently;
* `Lower.leads_goto`, `Lower.leads_placeNamed` — the labels that the program names;
* `Lower.BalancedWithin` — a statement keeps the account, given where it may jump out to;
* `Lower.leads_testCases` — the labels of the cases of a switch are to be placed;
* `Lower.balancedWithin_block` — blocks, statements and cases.
-/

namespace Backend386

namespace Lower

open Source.Expr (lowerUsing lowerArgs lowerWithin)

variable {s₀ s s' : LowerState} {known pending : List Ir.Label} {location : Option Location}

/-! ## Expressions -/

section

variable {inline : Entity → Source.Expr → Lower Ir.Expr}


/-- The right operand is behind the label for it, and in front of the label for the end. -/
theorem balanced_logical {d : Demand} {n : Source.Note} {op : Source.LogicalOp} {l r : Source.Expr}
    [Balanced (lowerUsing inline .value l)] [Balanced (lowerUsing inline .value r)] :
    Balanced (lowerUsing inline d (.logical n op l r)) := by
  rw [lowerUsing]
  refine ⟨fun s₀ known pending => ?_⟩
  refine .keep fun _ => .newLabel fun right => .newLabel fun fin => .keep fun _ => ?_
  refine .keep fun _ => .keep fun _ => .keep fun _ => .keep fun _ => .keep fun _ => ?_
  -- the two operators differ in which label is jumped to when
  cases op
  all_goals
    refine .bind (.branch (by simp) (by simp)) fun _ => .bind (.place [fin]) fun _ => ?_
    exact .keep fun _ => .keep fun _ => .keep fun _ => .bind (.place []) fun _ => .pure _

section

variable {d : Demand} {n : Source.Note} {test yes no : Source.Expr}
  {yesLabel noLabel fin : Ir.Label}
  [∀ d, Balanced (lowerUsing inline d yes)] [∀ d, Balanced (lowerUsing inline d no)]

/-- Both arms are behind a label, and in front of the label for the end. -/
theorem leads_voidArms : Leads s₀ known (fin :: noLabel :: yesLabel :: pending)
    (voidArms inline d yes no yesLabel noLabel fin) fun _ => pending := by
  rw [voidArms]
  refine .bind (.place [fin, noLabel]) fun _ => .keep fun _ => .keep fun _ => ?_
  refine .bind (.jump (by simp)) fun _ => .bind (.place [fin]) fun _ => ?_
  exact .keep fun _ => .keep fun _ => .bind (.place []) fun _ => .pure _

/-- The arms of a decision place all of their labels. -/
theorem leads_valueArms {type carried : TypeId} :
    Leads s₀ known (fin :: noLabel :: yesLabel :: pending)
      (valueArms inline d yes no yesLabel noLabel fin type carried) fun _ => pending := by
  rw [valueArms]
  refine .keep fun _ => .keep fun _ => .keep fun _ => ?_
  refine .bind (.place [fin, noLabel]) fun _ => .keep fun _ => .keep fun _ => .keep fun _ => ?_
  refine .bind (.jump (by simp)) fun _ => .bind (.place [fin]) fun _ => ?_
  exact .keep fun _ => .keep fun _ => .keep fun _ => .bind (.place []) fun _ => .pure _

/-- So does a condition. -/
theorem balanced_cond [Balanced (lowerUsing inline .value test)] :
    Balanced (lowerUsing inline d (.cond n test yes no)) := by
  rw [lowerUsing_cond]
  refine ⟨fun s₀ known pending => ?_⟩
  refine .keep fun _ => .newLabel fun yesLabel => .newLabel fun noLabel => .newLabel fun fin => ?_
  refine .keep fun _ => .keep fun _ => .bind (.branch (by simp) (by simp)) fun _ => ?_
  refine .keep fun isVoid => ?_
  split
  · exact leads_voidArms
  · refine .keep fun byAddress => ?_
    split
    · exact .keep fun _ => leads_valueArms
    · exact leads_valueArms

end

mutual

/-- An expression places all labels that it makes. -/
theorem balanced_lowerUsing (hinline : ∀ e v, Balanced (inline e v)) (d : Demand)
    (e : Source.Expr) : Balanced (lowerUsing inline d e) := by
  -- what is lowered in sequence is found by instance search; decisions and conditions place labels
  -- of their own
  cases e with
  | int n v | str n v | sizeofType n t | sizeofExpr n e =>
    rw [lowerUsing]
    infer_instance
  | var n id =>
    rw [lowerUsing]
    refine .bind_of inferInstance fun _ => .bind_of inferInstance fun e => ?_
    split <;> infer_instance
  | unary n op e =>
    have := fun d => balanced_lowerUsing hinline d e
    rw [lowerUsing]
    refine .bind_of inferInstance fun _ => ?_
    split <;> infer_instance
  | preStep n _ e | postStep n _ e | addr n e | deref n e | member n e _ | ptrMember n e _ =>
    have := balanced_lowerUsing hinline .value e
    rw [lowerUsing]
    infer_instance
  | cast n e =>
    have := fun d => balanced_lowerUsing hinline d e
    rw [lowerUsing]
    dsimp only
    infer_instance
  | binary n _ l r | opAssign n _ l r | index n l r =>
    have := balanced_lowerUsing hinline .value l
    have := balanced_lowerUsing hinline .value r
    rw [lowerUsing]
    infer_instance
  | assign n l r =>
    have := balanced_lowerUsing hinline .value l
    have := balanced_lowerUsing hinline .value r
    rw [lowerUsing]
    cases d <;> infer_instance
  | logical n op l r =>
    have := balanced_lowerUsing hinline .value l
    have := balanced_lowerUsing hinline .value r
    exact balanced_logical
  | cond n test yes no =>
    have := balanced_lowerUsing hinline .value test
    have := fun d => balanced_lowerUsing hinline d yes
    have := fun d => balanced_lowerUsing hinline d no
    exact balanced_cond
  | call n callee args =>
    have := balanced_lowerUsing hinline .value callee
    have := balanced_lowerArgs hinline args
    rw [lowerUsing]
    infer_instance

/-- So do arguments. -/
theorem balanced_lowerArgs (hinline : ∀ e v, Balanced (inline e v)) (es : List Source.Expr) :
    Balanced (lowerArgs inline es) := by
  cases es with
  | nil =>
    rw [lowerArgs]
    infer_instance
  | cons e es =>
    have := balanced_lowerUsing hinline .value e
    have := balanced_lowerArgs hinline es
    rw [lowerArgs]
    infer_instance

end

end

variable {d : Demand} {e : Source.Expr}

/-- The values of named constants are lowered like any other expression. -/
theorem balanced_lowerWithin (depth : Nat) : Balanced (lowerWithin depth d e) := by
  induction depth generalizing d e with
  | zero =>
    rw [lowerWithin]
    exact balanced_lowerUsing (fun _ _ => inferInstance) d e
  | succ depth ih =>
    rw [lowerWithin]
    exact balanced_lowerUsing (fun _ _ => inferInstance) d e

instance balanced_lower : Balanced (e.lower d) := by
  have := fun n => balanced_lowerWithin (d := d) (e := e) n
  unfold Source.Expr.lower
  infer_instance

instance : Balanced e.lowerValue := by
  unfold Source.Expr.lowerValue
  infer_instance

instance : Balanced e.lowerEffects := by
  unfold Source.Expr.lowerEffects
  infer_instance

/-! ## Problems -/

theorem head?_append {a b : String} {c : Char} (h : a.toList.head? = some c) :
    (a ++ b).toList.head? = some c := by
  rw [String.toList_append, List.head?_append, h]
  rfl

/-- The first letter of the wording of a problem. -/
def initial : LoweringProblem → Char
  | .breakOutsideLoop => 'b'
  | .continueOutsideLoop => 'c'
  | .duplicatedLabel .. => 'd'
  | .undefinedLabel _ => 'u'
  | .nonConstantInitializer _ => 'i'
  | .initializerTooLong _ => 's'

/-- A problem is told apart by the first letter of its message. -/
theorem message_head? (p : LoweringProblem) : p.message.toList.head? = some (initial p) := by
  cases p with
  | breakOutsideLoop | continueOutsideLoop => rfl
  | duplicatedLabel function name => exact head?_append (head?_append (head?_append rfl))
  | undefinedLabel name => exact head?_append rfl
  | nonConstantInitializer name | initializerTooLong bytes => exact head?_append (head?_append rfl)

/-- No other problem reads like an undefined label. -/
theorem not_isUndefinedLabel {p : LoweringProblem} (h : ∀ name, p ≠ .undefinedLabel name) :
    ¬ Diagnostic.IsUndefinedLabel ⟨.error, p.message, location⟩ := by
  rintro ⟨name, _, heq⟩
  have hmessage : p.message = (LoweringProblem.undefinedLabel name).message :=
    congrArg Diagnostic.message heq
  -- the first letter tells the wordings apart, whatever names stand in them
  have hinitial : initial p = 'u' := by
    have hhead := message_head? p
    rw [hmessage, message_head?] at hhead
    exact (Option.some.inj hhead).symm
  cases p with
  | undefinedLabel name => exact h name rfl
  | _ => cases hinitial

/-- Problems other than undefined labels may be reported at any time. -/
theorem balanced_report {p : LoweringProblem} (h : ∀ name, p ≠ .undefinedLabel name) :
    Balanced (report location p) := by
  refine ⟨fun s₀ known pending s x s' hs hr => ?_⟩
  obtain ⟨-, rfl⟩ := Prod.mk.inj (Except.ok.inj hr)
  obtain ⟨found, hfound, hquiet⟩ := hs.quiet
  refine { hs with quiet := ⟨found ++ [⟨.error, p.message, location⟩], ?_, fun d hd => ?_⟩ }
  · simp [Diagnostics.error, Diagnostics.report, hfound]
  · rcases List.mem_append.1 hd with hd | hd
    · exact hquiet d hd
    · rw [List.mem_singleton.1 hd]
      exact not_isUndefinedLabel h

instance {bytes : Nat} : Balanced (report location (.initializerTooLong bytes)) :=
  balanced_report nofun

instance {name : String} : Balanced (report location (.nonConstantInitializer name)) :=
  balanced_report nofun

instance {function name : String} : Balanced (report location (.duplicatedLabel function name)) :=
  balanced_report nofun

/-! ## Labels that the program names -/

section

variable {name : String} {e : NamedLabel}

/-- The state with an entry for one more name. -/
def addName (s : LowerState) (e : NamedLabel) : LowerState :=
  { s with named := s.named ++ [e] }

/-- A name that was met before has its entry, and a new name gets one. -/
theorem labelNamed_eq_ok (h : labelNamed name location s = .ok (e, s')) :
    (e ∈ s.named ∧ e.name = name ∧ s' = s) ∨
    (name ∉ s.named.map (·.name) ∧ e = ⟨name, ⟨s.labels.next⟩, false, location⟩ ∧
      s' = addName s.takeLabel e) := by
  replace h := get_bind_eq_ok h
  cases hfind : s.named.find? (·.name = name) with
  | some entry =>
    simp only [hfind] at h
    obtain ⟨rfl, rfl⟩ := Prod.mk.inj (Except.ok.inj h)
    have hname := List.find?_some hfind
    exact .inl ⟨List.mem_of_find?_eq_some hfind, by simpa using hname, rfl⟩
  | none =>
    simp only [hfind] at h
    obtain ⟨rfl, rfl⟩ := Prod.mk.inj (Except.ok.inj h)
    refine .inr ⟨fun hmem => ?_, rfl, rfl⟩
    obtain ⟨e, he, rfl⟩ := List.mem_map.1 hmem
    simpa using List.find?_eq_none.1 hfind e he

/-- Names stay distinct if a new one is added. -/
theorem nodup_addName (hn : (s.named.map (·.name)).Nodup) (hnew : e.name ∉ s.named.map (·.name)) :
    ((addName s e).named.map (·.name)).Nodup := by
  rw [addName, List.map_append]
  refine List.nodup_append.2 ⟨hn, by simp, fun a ha b hb => ?_⟩
  have hb : b = e.name := List.mem_singleton.1 hb
  rintro rfl
  exact hnew (hb ▸ ha)

/-- A new name that is jumped to is still to be placed by the program. -/
theorem Paired.jumpToName (hs : Paired s₀ (e.label :: known) (e.label :: pending) s)
    (hnew : e.name ∉ s.named.map (·.name)) (hp : e.isPlaced = false) :
    Paired s₀ known pending ((addName s e).push ⟨.jump e.label, location⟩) := by
  have hl : Handed s₀ s e.label := hs.known _ (by simp)
  have hunplaced : ((addName s e).push ⟨.jump e.label, location⟩).unplaced =
      s.unplaced ++ [e.label] := by
    simp [LowerState.unplaced, unplacedOf, LowerState.push, addName, hp]
  -- the name is used and not placed yet, so its label counts among the open ones
  constructor
  case le => exact hs.le
  case accounted =>
    intro l
    have haccount := hs.accounted l
    have hplaced : (addName s e).function = s.function := rfl
    rw [hunplaced, placedLabels_push, hplaced]
    simp only [List.count_append, List.count_cons, List.count_nil, Ir.Stmt.placed?,
      Option.toList_none] at haccount ⊢
    change _ = if Handed s₀ s l then 1 else 0
    omega
  case known => exact fun l hl => hs.known l (by simp [hl])
  case targets =>
    intro l hl'
    rw [jumpTargets_push] at hl'
    rcases List.mem_append.1 hl' with hl' | hl'
    · exact hs.targets l hl'
    · rw [List.mem_singleton.1 hl']
      exact hl
  case named =>
    intro e' he'
    rcases List.mem_append.1 he' with he' | he'
    · exact hs.named e' he'
    · rw [List.mem_singleton.1 he']
      exact hl
  case names => exact nodup_addName hs.names hnew
  case used =>
    intro l hl'
    rw [jumpTargets_push]
    rw [hunplaced] at hl'
    rcases List.mem_append.1 hl' with hl' | hl'
    · exact List.mem_append_left _ (hs.used l hl')
    · exact List.mem_append_right _ hl'
  case quiet => exact hs.quiet

/-- A jump to a name. -/
theorem leads_goto : Leads s₀ known pending (do
    let entry ← labelNamed name location
    jump location entry.label) fun _ => pending := by
  intro s x s' hs h
  obtain ⟨e, s₁, he, h⟩ := bind_eq_ok_iff.1 h
  obtain ⟨-, rfl⟩ := Prod.mk.inj (Except.ok.inj h)
  rcases labelNamed_eq_ok he with ⟨hmem, -, rfl⟩ | ⟨hnew, rfl, rfl⟩
  · have hjump : Paired s₀ known
        ([] ++ ((⟨.jump e.label, location⟩ : Ir.Stmt).placed?.toList ++ pending)) s₁ := hs
    refine hjump.push fun l hl => ?_
    rw [List.mem_singleton.1 hl]
    exact hs.named e hmem
  · exact hs.takeLabel.jumpToName hnew rfl

/-- What is noted when a name is placed. -/
def placedEntry (name : String) (location : Option Location) (e : NamedLabel) : NamedLabel :=
  if e.name = name then { e with isPlaced := true, location } else e

theorem map_placedEntry {entries : List NamedLabel} (h : name ∉ entries.map (·.name)) :
    entries.map (placedEntry name location) = entries := by
  conv_rhs => rw [← List.map_id entries]
  refine List.map_congr_left fun e he => ?_
  rw [placedEntry, if_neg fun hname => h (List.mem_map.2 ⟨e, he, hname⟩), id]

theorem placedEntry_name : (placedEntry name location e).name = e.name := by
  rw [placedEntry]
  split <;> rfl

theorem placedEntry_label : (placedEntry name location e).label = e.label := by
  rw [placedEntry]
  split <;> rfl

/-- The entry that is marked was the only one of its name. -/
theorem unplaced_perm {entries : List NamedLabel} (hn : (entries.map (·.name)).Nodup)
    (he : e ∈ entries) (hp : e.isPlaced = false) :
    (unplacedOf entries).Perm
      (e.label :: unplacedOf (entries.map (placedEntry e.name location))) := by
  induction entries with
  | nil => cases he
  | cons x xs ih =>
    rw [List.map_cons, List.nodup_cons] at hn
    rcases List.mem_cons.1 he with rfl | he
    · -- no entry further on has the name, so that the rest is left as it is
      rw [List.map_cons, map_placedEntry hn.1]
      simp [unplacedOf, placedEntry, hp]
    · have hne : x.name ≠ e.name := fun h => hn.1 (h ▸ List.mem_map.2 ⟨e, he, rfl⟩)
      have hx : placedEntry e.name location x = x := by rw [placedEntry, if_neg hne]
      have hrest := ih hn.2 he
      rw [List.map_cons, hx]
      cases hxp : x.isPlaced with
      | true => simpa [unplacedOf, hxp] using hrest
      | false =>
        simp only [unplacedOf, List.filter_cons, hxp] at hrest ⊢
        exact (hrest.cons _).trans (.swap ..)

/-- The state after a name was placed. -/
def markName (s : LowerState) (name : String) (location : Option Location) : LowerState :=
  { s with named := s.named.map (placedEntry name location) }

/-- A name that the program places was still to be placed, and is now to be placed by the
lowering. -/
theorem Paired.markName (hs : Paired s₀ known pending s) (he : e ∈ s.named)
    (hp : e.isPlaced = false) :
    Paired s₀ known (e.label :: pending) (markName s e.name location) := by
  have hperm : s.unplaced.Perm (e.label :: (Lower.markName s e.name location).unplaced) :=
    unplaced_perm hs.names he hp
  -- the label moves from the names that are not placed to the labels that are to be placed
  constructor
  case le => exact hs.le
  case accounted =>
    intro l
    have haccount := hs.accounted l
    have hcount := hperm.count_eq l
    change (s.function.placedLabels ++ _ ++ _).count l = if Handed s₀ s l then 1 else 0
    simp only [List.count_append, List.count_cons] at haccount hcount ⊢
    omega
  case known => exact hs.known
  case targets => exact hs.targets
  case named =>
    intro e' he'
    obtain ⟨x, hx, rfl⟩ := List.mem_map.1 he'
    rw [placedEntry_label]
    exact hs.named x hx
  case names =>
    have hnames : (Lower.markName s e.name location).named.map (·.name) = s.named.map (·.name) := by
      rw [Lower.markName, List.map_map]
      exact List.map_congr_left fun x _ => placedEntry_name
    rw [hnames]
    exact hs.names
  case used =>
    intro l hl
    exact hs.used l (hperm.mem_iff.2 (List.mem_cons_of_mem _ hl))
  case quiet => exact hs.quiet

/-- A name that has been added last is marked there. -/
theorem markName_addName (hnew : e.name ∉ s.named.map (·.name)) :
    markName (addName s e) e.name location =
      addName s { e with isPlaced := true, location } := by
  have hmap : s.named.map (placedEntry e.name location) = s.named := map_placedEntry hnew
  rw [markName, addName, List.map_append, hmap]
  simp [placedEntry, addName]

/-- A name that is placed when it is first met. -/
theorem Paired.addPlaced (hs : Paired s₀ (e.label :: known) pending s)
    (hnew : e.name ∉ s.named.map (·.name)) (hp : e.isPlaced = true) :
    Paired s₀ known pending (addName s e) := by
  have hunplaced : (addName s e).unplaced = s.unplaced := by
    simp [LowerState.unplaced, unplacedOf, addName, hp]
  constructor
  case le => exact hs.le
  case accounted =>
    intro l
    rw [hunplaced]
    exact hs.accounted l
  case known => exact fun l hl => hs.known l (by simp [hl])
  case targets => exact hs.targets
  case named =>
    intro e' he'
    rcases List.mem_append.1 he' with he' | he'
    · exact hs.named e' he'
    · rw [List.mem_singleton.1 he']
      exact hs.known _ (by simp)
  case names => exact nodup_addName hs.names hnew
  case used => exact hunplaced ▸ hs.used
  case quiet => exact hs.quiet

/-- The label for a name that is placed is to be placed: that of the name, or another one if the
name is placed already. -/
theorem leads_placeNamed :
    Leads s₀ known pending (placeNamed name location) fun l => l :: pending := by
  intro s x s' hs h
  obtain ⟨e, s₁, he, hrest⟩ := bind_eq_ok_iff.1 h
  -- the name was used before, or it is new
  rcases labelNamed_eq_ok he with ⟨hmem, rfl, rfl⟩ | ⟨hnew, rfl, rfl⟩
  · split at hrest
    · -- the name is placed already: a label of its own is taken instead
      have hagain : Leads s₀ known pending (do
          report location (.duplicatedLabel (← functionName) e.name)
          newLabel) fun l => l :: pending := .keep fun _ => .keep fun _ => .take
      exact hagain hs hrest
    -- it has a label, which is placed now
    · next hp =>
      obtain ⟨u, s₂, hmark, hrest⟩ := bind_eq_ok_iff.1 hrest
      obtain ⟨-, rfl⟩ := Prod.mk.inj (Except.ok.inj hmark)
      obtain ⟨rfl, rfl⟩ := Prod.mk.inj (Except.ok.inj hrest)
      exact hs.markName hmem (by simpa using hp)
  -- it is added and placed at once
  · obtain ⟨u, s₂, hmark, hrest⟩ := bind_eq_ok_iff.1 hrest
    obtain ⟨-, rfl⟩ := Prod.mk.inj (Except.ok.inj hmark)
    obtain ⟨rfl, rfl⟩ := Prod.mk.inj (Except.ok.inj hrest)
    let e : NamedLabel := ⟨name, ⟨s.labels.next⟩, false, location⟩
    have hmarked : Paired s₀ known (e.label :: pending)
        (markName (addName s.takeLabel e) e.name location) := by
      rw [markName_addName hnew]
      exact hs.takeLabel.addPlaced hnew rfl
    exact hmarked

end

end Lower

/-! ## Exits -/

/-- The labels to which a statement may jump out. -/
def Exits.labels (exits : Exits) : List Ir.Label :=
  exits.breakTo.toList ++ exits.continueTo.toList

namespace Lower

variable {s₀ s s' : LowerState} {known pending : List Ir.Label} {location : Option Location}
  {exits : Exits}

/-! ## Initializers -/

section

variable {type : TypeId} {address : Ir.Expr} {init : Source.Expr} {id : EntityId}


instance {length : Nat} : Balanced (storeInitialChars location type address init length) := by
  unfold storeInitialChars
  infer_instance

instance : Balanced (storeInitial location type address init) := by
  unfold storeInitial
  dsimp only
  split <;> infer_instance

instance : Balanced (enterVariable id) := by
  unfold enterVariable
  refine .bind_of inferInstance fun e => ?_
  split
  · infer_instance
  · split <;> infer_instance

end

/-! ## Switches -/

section

variable {value : Ir.Expr}

instance {value : Source.Expr} : Balanced (switchValue location value) := by
  unfold switchValue
  refine .bind_of inferInstance fun _ => .bind_of inferInstance fun v => ?_
  split <;> infer_instance

/-- A case may jump to any label that is known or is still to be placed. -/
theorem leads_testCase {target : Ir.Label} (caseValue : Source.Expr)
    (h : target ∈ known ∨ target ∈ pending) :
    Leads s₀ known pending (testCase location value target caseValue) fun _ => pending := by
  refine .keep fun _ => .newLabel fun next => .keep fun _ => .keep fun _ => ?_
  have htarget : target ∈ next :: known ∨ target ∈ next :: pending :=
    h.imp (List.mem_cons_of_mem _) (List.mem_cons_of_mem _)
  exact .bind (.branch htarget (by simp)) fun _ => .place []

/-- So may each value of a switch. -/
theorem leads_testValues {target : Ir.Label} (values : List Source.Expr)
    (h : target ∈ known ∨ target ∈ pending) :
    Leads s₀ known pending (values.forM (testCase location value target)) fun _ => pending := by
  induction values with
  | nil => exact .pure ()
  | cons v vs ih => exact .bind (leads_testCase v h) fun _ => ih

/-- The labels of the cases are to be placed. -/
theorem leads_testCases (cases : List Source.Case) :
    Leads s₀ known pending (testCases location value cases) fun ls => ls ++ pending := by
  induction cases generalizing known pending with
  | nil => exact .ret rfl
  | cons c cs ih =>
    rw [testCases]
    refine .newLabel fun l => .bind (leads_testValues c.values (by simp)) fun _ => ?_
    -- the label of the case waits in front of those of the cases that follow
    refine .bind (ih.perm fun ls => List.perm_middle) fun ls => ?_
    exact .ret rfl

/-- The default case has one of the labels, or the switch is left. -/
theorem defaultTarget_mem (cases : List Source.Case) (labels : List Ir.Label)
    (fallback : Ir.Label) : defaultTarget cases labels fallback ∈ fallback :: labels := by
  rw [defaultTarget]
  cases h : (cases.zip labels).reverse.find? (·.1.isDefault) with
  | none => simp
  | some found =>
    have hmem := List.mem_reverse.1 (List.mem_of_find?_eq_some h)
    exact List.mem_cons_of_mem _ (List.of_mem_zip hmem).2

end

/-! ## Statements -/

/-- A computation keeps the account, and may jump to the exits. -/
def BalancedWithin (exits : Exits) (m : Lower Unit) : Prop :=
  ∀ s₀ known pending, exits.labels ⊆ known → Leads s₀ known pending m fun _ => pending

theorem Balanced.within {m : Lower Unit} [hm : Balanced m] : BalancedWithin exits m :=
  fun s₀ known pending _ => hm.leads s₀ known pending

/-- A jump goes to a label of one of the statements around it. -/
theorem balancedWithin_jumpOut {target : Option Ir.Label} {problem : LoweringProblem}
    (ht : ∀ l ∈ target, l ∈ exits.labels) (hp : ∀ name, problem ≠ .undefinedLabel name) :
    BalancedWithin exits (jumpOut location target problem) := by
  intro s₀ known pending hexits
  cases target with
  | none => exact (balanced_report hp).leads s₀ known pending
  | some l => exact .jump (.inl (hexits (ht l rfl)))

open Source (Block Stmt Case lowerStmts lowerCases)

mutual

/-- Blocks place the labels that they take. -/
theorem balancedWithin_block (exits : Exits) (b : Block) :
    BalancedWithin exits (b.lower exits) := by
  cases b with
  | mk vars stmts =>
    intro s₀ known pending hexits
    rw [Block.lower]
    exact .keep fun _ => balancedWithin_stmts exits stmts s₀ known pending hexits

/-- A statement places all labels that it makes, and jumps to those and its exits only. -/
theorem balancedWithin_stmt (exits : Exits) (st : Stmt) :
    BalancedWithin exits (st.lower exits) := by
  cases st with
  | expr here e =>
    rw [Stmt.lower]
    exact Balanced.within
  | block here body =>
    rw [Stmt.lower]
    exact balancedWithin_block exits body
  | ifThen here test yes =>
    intro s₀ known pending hexits
    have hyes := balancedWithin_stmt exits yes
    rw [Stmt.lower]
    refine .newLabel fun y => .newLabel fun fin => .keep fun _ => ?_
    refine .bind (.branch (by simp) (by simp)) fun _ => .bind (.place [fin]) fun _ => ?_
    refine .bind (hyes s₀ _ _ ?_) fun _ => .place []
    exact fun l hl => by simp [hexits hl]
  | ifElse here test yes no =>
    intro s₀ known pending hexits
    have hyes := balancedWithin_stmt exits yes
    have hno := balancedWithin_stmt exits no
    rw [Stmt.lower]
    refine .newLabel fun y => .newLabel fun fin => .keep fun _ => .newLabel fun n => ?_
    have hexits : exits.labels ⊆ n :: fin :: y :: known := fun l hl => by simp [hexits hl]
    refine .bind (.branch (by simp) (by simp)) fun _ => .bind (.place [n, fin]) fun _ => ?_
    refine .bind (hyes s₀ _ _ hexits) fun _ => .bind (.jump (by simp)) fun _ => ?_
    refine .bind (.place []) fun _ => .bind (hno s₀ _ _ hexits) fun _ => .place []
  | whileLoop here test body =>
    intro s₀ known pending hexits
    rw [Stmt.lower]
    refine .newLabel fun start => .newLabel fun inner => .newLabel fun fin => ?_
    have hbody := balancedWithin_stmt ⟨some fin, some start⟩ body
    refine .bind (.place [fin, inner]) fun _ => .keep fun _ => ?_
    refine .bind (.branch (by simp) (by simp)) fun _ => .bind (.place [fin]) fun _ => ?_
    refine .bind (hbody s₀ _ _ (by simp [Exits.labels])) fun _ => ?_
    exact .bind (.jump (by simp)) fun _ => .place []
  | doLoop here body test =>
    intro s₀ known pending hexits
    rw [Stmt.lower]
    refine .newLabel fun start => .newLabel fun again => .newLabel fun fin => ?_
    -- to continue is to test again, which stands behind the body
    have hbody := balancedWithin_stmt ⟨some fin, some again⟩ body
    refine .bind (.place [fin, again]) fun _ => ?_
    refine .bind (hbody s₀ _ _ (by simp [Exits.labels])) fun _ => ?_
    refine .bind (.place [fin]) fun _ => .keep fun _ => ?_
    exact .bind (.branch (by simp) (by simp)) fun _ => .place []
  | forLoop here init test step body =>
    intro s₀ known pending hexits
    rw [Stmt.lower]
    refine .newLabel fun start => .newLabel fun inner => .newLabel fun next => ?_
    refine .newLabel fun fin => .keep fun _ => .bind (.place [fin, next, inner]) fun _ => ?_
    have hbody := balancedWithin_stmt ⟨some fin, some next⟩ body
    have htest : Leads s₀ (fin :: next :: inner :: start :: known) (fin :: next :: inner :: pending)
        (test.forM fun test => do branch here (← test.lowerValue) inner fin)
        fun _ => fin :: next :: inner :: pending := by
      cases test with
      | none => exact .pure ()
      | some test => exact .keep fun _ => .branch (by simp) (by simp)
    refine .bind htest fun _ => .bind (.place [fin, next]) fun _ => ?_
    refine .bind (hbody s₀ _ _ (by simp [Exits.labels])) fun _ => ?_
    refine .bind (.place [fin]) fun _ => .keep fun _ => ?_
    exact .bind (.jump (by simp)) fun _ => .place []
  | switch here value cases =>
    intro s₀ known pending hexits
    rw [Stmt.lower]
    refine .keep fun value => .newLabel fun fin => ?_
    -- every case has a label, so that no label is left over when the bodies are lowered
    refine .bind_of (leads_testCases cases) (fun _ _ _ h => length_testCases h) fun ls hls => ?_
    have hcases := leads_cases { exits with breakTo := some fin } cases ls hls s₀ (fin :: known)
      (fin :: pending)
    refine .bind (.jump ?_) fun _ => .bind (hcases fun l hl => ?_) fun _ => .place []
    · rcases List.mem_cons.1 (defaultTarget_mem cases ls fin) with h | h
      · simp [h]
      · simp [h]
    · rcases List.mem_append.1 hl with hl | hl
      · rw [List.mem_singleton.1 hl]
        exact List.mem_cons_self
      · exact List.mem_cons_of_mem _ (hexits (List.mem_append_right _ hl))
  | breakOut here =>
    rw [Stmt.lower]
    exact balancedWithin_jumpOut (fun l hl => List.mem_append_left _ (by simpa using hl)) nofun
  | continueOn here =>
    rw [Stmt.lower]
    exact balancedWithin_jumpOut (fun l hl => List.mem_append_right _ (by simpa using hl)) nofun
  | goto here target =>
    rw [Stmt.lower]
    exact fun s₀ known pending _ => leads_goto
  | label here name body =>
    intro s₀ known pending hexits
    have hbody := balancedWithin_stmt exits body
    rw [Stmt.lower]
    refine .bind leads_placeNamed fun l => .bind (.place []) fun _ => ?_
    exact hbody s₀ known pending hexits
  | ret here value =>
    cases value with
    | none =>
      rw [Stmt.lower]
      exact Balanced.within
    | some e =>
      rw [Stmt.lower]
      exact Balanced.within

/-- So does a list of statements. -/
theorem balancedWithin_stmts (exits : Exits) (ss : List Stmt) :
    BalancedWithin exits (lowerStmts exits ss) := by
  cases ss with
  | nil =>
    rw [lowerStmts]
    exact Balanced.within
  | cons st ss =>
    intro s₀ known pending hexits
    rw [lowerStmts]
    refine .bind (balancedWithin_stmt exits st s₀ known pending hexits) fun _ => ?_
    exact balancedWithin_stmts exits ss s₀ known pending hexits

/-- The labels of the cases are made before and placed by them. -/
theorem leads_cases (exits : Exits) (cs : List Case) (ls : List Ir.Label)
    (hlength : ls.length = cs.length) (s₀ : LowerState) (known pending : List Ir.Label)
    (hexits : exits.labels ⊆ known) :
    Leads s₀ known (ls ++ pending) (lowerCases exits cs ls) fun _ => pending := by
  cases cs with
  | nil =>
    obtain rfl := List.eq_nil_of_length_eq_zero hlength
    rw [lowerCases]
    · exact Leads.pure ()
    · exact nofun
  | cons c cs =>
    cases c with
    | mk values body =>
      obtain ⟨l, ls, rfl⟩ := List.exists_cons_of_length_eq_add_one hlength
      rw [lowerCases]
      refine .bind (.place []) fun _ => ?_
      refine .bind (balancedWithin_block exits body s₀ known _ hexits) fun _ => ?_
      exact leads_cases exits cs ls (by simpa using hlength) s₀ known pending hexits

end

end Lower

end Backend386
