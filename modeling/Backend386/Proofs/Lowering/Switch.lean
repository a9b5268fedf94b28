import Backend386.Proofs.Lowering.Stmt

/-!
# Lowering of a switch

A switch becomes a chain of comparisons, one for each value, that jump to the bodies of the arms,
which follow in their order. The value that is compared stays in one variable throughout.

* `Lower.Carries` — the value of a switch is at hand;
* `Lower.makes_switchValue`, `Lower.makes_testCases` — the value and the comparisons;
* `Lower.LowersArms` — the code of the arms;
* `Lower.lowers_switch` — the switch as a whole.
-/

namespace Backend386.Lower

open Source (Context Store Outcome Execution Typed Case)
open Source.Execution
open Source.Store (Agree)
open Source.Context (type?_eq_some_iff)

variable {Γ : Context} {exits : Exits} {s : LowerState} {here : Option Location} {type : IntType}
  {x : Ir.Value} {v : Ir.Expr}

/-! ## The value -/

/-- Stores agree, and the value of a switch is at hand. -/
def Carries (n : Nat) (v : Ir.Expr) (x : Ir.Value) (σ τ : Store) : Prop :=
  Agree n σ τ ∧ v.value? σ = some x

/-- Some code, which ends in a state, leaves the value of a switch in an expression. -/
structure Delivered (Γ : Context) (type : IntType) (value : Source.Expr) (v : Ir.Expr)
    (s : LowerState) (code : List Ir.Stmt) : Prop where
  width : v.width = type.width
  entities : ∀ u ∈ v.entities, u.index < s.entities.size
  runs : ∀ {body post σ τ}, body = s.function.body.toList ++ post → Agree Γ.entities.size σ τ →
    value.eval Γ τ = none ∧ Ir.Fails body (code ++ post, σ) ∨
      ∃ x τ' σ', value.eval Γ τ = some (x, τ') ∧
        Ir.Runs body (code ++ post, σ) (post, σ') ∧ Carries Γ.entities.size v x σ' τ'

section

variable {value : Source.Expr} {mentions writes : List EntityId} {s' : LowerState}
  {code : List Ir.Stmt} {r : Ir.Expr}

/-- What is left of the value always has one, so that it need not be kept. -/
theorem Implements.delivered
    (h : Implements Γ mentions writes type (value.eval Γ) s s' code (some r))
    (hr : ∀ σ, r.value? σ ≠ none) : Delivered Γ type value r s' code := by
  refine ⟨h.width r rfl, fun u hu => (h.entities r rfl u hu).1, fun hbody hτ => ?_⟩
  rcases (h.delivers hbody hτ).used fun σ' hnone => (hr σ' hnone).elim with
    hf | ⟨x, τ', σ', hout, hrun, -, hτ', hx⟩
  · exact .inl hf
  · exact .inr ⟨x, τ', σ', hout, hrun, hτ', hx⟩

/-- What is left of the value is kept in a temporary. -/
theorem Implements.delivered_temporary {tmp : EntityId} {ptr : Width} {s'' : LowerState}
    (h : Implements Γ mentions writes type (value.eval Γ) s s' code (some r))
    (htmp : Γ.entities.size ≤ tmp.index ∧ tmp.index < s''.entities.size)
    (hbody : s''.function.body.toList =
      s'.function.body.toList ++ [⟨.assign (.addr ptr tmp) r, here⟩]) :
    Delivered Γ type value (.var r.width tmp) s''
      (code ++ [⟨.assign (.addr ptr tmp) r, here⟩]) := by
  refine ⟨h.width r rfl, ?_, fun {body post σ τ} hbody' hτ => ?_⟩
  · intro u hu
    obtain rfl := List.mem_singleton.1 hu
    exact htmp.2
  · have hmid : body = s'.function.body.toList ++ ⟨.assign (.addr ptr tmp) r, here⟩ :: post := by
      rw [hbody', hbody, List.append_assoc]
      rfl
    rw [List.append_assoc]
    rcases (h.delivers hmid hτ).used fun σ' hr => Ir.fails_assign hr with
      hf | ⟨x, τ', σ', hout, hrun, -, hτ', hx⟩
    · exact .inl hf
    · refine .inr ⟨x, τ', σ'.write tmp x, hout, hrun.trans (Ir.runs_assign hx), ?_, ?_⟩
      · exact hτ'.write_beyond htmp.1 x
      · exact value?_var_write (Ir.Expr.width_of_value? hx)

end

/-- The value of a switch is computed once, to a literal or a variable. -/
theorem makes_switchValue {value : Source.Expr} (here : Option Location)
    (h : Typed Γ Γ.entities.size value type) (hs : Ready Γ s) :
    ∃ v s' code, Makes s.labels.next (switchValue here value) s v s' code ∧
      Delivered Γ type value v s' code := by
  obtain ⟨id, hid, hint⟩ := type?_eq_some_iff.1 h.note
  obtain ⟨r, s₁, code, hm, hi⟩ := value_of_typed h hs
  have hs₁ := hs.emits hm.toEmits
  obtain ⟨ptr, hptr⟩ := hs₁.pointer
  obtain ⟨ref, href⟩ := TypeTable.refOf_of_int (hs₁.int hint)
  let tmp : EntityId := ⟨s₁.entities.size⟩
  -- unless the value is a literal or a variable, it is kept in a temporary
  have hkept : Delivered Γ type value (.var r.width tmp)
      ((s₁.takeTemporary id ref).push ⟨.assign (.addr ptr tmp) r, here⟩)
      (code ++ [⟨.assign (.addr ptr tmp) r, here⟩]) :=
    hi.delivered_temporary ⟨hs₁.size_le, by simp [tmp]⟩ (by simp)
  have htemporary : Makes s.labels.next (do
      let tmp ← storeTemporary here id r
      return Ir.Expr.var r.width tmp) s₁ _ _ _ :=
    .followed (makes_storeTemporary href (hptr (hs₁.takeTemporary href))) (.pure ..)
  rw [switchValue]
  cases r with
  | int =>
    exact ⟨_, _, _, .ask (hs.typeId_ok hid) (.followed hm (.pure ..)), hi.delivered (by simp)⟩
  | var =>
    exact ⟨_, _, _, .ask (hs.typeId_ok hid) (.followed hm (.pure ..)), hi.delivered (by simp)⟩
  | _ => exact ⟨_, _, _, .ask (hs.typeId_ok hid) (.bind hm htemporary), hkept⟩

/-! ## The comparisons -/

/-- The comparison of two values of one width. -/
theorem value?_eq {σ : Store} {w : Width} {a b : Ir.Expr} {x y : Ir.Value}
    (ha : a.value? σ = some x) (hb : b.value? σ = some y) (hw : x.1 = y.1) :
    (Ir.Expr.bin w .eq a b).value? σ = some (.ofBool w (decide (x = y))) := by
  obtain ⟨w₁, x⟩ := x
  obtain ⟨w₂, y⟩ := y
  dsimp only at hw
  subst hw
  have heq : ((⟨w₁, x⟩ : Ir.Value) = ⟨w₁, y⟩) = (x = y) := by simp
  rw [Ir.Expr.value?_bin, ha, hb]
  simp [Ir.Op.binary?, Ir.Op.isCompare, Ir.Op.compare?, Ir.Value.ofBool, heq, beq_eq_decide]

/-- The comparison with one value jumps to the arm, or goes on. -/
theorem makes_testCase {e : Source.Expr} (here : Option Location) (target : Ir.Label)
    (hs : Ready Γ s)
    (hint : (Γ.type? (.integer .int true)).isSome) (h : Γ.Comparable type e)
    (hw : v.width = type.width) (hv : ∀ u ∈ v.entities, u.index < s.entities.size) :
    ∃ s' code, Makes s.labels.next (testCase here v target e) s () s' code ∧
      ∀ {body post start}, body = s'.function.body.toList ++ post →
        Ir.after? target body = some start → ∀ x,
          Selects (Carries Γ.entities.size v x) body (code ++ post)
            (fun b => if b then start else post) (Source.Expr.isValue Γ x e) := by
  obtain ⟨type', h, hwidth, hwrites⟩ := h
  obtain ⟨itype, hitype⟩ := Option.isSome_iff_exists.1 hint
  obtain ⟨id, hid, hint⟩ := type?_eq_some_iff.1 hitype
  obtain ⟨r, s₁, code, hm, hi⟩ := value_of_typed h hs
  have hs₁ := hs.emits hm.toEmits
  let next : Ir.Label := ⟨s₁.labels.next⟩
  let branch : Ir.Stmt :=
    ⟨.branch (.bin itype.width .eq v r) target next, e.location.or here⟩
  have hintId : s₁.takeLabel.types.int = .ok id := by
    rw [LowerState.takeLabel_types, hs₁.types, TypeTable.int, TypeTable.integer, hid]
  refine ⟨(s₁.takeLabel.push branch).push ⟨.label next, none⟩,
    code ++ [branch, ⟨.label next, none⟩], ?_, ?_⟩
  · rw [testCase]
    refine .bind hm (.take makes_newLabel (.ask (ask_ok hintId) (.ask
      (width_ok (hs₁.takeLabel.int hint)) (.bind (a := [branch]) makes_branch (makes_place ?_)))))
    exact ⟨hm.labels, by simp⟩
  rintro body post start hbody htarget x σ τ ⟨hτ, hx⟩
  have hmid : body = s₁.function.body.toList ++ branch :: ⟨.label next, none⟩ :: post := by
    simp [hbody]
  -- a value that is not equal goes on behind the branch
  have hnext : Ir.after? next body = some post := by
    rw [hmid, Ir.after?_append_of_lacks (hs₁.lacks le_rfl)]
    simp [Ir.after?, Ir.Stmt.placed?, branch]
  rw [Source.Expr.isValue, List.append_assoc]
  rcases (hi.delivers hmid hτ).used fun σ' hr => Ir.fails_branch (by simp [hr]) with
    ⟨hout, hf⟩ | ⟨y, τ', σ', hout, hrun, hkeeps, hτ', hy⟩
  · rw [hout]
    exact .fails hf
  · -- the value writes nothing, so the one that it is compared with is still there
    rw [hwrites] at hkeeps
    have hx' : v.value? σ' = some x := by rw [hkeeps.value? hv (by simp), hx]
    have hwidths : x.1 = y.1 := by
      rw [Ir.Expr.width_of_value? hx, Ir.Expr.width_of_value? hy, hw, ← hwidth, hi.width r rfl]
    rw [hout]
    refine .reaches (hrun.tail (Ir.step_branch (value?_eq hx' hy hwidths) ?_)) ⟨hτ', hx'⟩
    rw [Ir.Value.holds_ofBool]
    by_cases hxy : x = y
    · simp [hxy, htarget]
    · simp [hxy, hnext]

/-- The comparisons with all values of an arm. -/
theorem makes_testValues {es : List Source.Expr} (here : Option Location) (target : Ir.Label)
    (hs : Ready Γ s)
    (hint : (Γ.type? (.integer .int true)).isSome) (h : ∀ e ∈ es, Γ.Comparable type e)
    (hw : v.width = type.width) (hv : ∀ u ∈ v.entities, u.index < s.entities.size) :
    ∃ s' code, Makes s.labels.next (es.forM (testCase here v target)) s () s' code ∧
      ∀ {body post start}, body = s'.function.body.toList ++ post →
        Ir.after? target body = some start → ∀ x,
          Selects (Carries Γ.entities.size v x) body (code ++ post)
            (fun b => if b then start else post) (Source.Expr.isAny Γ x es) := by
  -- by induction on the values: the first one that is equal jumps, any other one goes on with the
  -- rest
  induction es generalizing s with
  | nil => exact ⟨s, [], .pure .., fun _ _ x => .pure false rfl⟩
  | cons e es ih =>
    obtain ⟨he, hes⟩ := List.forall_mem_cons.1 h
    obtain ⟨s₁, code₁, hm₁, hi₁⟩ := makes_testCase here target hs hint he hw hv
    obtain ⟨s₂, code₂, hm₂, hi₂⟩ := ih (hs.emits hm₁.toEmits) hes fun u hu =>
      (hv u hu).trans_le hm₁.size_le
    refine ⟨s₂, code₁ ++ code₂, hm₁.bind (hm₂.mono hm₁.labels), ?_⟩
    intro body post start hbody htarget x
    have hmid : body = s₁.function.body.toList ++ (code₂ ++ post) := by
      rw [hbody, hm₂.body, List.append_assoc]
    rw [List.append_assoc]
    refine (hi₁ hmid htarget x).bind
      (g := fun b τ => if b then some (true, τ) else Source.Expr.isAny Γ x es τ) fun b => ?_
    cases b with
    | false => exact hi₂ hbody htarget x
    | true => exact .pure true rfl

/-- The comparisons for all arms. The labels of the arms are new, and not placed yet. -/
theorem makes_testCases {cases : List Case} (here : Option Location) (hs : Ready Γ s)
    (hint : (Γ.type? (.integer .int true)).isSome)
    (h : ∀ c ∈ cases, ∀ e ∈ c.values, Γ.Comparable type e)
    (hw : v.width = type.width) (hv : ∀ u ∈ v.entities, u.index < s.entities.size) :
    ∃ labels s' code, Makes s.labels.next (testCases here v cases) s labels s' code ∧
      labels.length = cases.length ∧ labels.Nodup ∧
      (∀ l ∈ labels, s.labels.next ≤ l.index ∧ l.index < s'.labels.next ∧ Ir.Lacks l code) ∧
      ∀ {body post starts}, body = s'.function.body.toList ++ post →
        (∀ i l, labels[i]? = some l → Ir.after? l body = some (starts i)) → ∀ x,
          Selects (Carries Γ.entities.size v x) body (code ++ post)
            (fun arm => arm.elim post starts) (Source.Expr.firstArm Γ x cases) := by
  -- by induction on the cases: each takes a label and tests its values
  induction cases generalizing s with
  | nil => exact ⟨[], s, [], .pure .., rfl, .nil, by simp, fun _ _ x => .pure none rfl⟩
  | cons c cs ih =>
    obtain ⟨hc, hcs⟩ := List.forall_mem_cons.1 h
    let l : Ir.Label := ⟨s.labels.next⟩
    obtain ⟨s₁, code₁, hm₁, hi₁⟩ := makes_testValues here l hs.takeLabel hint hc hw hv
    have hlabels₁ : s.labels.next + 1 ≤ s₁.labels.next := hm₁.labels
    obtain ⟨ls, s₂, code₂, hm₂, hlength, hnodup, hls, hi₂⟩ :=
      ih (hs.takeLabel.emits hm₁.toEmits) hcs fun u hu => (hv u hu).trans_le hm₁.size_le
    have hlabels₂ : s₁.labels.next ≤ s₂.labels.next := hm₂.labels
    refine ⟨l :: ls, s₂, code₁ ++ code₂, ?_, by simp [hlength], ?_, ?_, ?_⟩
    · rw [testCases]
      refine .take makes_newLabel (.bind (hm₁.mono (Nat.le_succ _)) ?_)
      exact .followed (hm₂.mono ((Nat.le_succ _).trans hlabels₁)) (.pure ..)
    -- the labels are taken one after another, so none is taken twice
    · refine List.nodup_cons.2 ⟨fun hl => ?_, hnodup⟩
      exact Nat.not_succ_le_self _ (hlabels₁.trans (hls l hl).1)
    · intro l' hl'
      rcases List.mem_cons.1 hl' with rfl | hl'
      · refine ⟨le_rfl, hlabels₁.trans hlabels₂, Ir.lacks_append.2 ⟨?_, ?_⟩⟩
        · exact hm₁.placed.lacks (.inl (Nat.lt_succ_self _))
        · exact hm₂.placed.lacks (.inl hlabels₁)
      · obtain ⟨hge, hlt, hlacks⟩ := hls l' hl'
        exact ⟨by omega, hlt, Ir.lacks_append.2 ⟨hm₁.placed.lacks (.inr hge), hlacks⟩⟩
    · intro body post starts hbody hstarts x
      have hmid : body = s₁.function.body.toList ++ (code₂ ++ post) := by
        rw [hbody, hm₂.body, List.append_assoc]
      have hrest := hi₂ hbody (fun i => hstarts (i + 1)) x
      -- the first arm is chosen by its own values, the others by the tests behind them
      rw [List.append_assoc]
      refine (hi₁ hmid (hstarts 0 l rfl) x).bind (g := fun b τ => if b then some (some 0, τ)
        else (Source.Expr.firstArm Γ x cs τ).bind fun q => some (q.1.map (· + 1), q.2)) fun b => ?_
      cases b with
      | true => exact .pure (some 0) rfl
      | false =>
        refine hrest.bind (g := fun arm τ => some (arm.map (· + 1), τ)) fun arm => ?_
        exact .pure (arm.map (· + 1)) (by cases arm <;> rfl)

/-- The last default arm has its label. -/
theorem find?_default {cases : List Case} {labels : List Ir.Label}
    (h : labels.length = cases.length) :
    ((cases.zip labels).reverse.find? (·.1.isDefault)).map Prod.snd =
      (Source.Expr.defaultArm cases).map fun i => labels.getD i default := by
  induction cases generalizing labels with
  | nil => simp [Source.Expr.defaultArm]
  | cons c cs ih =>
    obtain ⟨l, ls, rfl⟩ := List.exists_cons_of_length_eq_add_one h
    have ih := ih (Nat.succ.inj h)
    rw [List.zip_cons_cons, List.reverse_cons, List.find?_append, Option.map_or, ih,
      Source.Expr.defaultArm, Option.map_or, Option.map_map]
    congr 1
    by_cases hc : c.isDefault <;> simp [hc]

/-- The default arm is one of the arms. -/
theorem defaultArm_lt {cases : List Case} {i : Nat} (h : Source.Expr.defaultArm cases = some i) :
    i < cases.length := by
  induction cases generalizing i with
  | nil => simp [Source.Expr.defaultArm] at h
  | cons c cs ih =>
    rw [Source.Expr.defaultArm] at h
    cases hd : Source.Expr.defaultArm cs with
    | some j =>
      obtain rfl : j + 1 = i := by simpa [hd] using h
      exact Nat.succ_lt_succ (ih hd)
    | none =>
      obtain ⟨-, rfl⟩ : c.isDefault = true ∧ 0 = i := by simpa [hd] using h
      exact Nat.succ_pos _

/-- Where a switch goes when no value fits. -/
theorem defaultTarget_eq {cases : List Case} {labels : List Ir.Label} {fallback : Ir.Label}
    (h : labels.length = cases.length) :
    defaultTarget cases labels fallback =
      labels.getD ((Source.Expr.defaultArm cases).getD cases.length) fallback := by
  have hfind := find?_default h
  rw [defaultTarget]
  cases hd : Source.Expr.defaultArm cases with
  | none =>
    rw [hd, Option.map_none, Option.map_eq_none_iff] at hfind
    rw [hfind]
    simp [h]
  | some i =>
    obtain ⟨p, hp, hpi⟩ := Option.map_eq_some_iff.1 (hd ▸ hfind)
    have hlt : i < labels.length := h ▸ defaultArm_lt hd
    rw [hp]
    simp [hpi, hlt]

/-! ## The arms -/

/-- A computation of the lowering makes code for the arms of a switch, each behind its label, so
that control falls through from one to the next. -/
def LowersArms (Γ : Context) (exits : Exits) (m : Lower Unit) (labels : List Ir.Label)
    (arms : List Execution) : Prop :=
  ∀ ⦃s lo⦄, Ready Γ s → lo ≤ s.labels.next → labels.Nodup →
    (∀ l ∈ labels, lo ≤ l.index ∧ l.index < s.labels.next ∧
      Ir.Lacks l s.function.body.toList) →
    ∃ s' code, Makes lo m s () s' code ∧
      (s'.diagnostics = s.diagnostics → ∀ {body post breakTo continueTo},
        body = s'.function.body.toList ++ post → exits.Lead body breakTo continueTo →
          Realizes Γ.entities.size body (code ++ post) ⟨post, breakTo, continueTo⟩
            (sequence arms) ∧
          ∀ i l, labels[i]? = some l → ∃ start, Ir.after? l body = some start ∧
            Realizes Γ.entities.size body start ⟨post, breakTo, continueTo⟩
              (sequence (arms.drop i)))

/-- A switch without cases has no arms. -/
theorem lowersArms_nil {labels : List Ir.Label} (hlength : labels.length = 0) :
    LowersArms Γ exits (Source.lowerCases exits [] labels) labels [] := by
  obtain rfl := List.length_eq_zero_iff.1 hlength
  intro s lo hs _ _ _
  refine ⟨s, [], ?_, fun _ body post breakTo continueTo _ _ => ⟨?_, by simp⟩⟩
  · rw [Source.lowerCases]
    · exact .pure ..
    · simp
  · exact .exit fun _ => .normal .refl

/-- An arm goes on with those behind it. -/
theorem lowersArms_cons {values : List Source.Expr} {block : Source.Block} {cs : List Case}
    {l : Ir.Label} {ls : List Ir.Label} {a : Execution} {arms : List Execution}
    (hb : Lowers Γ exits (block.lower exits) a)
    (hcs : LowersArms Γ exits (Source.lowerCases exits cs ls) ls arms) :
    LowersArms Γ exits (Source.lowerCases exits (.mk values block :: cs) (l :: ls)) (l :: ls)
      (a :: arms) := by
  intro s lo hs hlo hnodup hlabels
  obtain ⟨hl, hls⟩ := List.forall_mem_cons.1 hlabels
  obtain ⟨hnew, hnodup⟩ := List.nodup_cons.1 hnodup
  obtain ⟨s₁, code₁, hm₁, hr₁⟩ := hb (hs.pushLabel hl.2.1)
  have hlabels₁ : s.labels.next ≤ s₁.labels.next := hm₁.labels
  -- the labels of the other cases are not placed by this one
  have hls₁ : ∀ l' ∈ ls, lo ≤ l'.index ∧ l'.index < s₁.labels.next ∧
      Ir.Lacks l' s₁.function.body.toList := by
    intro l' hl'
    obtain ⟨hge, hlt, hlacks⟩ := hls l' hl'
    have hne : l ≠ l' := by
      rintro rfl
      exact hnew hl'
    refine ⟨hge, hlt.trans_le hlabels₁, hm₁.lacks ?_ hlt⟩
    simp [hlacks, Ir.Stmt.placed?, hne]
  obtain ⟨s₂, code₂, hm₂, hr₂⟩ :=
    hcs ((hs.pushLabel hl.2.1).emits hm₁.toEmits) (hlo.trans hlabels₁) hnodup hls₁
  refine ⟨s₂, ⟨.label l, none⟩ :: (code₁ ++ code₂), ?_, ?_⟩
  · rw [Source.lowerCases]
    exact .bind (a := [_]) (makes_place ⟨hl.1, hl.2.1⟩) (.bind (hm₁.mono hlo) hm₂)
  intro hq body post breakTo continueTo hbody hexits
  obtain ⟨hq₁, hq₂⟩ := quiet hm₁.diagnostics hm₂.diagnostics hq
  obtain ⟨hrest, harms⟩ := hr₂ hq₂ hbody hexits
  have hbody₁ : body = s₁.function.body.toList ++ (code₂ ++ post) := by
    rw [hbody, hm₂.body, List.append_assoc]
  have hat : Ir.after? l body = some (code₁ ++ (code₂ ++ post)) := by
    have hsplit : body =
        s.function.body.toList ++ ⟨.label l, none⟩ :: (code₁ ++ (code₂ ++ post)) := by
      simp [hbody₁, hm₁.body]
    rw [hsplit, Ir.after?_append hl.2.2]
  -- an arm falls through to the next one
  have hfirst : Realizes Γ.entities.size body (code₁ ++ (code₂ ++ post))
      ⟨post, breakTo, continueTo⟩ (sequence (a :: arms)) :=
    .seq (hr₁ hq₁ hbody₁ hexits) hrest
  constructor
  · rw [List.cons_append, List.append_assoc]
    exact .of_run (fun _ => Ir.runs_label) hfirst
  -- the arms are found behind their labels
  · intro i l' hl'
    cases i with
    | zero =>
      obtain rfl := Option.some.inj hl'
      exact ⟨_, hat, hfirst⟩
    | succ i => exact harms i l' hl'

/-! ## The whole -/

/-- The value, the comparisons and the jump to the default lead to the arm that is selected. -/
theorem selects_arm {value : Source.Expr} {cases : List Case} {body code code' rest : List Ir.Stmt}
    {labels : List Ir.Label} {fallback : Ir.Label} {starts : Nat → List Ir.Stmt}
    (hvalue : Delivered Γ type value v s code)
    (htests : ∀ x, Selects (Carries Γ.entities.size v x) body
      (code' ++ ⟨.jump (defaultTarget cases labels fallback), here⟩ :: rest)
      (fun arm => arm.elim (⟨.jump (defaultTarget cases labels fallback), here⟩ :: rest) starts)
      (Source.Expr.firstArm Γ x cases))
    (hbody : body = s.function.body.toList ++
      (code' ++ ⟨.jump (defaultTarget cases labels fallback), here⟩ :: rest))
    (hlength : labels.length = cases.length)
    (hstarts : ∀ i, Ir.after? (labels.getD i fallback) body = some (starts i)) :
    Selects (Agree Γ.entities.size) body
      (code ++ (code' ++ ⟨.jump (defaultTarget cases labels fallback), here⟩ :: rest)) starts
      (value.select Γ cases) := by
  intro σ τ hτ
  rw [Source.Expr.select]
  -- the value is delivered, or the switch fails with it
  rcases hvalue.runs hbody hτ with ⟨hout, hf⟩ | ⟨x, τ', σ', hout, hrun, hcarries⟩
  · rw [hout]
    exact .fails hf
  · rw [hout, Option.bind_some]
    refine .after hrun (((htests x hcarries).bind (g := fun arm τ =>
      some ((arm.or (Source.Expr.defaultArm cases)).getD cases.length, τ)) ?_).mono And.left)
    -- without an arm the jump behind the tests is taken, to the default case or to the end
    intro arm σ τ hR
    cases arm with
    | some i => exact .reaches .refl hR
    | none =>
      refine .reaches (Ir.runs_jump ?_) hR
      rw [defaultTarget_eq hlength, hstarts]
      rfl

/-- A switch goes to the first case that equals its value, or to the default case, or ends. -/
theorem lowers_switch {value : Source.Expr} {cases : List Case} {arms : List Execution}
    (hint : (Γ.type? (.integer .int true)).isSome) (hvalue : Typed Γ Γ.entities.size value type)
    (hcases : ∀ c ∈ cases, ∀ e ∈ c.values, Γ.Comparable type e)
    (hlength : arms.length = cases.length)
    (harms : ∀ exits labels, labels.length = cases.length →
      LowersArms Γ exits (Source.lowerCases exits cases labels) labels arms) :
    Lowers Γ exits ((Source.Stmt.switch here value cases).lower exits)
      (Breakable (choose (value.select Γ cases) fun i => sequence (arms.drop i))) := by
  intro s hs
  obtain ⟨v, s₁, code₁, hm₁, hi₁⟩ := makes_switchValue here hvalue hs
  have hs₁ := hs.emits hm₁.toEmits
  have hlabels₁ : s.labels.next ≤ s₁.labels.next := hm₁.labels
  let endLabel : Ir.Label := ⟨s₁.labels.next⟩
  obtain ⟨labels, s₂, code₂, hm₂, hlabels, hnodup, hplaced, hi₂⟩ :=
    makes_testCases here hs₁.takeLabel hint hcases hi₁.width hi₁.entities
  have hs₂ := hs₁.takeLabel.emits hm₂.toEmits
  have hlabels₂ : s₁.labels.next + 1 ≤ s₂.labels.next := hm₂.labels
  let jump : Ir.Stmt := ⟨.jump (defaultTarget cases labels endLabel), here⟩
  have hnew : ∀ l ∈ labels, s₁.labels.next + 1 ≤ l.index ∧ l.index < (s₂.push jump).labels.next ∧
      Ir.Lacks l (s₂.push jump).function.body.toList := by
    intro l hl
    obtain ⟨hge, hlt, hlacks⟩ := hplaced l hl
    have hbefore : Ir.Lacks l s₁.function.body.toList :=
      hs₁.lacks ((Nat.le_succ _).trans hge)
    refine ⟨hge, hlt, ?_⟩
    simp [hm₂.body, hbefore, hlacks, Ir.Stmt.placed?, jump]
  obtain ⟨s₃, code₃, hm₃, hr₃⟩ := harms { exits with breakTo := some endLabel } labels hlabels
    (hs₂.push rfl) hlabels₂ hnodup hnew
  have hlabels₃ : s₂.labels.next ≤ s₃.labels.next := hm₃.labels
  have hm : Makes s.labels.next ((Source.Stmt.switch here value cases).lower exits) s ()
      (s₃.push ⟨.label endLabel, none⟩)
      (code₁ ++ (code₂ ++ jump :: (code₃ ++ [⟨.label endLabel, none⟩]))) := by
    rw [Source.Stmt.lower]
    refine .bind hm₁ (.take makes_newLabel (.bind (hm₂.mono ?_) (.bind (a := [jump]) makes_jump
      (.bind (hm₃.mono ?_) (makes_place ?_)))))
    · simp only [LowerState.takeLabel_labels]
      omega
    · omega
    · dsimp only
      omega
  refine ⟨_, _, hm, fun hq body post breakTo continueTo hbody hexits => ?_⟩
  have hendAt : Ir.after? endLabel body = some post := by
    have hend : endLabel.index < s₁.labels.next + 1 := Nat.lt_succ_self _
    rw [hs.after? hm.toEmits hbody hlabels₁]
    simp [Ir.after?_append_of_lacks (hm₁.placed.lacks (.inr (le_refl endLabel.index))),
      Ir.after?_append_of_lacks (hm₂.placed.lacks (.inl hend)),
      Ir.after?_append_of_lacks (hm₃.placed.lacks (.inl hend)), Ir.after?, Ir.Stmt.placed?, jump]
  have hq₃ : s₃.diagnostics = s₂.diagnostics :=
    (quiet (hm₁.diagnostics.trans hm₂.diagnostics) hm₃.diagnostics hq).2
  have hbody₃ : body = s₃.function.body.toList ++ ⟨.label endLabel, none⟩ :: post := by
    simp [hbody]
  have hbody₂ : body = s₂.function.body.toList ++
      jump :: (code₃ ++ ⟨.label endLabel, none⟩ :: post) := by
    simp [hbody₃, hm₃.body]
  have hbody₁ : body = s₁.function.body.toList ++
      (code₂ ++ jump :: (code₃ ++ ⟨.label endLabel, none⟩ :: post)) := by
    simp [hbody₂, hm₂.body]
  obtain ⟨-, harms⟩ := hr₃ hq₃ hbody₃ ⟨.some hendAt, hexits.continues⟩
  -- beyond the arms stands the end of the switch
  have hstarts : ∀ i, ∃ start, Ir.after? (labels.getD i endLabel) body = some start ∧
      Realizes Γ.entities.size body start ⟨post, some post, continueTo⟩
        (sequence (arms.drop i)) := by
    intro i
    by_cases hi : i < labels.length
    · obtain ⟨start, hat, hr⟩ := harms i labels[i] (List.getElem?_eq_getElem hi)
      refine ⟨start, ?_, .next_run (fun _ => Ir.runs_label) hr⟩
      rw [List.getD_eq_getElem?_getD, List.getElem?_eq_getElem hi, Option.getD_some, hat]
    · have hge : labels.length ≤ i := Nat.le_of_not_lt hi
      refine ⟨post, ?_, ?_⟩
      · rw [List.getD_eq_getElem?_getD, List.getElem?_eq_none hge, Option.getD_none, hendAt]
      · rw [List.drop_eq_nil_of_le (by omega)]
        exact .exit fun _ => .normal .refl
  choose starts hat hrealizes using hstarts
  have harmAt (i : Nat) (l : Ir.Label) (hl : labels[i]? = some l) :
      Ir.after? l body = some (starts i) := by
    rw [← hat i, List.getD_eq_getElem?_getD, hl, Option.getD_some]
  simp only [List.append_assoc, List.cons_append, List.nil_append]
  exact .breakable (.choose (selects_arm hi₁ (hi₂ hbody₂ harmAt) hbody₁ hlabels hat) hrealizes)

end Backend386.Lower
