import Mathlib.Data.List.Count
import Mathlib.Data.List.Nodup
import Backend386.Ir.Function
import Backend386.Proofs.Lowering.Stepwise

/-!
# Accounting for labels

Every label that is handed out while a function is lowered is in exactly one of three places: it is
placed, or the lowering has still to place it, or the program has named it and not placed it yet.
Whatever jumps, jumps to such a label. So at the end only labels that the program names can lack a
place, and those are reported.

* `Lower.Paired` — the account of a state, with the labels that are still to be placed;
* `Lower.Leads` — a computation changes the account in a certain way;
* `Lower.Balanced` — a computation leaves the account as it is; instances of this class follow the
  structure of a computation.
-/

namespace Backend386

/-- An error about a label that was used and never placed. -/
def Diagnostic.IsUndefinedLabel (d : Diagnostic) : Prop :=
  ∃ name location, d = ⟨.error, (LoweringProblem.undefinedLabel name).message, location⟩

/-- The labels of the entries that are not placed. -/
def unplacedOf (entries : List NamedLabel) : List Ir.Label :=
  (entries.filter (!·.isPlaced)).map (·.label)

/-- The labels that the program has named and not placed. -/
def LowerState.unplaced (s : LowerState) : List Ir.Label :=
  unplacedOf s.named

namespace Lower

variable {α β : Type} {s₀ s s' s₁ : LowerState} {known pending : List Ir.Label}

/-- A label was handed out between two states. -/
def Handed (s₀ s : LowerState) (l : Ir.Label) : Prop :=
  s₀.labels.next ≤ l.index ∧ l.index < s.labels.next

instance : DecidablePred (Handed s₀ s) :=
  fun l => inferInstanceAs (Decidable (s₀.labels.next ≤ l.index ∧ l.index < s.labels.next))

/-- The account of a state, for the labels handed out since `s₀`. Those in `pending` are still to be
placed; those in `known` may be jumped to. -/
structure Paired (s₀ : LowerState) (known pending : List Ir.Label) (s : LowerState) : Prop where
  le : s₀.labels.next ≤ s.labels.next
  /-- every label is in one place -/
  accounted : ∀ l, (s.function.placedLabels ++ pending ++ s.unplaced).count l =
    if Handed s₀ s l then 1 else 0
  known : ∀ l ∈ known, Handed s₀ s l
  targets : ∀ l ∈ s.function.jumpTargets, Handed s₀ s l
  named : ∀ e ∈ s.named, Handed s₀ s e.label
  names : (s.named.map (·.name)).Nodup
  /-- a name that is not placed was jumped to -/
  used : ∀ l ∈ s.unplaced, l ∈ s.function.jumpTargets
  quiet : ∃ found, s.diagnostics = s₀.diagnostics ++ found ∧ ∀ d ∈ found, ¬ d.IsUndefinedLabel

namespace Paired

/-- The labels of the account are those that were handed out. -/
theorem mem_iff (h : Paired s₀ known pending s) (l : Ir.Label) :
    l ∈ s.function.placedLabels ++ pending ++ s.unplaced ↔ Handed s₀ s l := by
  rw [← List.count_pos_iff, h.accounted l]
  split <;> simp_all

/-- No label is placed twice, and none that is still to be placed is there yet. -/
theorem nodup (h : Paired s₀ known pending s) :
    (s.function.placedLabels ++ pending ++ s.unplaced).Nodup := by
  rw [List.nodup_iff_count_le_one]
  intro l
  rw [h.accounted l]
  split <;> omega

/-- A label that is still to be placed was handed out. -/
theorem pending_handed (h : Paired s₀ known pending s) {l : Ir.Label} (hl : l ∈ pending) :
    Handed s₀ s l :=
  (h.mem_iff l).1 (by simp [hl])

theorem perm {pending' : List Ir.Label} (h : Paired s₀ known pending s)
    (hp : pending.Perm pending') : Paired s₀ known pending' s := by
  refine { h with accounted := fun l => ?_ }
  rw [← h.accounted l]
  simp only [List.count_append, hp.count_eq]

theorem weaken {known' : List Ir.Label} (h : Paired s₀ known pending s) (hk : known' ⊆ known) :
    Paired s₀ known' pending s :=
  { h with known := fun l hl => h.known l (hk hl) }

end Paired

/-- Two states with the same labels. -/
structure SameLabels (s s' : LowerState) : Prop where
  labels : s'.labels = s.labels
  placed : s'.function.placedLabels = s.function.placedLabels
  targets : s'.function.jumpTargets = s.function.jumpTargets
  named : s'.named = s.named
  diagnostics : s'.diagnostics = s.diagnostics

theorem SameLabels.refl (s : LowerState) : SameLabels s s :=
  ⟨rfl, rfl, rfl, rfl, rfl⟩

theorem SameLabels.trans (h : SameLabels s s₁) (h' : SameLabels s₁ s') : SameLabels s s' :=
  ⟨h'.labels.trans h.labels, h'.placed.trans h.placed, h'.targets.trans h.targets,
    h'.named.trans h.named, h'.diagnostics.trans h.diagnostics⟩

theorem SameLabels.handed (h : SameLabels s s') (l : Ir.Label) :
    Handed s₀ s' l ↔ Handed s₀ s l := by
  rw [Handed, h.labels]
  rfl

/-- A step that does not change labels keeps all of this. -/
theorem Paired.of_same (hp : Paired s₀ known pending s) (h : SameLabels s s') :
    Paired s₀ known pending s' := by
  have hunplaced : s'.unplaced = s.unplaced := by rw [LowerState.unplaced, h.named]; rfl
  constructor
  case le => exact h.labels ▸ hp.le
  case accounted =>
    intro l
    rw [h.placed, hunplaced, hp.accounted l]
    simp only [h.handed]
  case known => exact fun l hl => (h.handed l).2 (hp.known l hl)
  case targets => exact fun l hl => (h.handed l).2 (hp.targets l (h.targets ▸ hl))
  case named => exact fun e he => (h.handed _).2 (hp.named e (h.named ▸ he))
  case names => exact h.named ▸ hp.names
  case used => exact fun l hl => h.targets ▸ hp.used l (hunplaced ▸ hl)
  case quiet => exact h.diagnostics ▸ hp.quiet

/-- One more label is handed out. It may be jumped to, and is to be placed. -/
theorem Paired.takeLabel (hs : Paired s₀ known pending s) :
    Paired s₀ (⟨s.labels.next⟩ :: known) (⟨s.labels.next⟩ :: pending) s.takeLabel := by
  have hmono (l : Ir.Label) (h : Handed s₀ s l) : Handed s₀ s.takeLabel l :=
    ⟨h.1, Nat.lt_succ_of_lt h.2⟩
  have hnew : Handed s₀ s.takeLabel ⟨s.labels.next⟩ := ⟨hs.le, Nat.lt_succ_self _⟩
  constructor
  case le => exact hs.le.trans (Nat.le_succ _)
  case accounted =>
    intro l
    have haccount := hs.accounted l
    have hunplaced : s.takeLabel.unplaced = s.unplaced := rfl
    rw [hunplaced, LowerState.takeLabel_function]
    simp only [List.count_append, List.count_cons] at haccount ⊢
    -- only the new label changes its count: it was nowhere before, since it was not handed out
    by_cases heq : (⟨s.labels.next⟩ : Ir.Label) = l
    · subst heq
      have hbefore : ¬ Handed s₀ s ⟨s.labels.next⟩ := fun h => Nat.lt_irrefl _ h.2
      rw [if_neg hbefore] at haccount
      rw [if_pos hnew, if_pos (beq_self_eq_true _)]
      omega
    · have hiff : Handed s₀ s.takeLabel l ↔ Handed s₀ s l := by
        refine ⟨fun h => ⟨h.1, Nat.lt_of_le_of_ne (Nat.le_of_lt_succ h.2) fun h => heq ?_⟩, hmono l⟩
        rw [← h]
      simp [hiff, heq, ← haccount]
  case known =>
    intro l hl
    rcases List.mem_cons.1 hl with rfl | hl
    · exact hnew
    · exact hmono l (hs.known l hl)
  case targets => exact fun l hl => hmono l (hs.targets l hl)
  case named => exact fun e he => hmono _ (hs.named e he)
  case names => exact hs.names
  case used => exact hs.used
  case quiet => exact hs.quiet

@[simp] theorem placedLabels_push {stmt : Ir.Stmt} :
    (s.push stmt).function.placedLabels = s.function.placedLabels ++ stmt.placed?.toList := by
  rw [Ir.Function.placedLabels, LowerState.push_body, List.filterMap_append]
  cases h : stmt.placed? <;> simp [Ir.Function.placedLabels, h]

@[simp] theorem jumpTargets_push {stmt : Ir.Stmt} :
    (s.push stmt).function.jumpTargets = s.function.jumpTargets ++ stmt.targets := by
  rw [Ir.Function.jumpTargets, LowerState.push_body, List.flatMap_append]
  simp [Ir.Function.jumpTargets]

/-- A statement is appended that jumps to labels which were handed out, or that places a label which
is to be placed. -/
theorem Paired.push {first : List Ir.Label} {stmt : Ir.Stmt}
    (hs : Paired s₀ known (first ++ (stmt.placed?.toList ++ pending)) s)
    (ht : ∀ l ∈ stmt.targets, Handed s₀ s l) :
    Paired s₀ known (first ++ pending) (s.push stmt) := by
  constructor
  case le => exact hs.le
  -- a label that the statement places is no longer pending
  case accounted =>
    intro l
    have haccount := hs.accounted l
    have hunplaced : (s.push stmt).unplaced = s.unplaced := rfl
    rw [hunplaced, placedLabels_push]
    simp only [List.count_append] at haccount ⊢
    change _ = if Handed s₀ s l then 1 else 0
    omega
  case known => exact hs.known
  case targets =>
    intro l hl
    rcases List.mem_append.1 (jumpTargets_push ▸ hl) with hl | hl
    · exact hs.targets l hl
    · exact ht l hl
  case named => exact hs.named
  case names => exact hs.names
  case used =>
    intro l hl
    rw [jumpTargets_push]
    exact List.mem_append_left _ (hs.used l hl)
  case quiet => exact hs.quiet

/-! ## Computations -/

/-- If a computation succeeds, the labels that are still to be placed are those of `left`. -/
def Leads (s₀ : LowerState) (known pending : List Ir.Label) (m : Lower α)
    (left : α → List Ir.Label) : Prop :=
  ∀ ⦃s x s'⦄, Paired s₀ known pending s → m s = .ok (x, s') → Paired s₀ known (left x) s'

/-- A computation that places the labels it takes, and no others. What was computed before is
written down so that instance search keeps it in mind: it starts over behind each result that it
forgets. -/
class BalancedAfter {ι : Type} (before : ι) (m : Lower α) : Prop where
  leads : ∀ s₀ known pending, Leads s₀ known pending m fun _ => pending

/-- The same whatever was computed before. -/
abbrev Balanced (m : Lower α) : Prop :=
  BalancedAfter () m

namespace Leads

variable {m : Lower α} {f : α → Lower β} {left : α → List Ir.Label} {after : β → List Ir.Label}

/-- A result that says what is left. -/
theorem ret {x : α} (h : left x = pending) :
    Leads s₀ known pending (Pure.pure x : Lower α) left := by
  subst h
  intro s y s' hs h
  obtain ⟨rfl, rfl⟩ := Prod.mk.inj (Except.ok.inj h)
  exact hs

theorem pure (x : α) : Leads s₀ known pending (Pure.pure x : Lower α) fun _ => pending :=
  ret rfl

theorem bind (hm : Leads s₀ known pending m left)
    (hf : ∀ x, Leads s₀ known (left x) (f x) after) : Leads s₀ known pending (m >>= f) after := by
  intro s y s' hs h
  obtain ⟨x, s₁, hx, hy⟩ := Lower.bind_eq_ok_iff.1 h
  exact hf x (hm hs hx) hy

/-- A first step whose results are known to be of a certain form. -/
theorem bind_of {P : α → Prop} (hm : Leads s₀ known pending m left)
    (hP : ∀ s x s', m s = .ok (x, s') → P x)
    (hf : ∀ x, P x → Leads s₀ known (left x) (f x) after) :
    Leads s₀ known pending (m >>= f) after := by
  intro s y s' hs h
  obtain ⟨x, s₁, hx, hy⟩ := Lower.bind_eq_ok_iff.1 h
  exact hf x (hP s x s₁ hx) (hm hs hx) hy

theorem perm {left' : α → List Ir.Label} (hm : Leads s₀ known pending m left)
    (hp : ∀ x, (left x).Perm (left' x)) : Leads s₀ known pending m left' :=
  fun _ x _ hs h => (hm hs h).perm (hp x)

/-- A step that leaves the account as it is. -/
theorem keep [hm : Balanced m] (hf : ∀ x, Leads s₀ known pending (f x) after) :
    Leads s₀ known pending (m >>= f) after :=
  (hm.leads s₀ known pending).bind hf

theorem take : Leads s₀ known pending Lower.newLabel fun l => l :: pending := by
  intro s x s' hs h
  obtain ⟨rfl, rfl⟩ := Prod.mk.inj (Except.ok.inj h)
  exact hs.takeLabel.weaken (List.subset_cons_self ..)

/-- A label that is handed out may be jumped to, and is to be placed. -/
theorem newLabel {f : Ir.Label → Lower β}
    (hf : ∀ l, Leads s₀ (l :: known) (l :: pending) (f l) after) :
    Leads s₀ known pending (Lower.newLabel >>= f) after := by
  intro s y s' hs h
  -- afterwards the label is dropped from those that may be jumped to
  have hrun : Lower.newLabel s = .ok (⟨s.labels.next⟩, s.takeLabel) := rfl
  rw [bind_ok hrun] at h
  exact (hf _ hs.takeLabel h).weaken (List.subset_cons_self ..)

variable {location : Option Location} {l yes no : Ir.Label}

/-- A label that is to be placed is placed. -/
theorem place (first : List Ir.Label) :
    Leads s₀ known (first ++ l :: pending) (Lower.place l) fun _ => first ++ pending := by
  intro s x s' hs h
  obtain ⟨-, rfl⟩ := Prod.mk.inj (Except.ok.inj h)
  -- the label moves from those that are to be placed to those that are
  have hstmt : ([l] : List Ir.Label) = (⟨.label l, none⟩ : Ir.Stmt).placed?.toList := rfl
  rw [← List.singleton_append, hstmt] at hs
  exact hs.push (by simp [Ir.Stmt.targets])

/-- A jump to labels that may be jumped to. -/
theorem emit {action : Ir.Action} (hplaced : (⟨action, location⟩ : Ir.Stmt).placed? = none)
    (ht : ∀ l ∈ (⟨action, location⟩ : Ir.Stmt).targets, l ∈ known ∨ l ∈ pending) :
    Leads s₀ known pending (Lower.emit location action) fun _ => pending := by
  intro s x s' hs h
  obtain ⟨-, rfl⟩ := Prod.mk.inj (Except.ok.inj h)
  have hpush : Paired s₀ known
      ([] ++ ((⟨action, location⟩ : Ir.Stmt).placed?.toList ++ pending)) s := by
    rwa [hplaced]
  refine hpush.push fun l hl => ?_
  rcases ht l hl with hl | hl
  · exact hs.known l hl
  · exact hs.pending_handed hl

theorem jump (hl : l ∈ known ∨ l ∈ pending) :
    Leads s₀ known pending (Lower.jump location l) fun _ => pending :=
  emit rfl (by simpa [Ir.Stmt.targets] using hl)

theorem branch {test : Ir.Expr} (hyes : yes ∈ known ∨ yes ∈ pending)
    (hno : no ∈ known ∨ no ∈ pending) :
    Leads s₀ known pending (Lower.branch location test yes no) fun _ => pending :=
  emit rfl (by simp [Ir.Stmt.targets, hyes, hno])

end Leads

/-! ## Computations that keep the account -/

/-- A step that has nothing to do with labels. -/
theorem Move.sameLabels (h : Move .flat s s') : SameLabels s s' := by
  cases h with
  | newLabel hl | report hl | name hl => exact hl.elim
  | emit _ hl =>
    obtain ⟨hplaced, htargets⟩ := hl.resolve_left not_false
    exact ⟨rfl, by simp [hplaced], by simp [htargets], rfl, rfl⟩
  | _ => exact ⟨rfl, rfl, rfl, rfl, rfl⟩

theorem Moves.sameLabels (h : Moves .flat s s') : SameLabels s s' := by
  induction h with
  | refl => exact .refl s
  | tail _ hmove ih => exact ih.trans hmove.sameLabels

namespace Balanced

variable {ι : Type} {before : ι} {m : Lower α} {f : α → Lower β}

instance (priority := low) after [h : Balanced m] : BalancedAfter before m :=
  ⟨h.leads⟩

theorem of_same (h : ∀ s x s', m s = .ok (x, s') → SameLabels s s') : Balanced m where
  leads := fun _ _ _ s x s' hs hm => hs.of_same (h s x s' hm)

/-- Pieces of expressions have nothing to do with labels. -/
instance (priority := low) of_flat [Refers α] {es : List Source.Expr}
    [h : Stepwise .flat .always m es] : BalancedAfter before m :=
  ⟨(of_same fun _ _ _ hm =>
    (h.walked (Source.Part.closed_all _) trivial hm).moves.sameLabels).leads⟩

instance pure (x : α) : BalancedAfter before (Pure.pure x : Lower α) where
  leads := fun _ _ _ => .pure x

instance bind [hm : BalancedAfter before m] [hf : ∀ x, BalancedAfter (before, x) (f x)] :
    BalancedAfter before (m >>= f) where
  leads := fun s₀ known pending =>
    (hm.leads s₀ known pending).bind fun x => (hf x).leads s₀ known pending

theorem bind_of (hm : Balanced m) (hf : ∀ x, Balanced (f x)) : Balanced (m >>= f) :=
  bind

instance ite {c : Prop} [Decidable c] {m' : Lower α} [BalancedAfter before m]
    [BalancedAfter before m'] : BalancedAfter before (if c then m else m') := by
  split <;> infer_instance

instance fail (fault : Fault) : BalancedAfter before (throw fault : Lower α) where
  leads := fun _ _ _ _ _ _ _ h => nomatch h

instance forM {l : List α} {f : α → Lower Unit} [hf : ∀ a, Balanced (f a)] :
    BalancedAfter before (l.forM f) := by
  have hforM : Balanced (l.forM f) := by
    induction l with
    | nil => exact Balanced.pure ()
    | cons a l ih => exact .bind_of (hf a) fun _ => ih
  infer_instance

instance forM_option {o : Option α} {f : α → Lower Unit} [hf : ∀ a, Balanced (f a)] :
    BalancedAfter before (o.forM f) := by
  cases o with
  | none => exact Balanced.pure ()
  | some a => exact ⟨(hf a).leads⟩

theorem modify {f : LowerState → LowerState} (h : ∀ s, SameLabels s (f s)) :
    Balanced (modify f : Lower Unit) := by
  refine of_same fun s x s' hm => ?_
  obtain ⟨-, rfl⟩ := Prod.mk.inj (Except.ok.inj hm)
  exact h s

end Balanced

instance {value : String} : Balanced (stringId value) := by
  refine .of_same fun s x s' h => ?_
  obtain ⟨rfl, -⟩ := stringId_eq_ok h
  exact ⟨rfl, rfl, rfl, rfl, rfl⟩

instance {type : TypeId} : Balanced (temporary type) := by
  refine .of_same fun s x s' h => ?_
  obtain ⟨ref, -, -, rfl⟩ := temporary_eq_ok h
  exact ⟨rfl, rfl, rfl, rfl, rfl⟩

end Lower

end Backend386
