import Backend386.Proofs.Ir.Step
import Backend386.Proofs.Lowering.LabelFlow
import Backend386.Proofs.Lowering.UnitRuns

/-!
# The labels of functions and units

A function places every label once that is handed out for it, apart from those that the program
names and does not place, and these are reported. No label is handed out twice in a unit.

* `Lower.FunctionLabels` — what holds of the labels of a function, `Lower.function_labels`;
* `Lower.FunctionRuns.labels`, `Lower.FunctionRuns.nodup` — what holds of all labels of a unit.
-/

namespace Backend386

namespace Lower

variable {α β : Type} {s s' s₁ s₂ : LowerState} {f : Ir.Function} {id : EntityId}

/-! ## Functions -/

/-- A label is reported exactly if a name was used and never placed. -/
theorem exists_undefinedLabels_iff :
    (∃ d ∈ undefinedLabels (s.named.filter (!·.isPlaced)), d.IsUndefinedLabel) ↔
      s.unplaced ≠ [] := by
  rw [LowerState.unplaced, unplacedOf, ne_eq, List.map_eq_nil_iff]
  constructor
  · rintro ⟨d, hd, -⟩ hnil
    rw [hnil] at hd
    cases hd
  · intro hne
    obtain ⟨e, he⟩ := List.exists_mem_of_ne_nil _ hne
    exact ⟨_, List.mem_map_of_mem he, e.name, e.location, rfl⟩

/-- The account of a function without statements. -/
theorem Paired.start (hbody : f.body = #[]) :
    let s₁ := { s with function := f, named := [] }
    Paired s₁ [] [] s₁ := by
  intro s₁
  have hplaced : s₁.function.placedLabels = [] := by simp [s₁, Ir.Function.placedLabels, hbody]
  have htargets : s₁.function.jumpTargets = [] := by simp [s₁, Ir.Function.jumpTargets, hbody]
  constructor
  case le => exact le_rfl
  case accounted =>
    intro l
    have hnone : ¬ Handed s₁ s₁ l := fun h => absurd h.2 (not_lt.2 h.1)
    rw [hplaced, if_neg hnone]
    rfl
  case known => exact fun l hl => absurd hl List.not_mem_nil
  case targets => simp [htargets]
  case named => exact fun e he => absurd he List.not_mem_nil
  case names => exact .nil
  case used => exact fun l hl => absurd hl List.not_mem_nil
  case quiet => exact ⟨[], by simp, fun d hd => absurd hd List.not_mem_nil⟩

/-- When nothing is left to be placed, the check finds a problem iff a name was not placed. -/
theorem Paired.labelProblem?_isSome_iff {s₀ : LowerState} (h : Paired s₀ [] [] s) :
    s.function.labelProblem?.isSome ↔ s.unplaced ≠ [] := by
  have hnodup := h.nodup
  rw [List.append_nil, List.nodup_append] at hnodup
  obtain ⟨hplaced, -, hapart⟩ := hnodup
  rw [← not_iff_not, Option.not_isSome_iff_eq_none, Ir.Function.labelProblem?_eq_none_iff, not_not]
  -- a name that is not placed is jumped to, and a target that is not placed is such a name
  constructor
  · rintro ⟨-, htargets⟩
    refine List.eq_nil_iff_forall_not_mem.2 fun l hl => ?_
    exact hapart l (htargets l (h.used l hl)) l hl rfl
  · intro hnil
    refine ⟨hplaced, fun l hl => ?_⟩
    simpa [hnil] using (h.mem_iff l).2 (h.targets l hl)

/-- What holds of the labels of a function that was lowered between two states. -/
structure FunctionLabels (s : LowerState) (f : Ir.Function) (s' : LowerState) : Prop where
  le : s.labels.next ≤ s'.labels.next
  nodup : f.placedLabels.Nodup
  handed : ∀ l ∈ f.placedLabels, Handed s s' l
  /-- problems are reported, undefined labels among them iff the check finds a problem -/
  reported : ∃ found, s'.diagnostics = s.diagnostics ++ found ∧
    (f.labelProblem?.isSome ↔ ∃ d ∈ found, d.IsUndefinedLabel)

/-- The labels of a function are what its run leaves. -/
theorem function_labels (h : function id s = .ok (f, s')) : FunctionLabels s f s' := by
  obtain ⟨e, params, body, s₁, -, -, hbody, rfl, rfl⟩ := function_eq_body h
  have hpaired := balancedWithin_block {} body _ [] [] (fun _ h => h) (.start rfl) hbody
  obtain ⟨found, hfound, hquiet⟩ := hpaired.quiet
  constructor
  case le => exact hpaired.le
  case nodup => exact (List.nodup_append.1 (List.append_nil _ ▸ hpaired.nodup)).1
  case handed => exact fun l hl => (hpaired.mem_iff l).1 (by simp [hl])
  case reported =>
    refine ⟨found ++ undefinedLabels (s₁.named.filter (!·.isPlaced)), ?_, ?_⟩
    · rw [← List.append_assoc]
      exact congrArg (· ++ _) hfound
    · refine hpaired.labelProblem?_isSome_iff.trans (exists_undefinedLabels_iff.symm.trans ?_)
      -- what was reported along the way is about other problems
      simp only [List.mem_append]
      constructor
      · rintro ⟨d, hd, hundefined⟩
        exact ⟨d, .inr hd, hundefined⟩
      · rintro ⟨d, hd | hd, hundefined⟩
        · exact absurd hundefined (hquiet d hd)
        · exact ⟨d, hd, hundefined⟩

theorem FunctionLabels.grows (h : FunctionLabels s f s') : Grows s s' := by
  obtain ⟨found, hfound, -⟩ := h.reported
  exact ⟨h.le, hfound ▸ List.prefix_append ..⟩

/-! ## Units -/

namespace FunctionRuns

variable {before : List String} {ids : List EntityId} {runs : List FunctionRun}

theorem grows (h : FunctionRuns before ids s runs s') : Grows s s' :=
  (h.steps (w := .any) (Source.Part.covers_all _)).grows

/-- What holds of every function, and of its surroundings. -/
theorem labels (h : FunctionRuns before ids s runs s') {r : FunctionRun} (hr : r ∈ runs) :
    FunctionLabels r.before r.function r.after ∧ Grows s r.before ∧ Grows r.after s' := by
  induction h with
  | nil => cases hr
  | cons hf _ hlocals hrest ih =>
    have hbetween := UnitStepwise.grows inferInstance hlocals
    rcases List.mem_cons.1 hr with rfl | hr
    · exact ⟨function_labels hf, .refl _, hbetween.trans hrest.grows⟩
    · obtain ⟨hlabels, hbefore, hafter⟩ := ih hr
      exact ⟨hlabels, (function_labels hf).grows.trans (hbetween.trans hbefore), hafter⟩

/-- A label that is placed was handed out on the way. -/
theorem handed (h : FunctionRuns before ids s runs s') {r : FunctionRun} (hr : r ∈ runs)
    {l : Ir.Label} (hl : l ∈ r.function.placedLabels) : Handed s s' l := by
  obtain ⟨hlabels, hbefore, hafter⟩ := h.labels hr
  obtain ⟨hlo, hhi⟩ := hlabels.handed l hl
  exact ⟨hbefore.labels.trans hlo, hhi.trans_le hafter.labels⟩

/-- No label is placed twice, in one function or in two. -/
theorem nodup (h : FunctionRuns before ids s runs s') :
    (runs.flatMap (·.function.placedLabels)).Nodup := by
  induction h with
  | nil => exact .nil
  | cons hf _ hlocals hrest ih =>
    rw [List.flatMap_cons, List.nodup_append]
    refine ⟨(function_labels hf).nodup, ih, fun l hl l' hl' => ?_⟩
    obtain ⟨r, hr, hl'⟩ := List.mem_flatMap.1 hl'
    rintro rfl
    -- the later function begins with a supply that has handed out the label already
    have hbefore := ((function_labels hf).handed l hl).2
    have hafter := (hrest.handed hr hl').1
    have hbetween := (UnitStepwise.grows inferInstance hlocals).labels
    omega

end FunctionRuns

/-- A function has a problem with its labels exactly if an undefined label was reported while it was
lowered. -/
theorem FunctionLabels.isSome_iff {r : FunctionRun}
    (h : FunctionLabels r.before r.function r.after) :
    r.before.diagnostics ++ r.reported = r.after.diagnostics ∧
      (r.function.labelProblem?.isSome ↔ ∃ d ∈ r.reported, d.IsUndefinedLabel) := by
  obtain ⟨found, hfound, hiff⟩ := h.reported
  have hreported : r.reported = found := by rw [FunctionRun.reported, hfound, List.drop_left]
  exact ⟨hreported ▸ hfound.symm, hreported ▸ hiff⟩

end Lower

end Backend386
