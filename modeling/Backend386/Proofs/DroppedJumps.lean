import Mathlib.Logic.Function.Iterate
import Backend386.Proofs.I386.Jumps

/-!
# Dropped jumps make no difference

A listing is run item by item, where the outcome of each conditional jump may be any function of
what was executed before. A jump that is dropped leads to the label behind it, and without it the
label is passed instead. So a listing and what is left of it run in step.

* `Listing.Run`, `Listing.step`, `Listing.run` — runs of a listing by itself;
* `Listing.Point.dropped` — the same point of a run once jumps are dropped;
* `Listing.step_dropJumps` — one item;
* `Listing.run_dropJumps` — every run.
-/

namespace Backend386.Listing

/-! ## Runs of a listing -/

/-- Where a run is. -/
inductive Point where
  /-- what is left of the listing -/
  | before (rest : Listing)
  | returned
  /-- at a target that is no label of the listing -/
  | outside (target : Operand)

/-- What is seen of a run. -/
inductive Event where
  | executed (i : Instruction)
  | decided (c : Condition) (target : Operand) (taken : Bool)
deriving DecidableEq

/-- A run as far as it has come. -/
structure Run where
  point : Point
  events : List Event := []

/-- Where a jump leads. -/
def goto (code : Listing) (target : Operand) : Point :=
  match target with
  | .target l =>
    match code.after? l with
    | some rest => .before rest
    | none => .outside target
  | target => .outside target

/-- One item. What is called comes back behind the call, and an item that is no instruction is
passed. -/
def step (code : Listing) (outcome : List Event → Bool) (r : Run) : Run :=
  match r.point with
  | .before (.inst (.jmp target) :: _) => { r with point := code.goto target }
  | .before (.inst (.jcc c target) :: rest) =>
    let taken := outcome r.events
    { point := if taken then code.goto target else .before rest
      events := r.events ++ [.decided c target taken] }
  | .before (.inst .ret :: _) => { point := .returned, events := r.events ++ [.executed .ret] }
  | .before (.inst i :: rest) => { point := .before rest, events := r.events ++ [.executed i] }
  | .before (_ :: rest) => { r with point := .before rest }
  | _ => r

/-- A run from the start of the listing, after so many items. -/
def run (code : Listing) (outcome : List Event → Bool) (n : Nat) : Run :=
  (code.step outcome)^[n] { point := .before code }

/-- A run goes no further: it has passed the last item, returned or left the listing. -/
def Point.Ended : Point → Prop
  | before rest => rest = []
  | returned | outside _ => True

/-- The same point once jumps are dropped. -/
def Point.dropped (epilogue : String) : Point → Point
  | before rest => before (dropJumps epilogue rest)
  | point => point

/-- The same run once jumps are dropped. -/
def Run.dropped (epilogue : String) (r : Run) : Run :=
  { r with point := r.point.dropped epilogue }

variable {code body rest : Listing} {epilogue : String} {outcome : List Event → Bool} {r : Run}

/-! ## Points of a listing -/

/-- What follows a label is the rest of the code. -/
theorem after?_suffix {l : String} (h : code.after? l = some rest) : rest <:+ code := by
  induction code with
  | nil => cases h
  | cons i code ih =>
    rw [after?] at h
    split at h
    · obtain rfl := Option.some.inj h
      exact List.suffix_cons ..
    · exact (ih h).trans (List.suffix_cons ..)

/-- The run is at a place of the listing, or it has ended. -/
def Run.Inside (code : Listing) (r : Run) : Prop :=
  ∀ rest, r.point = .before rest → rest <:+ code

/-- A jump goes on with some rest of the code. -/
theorem suffix_of_goto {target : Operand} (h : code.goto target = .before rest) :
    rest <:+ code := by
  unfold goto at h
  split at h
  · split at h
    · next hafter =>
      cases h
      exact after?_suffix hafter
    · cases h
  · cases h

/-- No step leaves the code. -/
theorem Run.Inside.step (h : r.Inside code) : (code.step outcome r).Inside code := by
  intro rest hpoint
  unfold Listing.step at hpoint
  have hrest {i : Item} {tail : Listing} (hi : r.point = .before (i :: tail)) : tail <:+ code :=
    (List.suffix_cons i tail).trans (h _ hi)
  split at hpoint
  · exact suffix_of_goto hpoint
  · next hi =>
    dsimp only at hpoint
    split at hpoint
    · exact suffix_of_goto hpoint
    · cases hpoint
      exact hrest hi
  · cases hpoint
  · next hi =>
    cases hpoint
    exact hrest hi
  · next hi =>
    cases hpoint
    exact hrest hi
  · exact h rest hpoint

/-- A run never leaves the code. -/
theorem run_inside (code : Listing) (outcome : List Event → Bool) (n : Nat) :
    (code.run outcome n).Inside code := by
  induction n with
  | zero =>
    rintro _ ⟨⟩
    exact List.suffix_rfl
  | succ n ih =>
    rw [run, Function.iterate_succ_apply']
    exact ih.step

/-! ## Dropping jumps -/

/-- Where a jump goes is the same place once jumps have been dropped. -/
theorem goto_dropJumps (code : Listing) (epilogue : String) (target : Operand) :
    (dropJumps epilogue code).goto target = (code.goto target).dropped epilogue := by
  unfold goto
  split
  · rw [after?_dropJumps]
    cases code.after? _ <;> rfl
  · rfl

/-- A body is followed by its epilogue, so that jumps to the epilogue at its end are dropped. -/
theorem dropJumps_append_epilogue (body : Listing) (epilogue : String) :
    dropJumps epilogue (body ++ [.label epilogue]) =
      dropJumps epilogue body ++ [.label epilogue] := by
  induction body with
  | nil => rfl
  | cons i body ih =>
    have hnext : nextLabel? epilogue (body ++ [.label epilogue]) = nextLabel? epilogue body := by
      cases body with
      | nil => rfl
      | cons j => cases j <;> rfl
    rw [List.cons_append, dropJumps, dropJumps, hnext, ih]
    split <;> rfl

/-- What is left of a body and its epilogue is the epilogue at least. -/
theorem dropJumps_eq_nil_iff (h : rest <:+ body ++ [.label epilogue]) :
    dropJumps epilogue rest = [] ↔ rest = [] := by
  refine ⟨fun hnil => ?_, fun hrest => by rw [hrest, dropJumps]⟩
  obtain rfl | ⟨front, rfl, -⟩ := List.suffix_concat_iff.1 h
  · rfl
  · rw [dropJumps_append_epilogue] at hnil
    simp at hnil

/-- One item: where a jump is dropped, the label behind it is passed. -/
theorem step_dropJumps (hnodup : (labels (body ++ [.label epilogue])).Nodup)
    (h : r.Inside (body ++ [.label epilogue])) :
    step (dropJumps epilogue (body ++ [.label epilogue])) outcome (r.dropped epilogue) =
      (step (body ++ [.label epilogue]) outcome r).dropped epilogue := by
  obtain ⟨point, events⟩ := r
  cases point with
  | returned | outside => rfl
  | before rest =>
    cases rest with
    | nil => rfl
    | cons i rest =>
      -- the only item that is treated in another way is a jump to the label behind it
      by_cases hdrop : i.FallsThrough epilogue rest
      -- the jump is gone, and where the program jumped to, the other one is already
      · obtain ⟨pre, hcode⟩ := h _ rfl
        obtain ⟨l, rfl, ⟨rfl, -⟩ | ⟨tail, rfl, hafter⟩⟩ := hdrop.exists_label (hcode ▸ hnodup)
        · have hnil := (dropJumps_eq_nil_iff (h _ rfl)).1 hdrop.dropJumps_cons
          cases hnil
        · rw [Run.dropped, Point.dropped, hdrop.dropJumps_cons, dropJumps_label]
          dsimp only [step, Item.jmp, goto]
          rw [← hcode, hafter]
          rfl
      -- what is kept does the same, and where it goes is the same place without jumps
      · have hkept : dropJumps epilogue (i :: rest) = i :: dropJumps epilogue rest :=
          if_neg hdrop
        rw [Run.dropped, Point.dropped, hkept]
        cases i with
        | comment | label | directive => rfl
        | inst i =>
          cases i with
          | jmp target =>
            dsimp only [step]
            rw [goto_dropJumps]
            rfl
          | jcc c target =>
            dsimp only [step]
            rw [goto_dropJumps]
            cases outcome events <;> rfl
          | _ => rfl

/-! ## Runs -/

/-- A listing and what is left of it run in step. -/
theorem run_dropJumps (hnodup : (labels (body ++ [.label epilogue])).Nodup)
    (outcome : List Event → Bool) (n : Nat) :
    run (dropJumps epilogue (body ++ [.label epilogue])) outcome n =
      (run (body ++ [.label epilogue]) outcome n).dropped epilogue := by
  induction n with
  | zero => rfl
  | succ n ih =>
    rw [run, run, Function.iterate_succ_apply', Function.iterate_succ_apply', ← run, ← run, ih]
    exact step_dropJumps hnodup (run_inside _ _ n)

/-- Dropped jumps do not change where a run ends. -/
theorem dropped_eq_iff (h : r.Inside (body ++ [.label epilogue])) {p : Point} (hp : p.Ended) :
    r.point.dropped epilogue = p ↔ r.point = p := by
  obtain ⟨point, events⟩ := r
  cases point with
  | returned | outside => rfl
  | before rest =>
    cases p with
    | returned | outside => simp [Point.dropped]
    | before rest' =>
      obtain rfl : rest' = [] := hp
      simpa [Point.dropped] using dropJumps_eq_nil_iff (h rest rfl)

/-- All but jumps to labels is kept, in order. -/
theorem filter_dropJumps (epilogue : String) (body : Listing) :
    (dropJumps epilogue body).filter (·.jumpTarget?.isNone) =
      body.filter (·.jumpTarget?.isNone) := by
  induction body with
  | nil => rfl
  | cons i body ih =>
    rw [dropJumps]
    split
    · next hdrop =>
      have hi : i.jumpTarget?.isNone = false := by
        rw [← Option.not_isSome, hdrop.1, Bool.not_true]
      rw [ih, List.filter_cons, hi, if_neg Bool.false_ne_true]
    · rw [List.filter_cons, List.filter_cons, ih]

/-- Dropping jumps only removes jumps to labels, and the rest is executed as before: after as many
items the same has been executed, and a run ends where it did before. -/
theorem dropJumps_executions (hnodup : body.labels.Nodup) (hfresh : epilogue ∉ body.labels) :
    (dropJumps epilogue body).Sublist body ∧
    (dropJumps epilogue body).filter (·.jumpTarget?.isNone) =
      body.filter (·.jumpTarget?.isNone) ∧
    ∀ (outcome : List Event → Bool) (n : Nat),
      let before := run (body ++ [.label epilogue]) outcome n
      let after := run (dropJumps epilogue body ++ [.label epilogue]) outcome n
      after.events = before.events ∧ after.point = before.point.dropped epilogue ∧
        ∀ p : Point, p.Ended → (after.point = p ↔ before.point = p) := by
  refine ⟨dropJumps_sublist .., filter_dropJumps .., fun outcome n => ?_⟩
  have hlabels : (labels (body ++ [.label epilogue])).Nodup := by
    rw [labels_append, labels_cons_label]
    exact List.nodup_append.2 ⟨hnodup, List.nodup_singleton _,
      fun l hl l' hl' heq => hfresh (List.mem_singleton.1 hl' ▸ heq ▸ hl)⟩
  have hrun := run_dropJumps hlabels outcome n
  rw [dropJumps_append_epilogue] at hrun
  intro before after
  have hpoint : after.point = before.point.dropped epilogue := congrArg Run.point hrun
  have hevents : after.events = (before.dropped epilogue).events := congrArg Run.events hrun
  refine ⟨hevents, hpoint, fun p hp => ?_⟩
  rw [hpoint]
  exact dropped_eq_iff (run_inside _ outcome n) hp

/-- A jump to a jump stays, a jump to the first of two labels is dropped, and so is the return. -/
theorem dropJumps_executions_loop :
    let body : Listing := [.inst (.jmp (.target "b")), .inst (.jmp (.target "a")), .label "a",
      .label "b", .inst (.jcc .e (.target "a")), .inst (.jmp (.target "out"))]
    let short : Listing :=
      [.inst (.jmp (.target "b")), .label "a", .label "b", .inst (.jcc .e (.target "a"))]
    let once (events : List Event) : Bool := events.isEmpty
    let events : List Event := [.decided .e (.target "a") true, .decided .e (.target "a") false]
    dropJumps "out" body = short ∧ (run (body ++ [.label "out"]) once 8).events = events ∧
      (run (short ++ [.label "out"]) once 8).events = events := by
  intro body short once events
  have hshort : dropJumps "out" body = short := by decide
  have hevents : (run (body ++ [.label "out"]) once 8).events = events := by decide
  have hnodup : body.labels.Nodup := by decide
  have hfresh : "out" ∉ body.labels := by decide
  obtain ⟨-, -, hruns⟩ := dropJumps_executions hnodup hfresh
  exact ⟨hshort, hevents, hshort ▸ (hruns once 8).1.trans hevents⟩

end Backend386.Listing
