import Mathlib.Logic.Relation
import Backend386.I386.Generate
import Backend386.Proofs.I386.Machine

/-!
# Control flow of listings

What is left to run of a function is a part of its listing, and a jump goes on with what follows its
label. Calls are described by a relation between the states before and after; a `ret` ends the run.

* `Listing.after?` — what follows a label;
* `Program`, `Program.Step` — a function with all that it calls, and one item of it;
* `Listing.labels` — the labels of a listing;
* `Item.FallsThrough`, `Item.FallsThrough.exists_label` — a jump that is dropped, and where it
  leads;
* `Program.Frames`, `Program.Frames.steps_jump` — a function body between its prologue and its
  epilogue, where dropped jumps make no difference.
-/

namespace Backend386

namespace Listing

/-- What follows the first place of a label. -/
def after? (l : String) : Listing → Option Listing
  | [] => none
  | i :: rest => if i = .label l then some rest else after? l rest

/-- The labels of a listing, in order. -/
def labels (code : Listing) : List String :=
  code.filterMap fun
    | .label l => some l
    | _ => none

@[simp] theorem labels_append (a b : Listing) : labels (a ++ b) = labels a ++ labels b :=
  List.filterMap_append ..

theorem labels_cons_label (l : String) (code : Listing) :
    labels (.label l :: code) = l :: labels code := rfl

/-- A label that is not in the first part of a listing is looked up in the second. -/
theorem after?_append_of_notMem {l : String} {a b : Listing} (h : l ∉ a.labels) :
    after? l (a ++ b) = after? l b := by
  induction a with
  | nil => rfl
  | cons i a ih =>
    have hi : i ≠ .label l := by
      rintro rfl
      exact h List.mem_cons_self
    have ha : l ∉ labels a := fun hl => h (by
      have hsplit : labels (i :: a) = labels [i] ++ labels a := labels_append [i] a
      exact hsplit ▸ List.mem_append_right _ hl)
    rw [List.cons_append, after?, if_neg hi, ih ha]

/-- A label that is in the first part of a listing is found there. -/
theorem after?_append_of_some {l : String} {a b rest : Listing} (h : after? l a = some rest) :
    after? l (a ++ b) = some (rest ++ b) := by
  induction a with
  | nil => cases h
  | cons i a ih =>
    rw [List.cons_append, after?]
    rw [after?] at h
    split
    · rename_i hi
      rw [if_pos hi] at h
      cases h
      rfl
    · rename_i hi
      rw [if_neg hi] at h
      exact ih h

/-- Where labels are placed once, a label is found where it stands. -/
theorem after?_of_nodup {l : String} {a b : Listing} (h : (labels (a ++ .label l :: b)).Nodup) :
    after? l (a ++ .label l :: b) = some b := by
  rw [labels_append, labels_cons_label, List.nodup_append] at h
  have hl : l ∉ labels a := fun ha => h.2.2 l ha l List.mem_cons_self rfl
  rw [after?_append_of_notMem hl, after?, if_pos rfl]

end Listing

/-! ## Programs -/

/-- A function and what it runs in. -/
structure Program where
  symbols : Symbols
  /-- the code of the function from its entry on -/
  code : Listing
  /-- the address of what is left of the code, which calls leave on the stack -/
  here : Listing → Address
  /-- the state in which the function at an address returns, the return address being taken off the
  stack -/
  callee : Address → Machine → Machine → Prop

namespace Program

/-- The address that a call goes to. -/
def target? (x : Program) (s : Machine) : Operand → Option Address
  | .target f => some (x.symbols f)
  | .reg r => if r.size = .w32 then some (s.regs r.cls) else none
  | _ => none

/-- One item of a listing. -/
inductive Step (x : Program) : Listing × Machine → Listing × Machine → Prop where
  | inst {i : Instruction} {rest : Listing} {s s' : Machine} (h : s.exec x.symbols i = some s') :
    Step x (.inst i :: rest, s) (rest, s')
  | comment {text : String} {rest : Listing} {s : Machine} :
    Step x (.comment text :: rest, s) (rest, s)
  | label {l : String} {rest : Listing} {s : Machine} : Step x (.label l :: rest, s) (rest, s)
  | jmp {l : String} {rest rest' : Listing} {s : Machine} (h : x.code.after? l = some rest') :
    Step x (.inst (.jmp (.target l)) :: rest, s) (rest', s)
  | jcc {c : Condition} {l : String} {rest rest' : Listing} {s : Machine} {f : Flags}
    (hf : s.flags = some f) (h : if c.holds f then x.code.after? l = some rest' else rest' = rest) :
    Step x (.inst (.jcc c (.target l)) :: rest, s) (rest', s)
  | call {o : Operand} {f : Address} {rest : Listing} {s s' : Machine} (hf : x.target? s o = some f)
    (h : x.callee f (s.push (x.here rest)) s') : Step x (.inst (.call o) :: rest, s) (rest, s')

/-- Any number of items. -/
abbrev Steps (x : Program) : Listing × Machine → Listing × Machine → Prop :=
  Relation.ReflTransGen x.Step

variable {x : Program}

/-- Code without jumps and calls runs item by item. -/
theorem steps_of_run {a b : Listing} {s s' : Machine} (h : s.run x.symbols a = some s') :
    x.Steps (a ++ b, s) (b, s') := by
  induction a generalizing s with
  | nil =>
    cases h
    exact .refl
  | cons i a ih =>
    cases i with
    | inst i =>
      obtain ⟨s₁, hs₁, h⟩ := Option.bind_eq_some_iff.1 h
      exact .head (.inst hs₁) (ih h)
    | comment => exact .head .comment (ih h)
    | label => exact .head .label (ih h)
    | directive => cases h

end Program

/-! ## Dropped jumps -/

/-- An item that is no jump to a label. -/
def Item.Kept (i : Item) : Prop :=
  i.jumpTarget? = none

/-- Items that are kept stay in front of what jumps are dropped from. -/
theorem dropJumps_append_of_kept {epilogue : String} {a b : Listing} (h : ∀ i ∈ a, i.Kept) :
    dropJumps epilogue (a ++ b) = a ++ dropJumps epilogue b := by
  induction a with
  | nil => rfl
  | cons i a ih =>
    have hi : i.jumpTarget? = none := h i List.mem_cons_self
    rw [List.cons_append, dropJumps, if_neg (by simp [hi]),
      ih fun j hj => h j (List.mem_cons_of_mem _ hj), List.cons_append]

theorem dropJumps_label {epilogue l : String} {rest : Listing} :
    dropJumps epilogue (.label l :: rest) = .label l :: dropJumps epilogue rest :=
  if_neg (by simp [Item.jumpTarget?])

/-- Dropping jumps keeps every label, and what follows it. -/
theorem after?_dropJumps {epilogue l : String} {code : Listing} :
    (dropJumps epilogue code).after? l = (code.after? l).map (dropJumps epilogue) := by
  induction code with
  | nil => rfl
  | cons i code ih =>
    rw [Listing.after?]
    split
    · rename_i hi
      subst hi
      rw [dropJumps_label, Listing.after?, if_pos rfl]
      rfl
    · rename_i hi
      rw [dropJumps]
      split
      · exact ih
      · rw [Listing.after?, if_neg hi, ih]

/-- No label is dropped with the jumps. -/
theorem labels_dropJumps {epilogue : String} {code : Listing} :
    (dropJumps epilogue code).labels = code.labels := by
  induction code with
  | nil => rfl
  | cons i code ih =>
    rw [dropJumps]
    split
    · rename_i hdrop
      have hi : Listing.labels [i] = [] := by
        cases i <;> first | rfl | exact absurd hdrop.1 (by simp [Item.jumpTarget?])
      have hsplit : Listing.labels (i :: code) = Listing.labels [i] ++ Listing.labels code :=
        Listing.labels_append [i] code
      rw [ih, hsplit, hi, List.nil_append]
    · exact (Listing.labels_append [i] _).trans
        ((congrArg _ ih).trans (Listing.labels_append [i] _).symm)

/-- A jump to what follows it. -/
def Item.FallsThrough (epilogue : String) (i : Item) (rest : Listing) : Prop :=
  i.jumpTarget?.isSome ∧ i.jumpTarget? = nextLabel? epilogue rest

theorem Item.FallsThrough.dropJumps_cons {epilogue : String} {i : Item} {rest : Listing}
    (h : i.FallsThrough epilogue rest) :
    dropJumps epilogue (i :: rest) = dropJumps epilogue rest :=
  if_pos h

theorem Item.eq_jmp_of_jumpTarget? {i : Item} {l : String} (h : i.jumpTarget? = some l) :
    i = .jmp l := by
  unfold jumpTarget? at h
  split at h <;> cases h
  rfl

/-- The next label stands at the front, or the epilogue comes next. -/
theorem nextLabel?_eq_some {epilogue l : String} {rest : Listing}
    (h : nextLabel? epilogue rest = some l) :
    rest = [] ∧ l = epilogue ∨ ∃ tail, rest = .label l :: tail := by
  cases rest with
  | nil =>
    cases h
    exact .inl ⟨rfl, rfl⟩
  | cons i tail =>
    cases i with
    | label =>
      cases h
      exact .inr ⟨tail, rfl⟩
    | _ => cases h

/-- A jump that is dropped stands at the end, or in front of the label that it leads to. -/
theorem Item.FallsThrough.exists_label {epilogue : String} {i : Item} {pre rest : Listing}
    (h : i.FallsThrough epilogue rest) (hnodup : (Listing.labels (pre ++ i :: rest)).Nodup) :
    ∃ l, i = .jmp l ∧ (rest = [] ∧ l = epilogue ∨
      ∃ tail, rest = .label l :: tail ∧ Listing.after? l (pre ++ i :: rest) = some tail) := by
  obtain ⟨hsome, hnext⟩ := h
  obtain ⟨l, hl⟩ := Option.isSome_iff_exists.1 hsome
  obtain rfl := eq_jmp_of_jumpTarget? hl
  refine ⟨l, rfl, (nextLabel?_eq_some (hnext.symm.trans hl)).imp_right ?_⟩
  rintro ⟨tail, rfl⟩
  have hsplit : pre ++ .jmp l :: .label l :: tail = (pre ++ [.jmp l]) ++ .label l :: tail := by simp
  exact ⟨tail, rfl, hsplit ▸ Listing.after?_of_nodup (hsplit ▸ hnodup)⟩

/-- The code of a function: a start, a body without the jumps that fall through and the
epilogue. -/
structure Program.Frames (x : Program) (epilogue : String) (start body tail : Listing) : Prop where
  code : x.code = start ++ dropJumps epilogue body ++ .label epilogue :: tail
  start : start.labels = []
  nodup : body.labels.Nodup
  fresh : epilogue ∉ body.labels

namespace Program.Frames

variable {x : Program} {epilogue : String} {start body tail : Listing}

/-- A label of the body is found in the code of the function. -/
theorem after?_body (hx : x.Frames epilogue start body tail) {l : String} {rest : Listing}
    (h : body.after? l = some rest) :
    x.code.after? l = some (dropJumps epilogue rest ++ .label epilogue :: tail) := by
  have hdrop : (dropJumps epilogue body).after? l = some (dropJumps epilogue rest) := by
    rw [after?_dropJumps, h]
    rfl
  rw [hx.code, List.append_assoc, Listing.after?_append_of_notMem (by simp [hx.start]),
    Listing.after?_append_of_some hdrop]

/-- What follows the label of the epilogue is the end of the function. -/
theorem after?_epilogue (hx : x.Frames epilogue start body tail) :
    x.code.after? epilogue = some tail := by
  have hfresh : epilogue ∉ (start ++ dropJumps epilogue body).labels := by
    rw [Listing.labels_append, hx.start, labels_dropJumps]
    exact hx.fresh
  rw [hx.code, Listing.after?_append_of_notMem hfresh, Listing.after?, if_pos rfl]

/-- A jump of the body that may have been dropped. -/
theorem steps_jump (hx : x.Frames epilogue start body tail) {pre rest rest' : Listing} {l : String}
    {s : Machine} (hbody : body = pre ++ .jmp l :: rest) (h : body.after? l = some rest') :
    x.Steps (dropJumps epilogue (.jmp l :: rest) ++ .label epilogue :: tail, s)
      (dropJumps epilogue rest' ++ .label epilogue :: tail, s) := by
  rw [dropJumps]
  split
  · rename_i hdrop
    obtain ⟨_, ⟨⟩, ⟨-, rfl⟩ | ⟨tail', rfl, hafter⟩⟩ :=
      Item.FallsThrough.exists_label hdrop (hbody ▸ hx.nodup)
    · -- only the epilogue follows, and the body has no such label
      have hnone := Listing.after?_append_of_notMem (b := []) hx.fresh
      rw [List.append_nil, h] at hnone
      cases hnone
    · rw [← hbody, h] at hafter
      cases hafter
      rw [dropJumps_label]
      exact .single .label
  · exact .single (.jmp (hx.after?_body h))

/-- A return, which is a jump to the epilogue that may have been dropped. -/
theorem steps_epilogue (hx : x.Frames epilogue start body tail) {pre rest : Listing} {s : Machine}
    (hbody : body = pre ++ .jmp epilogue :: rest) :
    x.Steps (dropJumps epilogue (.jmp epilogue :: rest) ++ .label epilogue :: tail, s)
      (tail, s) := by
  rw [dropJumps]
  split
  · rename_i hdrop
    obtain ⟨_, ⟨⟩, ⟨rfl, -⟩ | ⟨tail', rfl, -⟩⟩ :=
      Item.FallsThrough.exists_label hdrop (hbody ▸ hx.nodup)
    · exact .single .label
    · exact absurd (by simp [hbody, Listing.labels]) hx.fresh
  · exact .single (.jmp hx.after?_epilogue)

end Program.Frames

end Backend386
