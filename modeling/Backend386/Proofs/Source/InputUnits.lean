import Backend386.Proofs.Source.ReadUnits

/-!
# What is read is an input

Whatever is read of a unit, the numbers of its entities have 32 bits and nothing of its entities is
settled.

* `Json.of_required?`, `Json.of_list?`, `Json.of_optional?` — what is read as a field or in a list
  was read;
* `Source.fits_of_readExprWithin?`, `Source.fits_of_readBlock?` — the numbers in expressions and
  blocks;
* `Source.ProgramUnit.isInput_of_parse?` — every unit that is read is one as it is read.
-/

namespace Backend386

namespace Json

section

variable {α : Type} {read : Json → Option α} {P : α → Prop} (h : ∀ j a, read j = some a → P a)

include h

theorem of_required? {field : Option Json} {a : α} (ha : required? read field = some a) : P a := by
  cases field with
  | none => cases ha
  | some j => exact h j a ha

/-- A field with a default has a property that the default has. -/
theorem of_withDefault? {field : Option Json} {default a : α} (hdefault : P default)
    (ha : withDefault? default read field = some a) : P a := by
  cases field with
  | none =>
    obtain rfl := Option.some.inj ha
    exact hdefault
  | some j => exact h j a ha

/-- An optional field has it if it is there. -/
theorem of_optional? {field : Option Json} {a : α} (ha : optional? read field = some (some a)) :
    P a := by
  unfold optional? at ha
  split at ha
  · cases ha
  · cases ha
  · obtain ⟨b, hb, hab⟩ := Option.map_eq_some_iff.1 ha
    obtain rfl := Option.some.inj hab
    exact h _ b hb

/-- So has each element of a list. -/
theorem of_mapM {js : List Json} {as : List α} (has : js.mapM read = some as) : ∀ a ∈ as, P a := by
  induction js generalizing as with
  | nil =>
    obtain rfl := Option.some.inj has
    exact List.forall_mem_nil _
  | cons j js ih =>
    rw [List.mapM_cons] at has
    obtain ⟨a, ha, hrest⟩ := Option.bind_eq_some_iff.1 has
    obtain ⟨rest, hread, hcons⟩ := Option.bind_eq_some_iff.1 hrest
    obtain rfl := Option.some.inj hcons
    exact List.forall_mem_cons.2 ⟨h j a ha, ih hread⟩

theorem of_list? {j : Json} {as : List α} (has : list? read j = some as) : ∀ a ∈ as, P a := by
  cases j with
  | arr js => exact of_mapM h has
  | _ => cases has

end

end Json

open Json

/-- Ids that are read fit. -/
theorem fits_of_readEntityId? {j : Json} {id : EntityId} (h : readEntityId? j = some id) :
    id.Fits := by
  obtain ⟨n, hn, rfl⟩ := Option.map_eq_some_iff.1 h
  unfold natBelow? at hn
  split at hn
  · split at hn
    · next hrange =>
      obtain rfl := Option.some.inj hn
      exact (Int.toNat_lt hrange.1).2 hrange.2
    · cases hn
  · cases hn

namespace Source

theorem Expr.forall_mem_usesAll {es : List Expr} {ok : EntityId → Prop} :
    (∀ id ∈ usesAll es, ok id) ↔ ∀ e ∈ es, ∀ id ∈ e.uses, ok id := by
  induction es with
  | nil => simp [usesAll]
  | cons e es ih => rw [usesAll, List.forall_mem_append, ih, List.forall_mem_cons]

section

variable {read : Json → Option Expr} {note : Note} {node : String} {j : Json} {e : Expr}

/-- The numbers in a node are those of its operands, or that of a variable. -/
theorem fits_of_readNode? (hread : ∀ j e, read j = some e → ∀ id ∈ e.uses, id.Fits)
    (h : readNode? read note node j = some e) : ∀ id ∈ e.uses, id.Fits := by
  have hneed {field : Option Json} {e : Expr} (h : required? read field = some e) :
      ∀ id ∈ e.uses, id.Fits :=
    of_required? hread h
  have hentity {field : Option Json} {id : EntityId} (h : required? readEntityId? field = some id) :
      id.Fits :=
    of_required? (fun _ _ => fits_of_readEntityId?) h
  have hargs {field : Option Json} {es : List Expr} (h : required? (list? read) field = some es) :
      ∀ id ∈ Expr.usesAll es, id.Fits :=
    Expr.forall_mem_usesAll.2 (of_required? (fun _ _ => of_list? hread) h)
  unfold readNode? at h
  split at h
  case h_21 => cases h
  -- a node that has other fields is not read
  all_goals
    obtain ⟨fields, -, h⟩ := Option.bind_eq_some_iff.1 h
    split at h
    on_goal 2 => cases h
    simp only [Option.bind_eq_bind, Option.bind_eq_some_iff, Option.pure_def] at h
  all_goals grind [Expr.uses]

end

/-- So do all ids of an expression. -/
theorem fits_of_readExprWithin? {steps : Nat} {j : Json} {e : Expr}
    (h : readExprWithin? steps j = some e) : ∀ id ∈ e.uses, id.Fits := by
  induction steps generalizing j e with
  | zero => cases h
  | succ steps ih =>
    rw [readExprWithin?] at h
    obtain ⟨fields, -, h⟩ := Option.bind_eq_some_iff.1 h
    split at h
    · simp only [Option.bind_eq_bind, Option.bind_eq_some_iff] at h
      obtain ⟨type, -, location, -, ⟨node, content⟩, -, h⟩ := h
      exact fits_of_readNode? (fun _ _ => ih) h
    · cases h

theorem fits_of_requiredExpr? {field : Option Json} {e : Expr}
    (h : required? readExpr? field = some e) : ∀ id ∈ e.uses, id.Fits :=
  of_required? (fun _ _ => fits_of_readExprWithin?) h

theorem fits_of_optionExpr? {field : Option Json} {e : Option Expr}
    (h : optional? readExpr? field = some e) : ∀ id ∈ usesOption e, id.Fits := by
  cases e with
  | none => exact List.forall_mem_nil _
  | some e => exact of_optional? (fun _ _ => fits_of_readExprWithin?) h

/-! ## Statements -/

theorem forall_mem_idsOfStmts {ss : List Stmt} {ok : EntityId → Prop} :
    (∀ id ∈ idsOfStmts ss, ok id) ↔ ∀ s ∈ ss, ∀ id ∈ s.ids, ok id := by
  induction ss with
  | nil => simp [idsOfStmts]
  | cons s ss ih => rw [idsOfStmts, List.forall_mem_append, ih, List.forall_mem_cons]

/-- The entities that are named in a case. -/
def Case.ids : Case → List EntityId
  | .mk values body => Expr.usesAll values ++ body.ids

/-- The ids of the cases are those of each case. -/
theorem forall_mem_idsOfCases {cs : List Case} {ok : EntityId → Prop} :
    (∀ id ∈ idsOfCases cs, ok id) ↔ ∀ c ∈ cs, ∀ id ∈ c.ids, ok id := by
  induction cs with
  | nil => simp [idsOfCases]
  | cons c cs ih =>
    obtain ⟨values, body⟩ := c
    rw [idsOfCases, List.forall_mem_append, ih, List.forall_mem_cons, Case.ids]

section

variable {read : Json → Option Stmt} (hread : ∀ j s, read j = some s → ∀ id ∈ s.ids, id.Fits)

include hread

/-- The ids of a block fit if those of its statements do. -/
theorem fits_of_readBlockWith? {j : Json} {b : Block} (h : readBlockWith? read j = some b) :
    ∀ id ∈ b.ids, id.Fits := by
  unfold readBlockWith? at h
  obtain ⟨fields, -, h⟩ := Option.bind_eq_some_iff.1 h
  split at h
  · simp only [Option.bind_eq_bind, Option.bind_eq_some_iff, Option.pure_def] at h
    obtain ⟨vars, hvars, stmts, hstmts, hb⟩ := h
    obtain rfl := Option.some.inj hb
    rw [Block.ids, List.forall_mem_append, forall_mem_idsOfStmts]
    constructor
    · exact of_withDefault? (fun _ _ => of_list? fun _ _ => fits_of_readEntityId?)
        (List.forall_mem_nil _) hvars
    · exact of_withDefault? (fun _ _ => of_list? hread) (List.forall_mem_nil _) hstmts
  · cases h

/-- So do those of a case. -/
theorem fits_of_readCaseWith? {j : Json} {c : Case} (h : readCaseWith? read j = some c) :
    ∀ id ∈ c.ids, id.Fits := by
  unfold readCaseWith? at h
  obtain ⟨fields, -, h⟩ := Option.bind_eq_some_iff.1 h
  split at h
  · simp only [Option.bind_eq_bind, Option.bind_eq_some_iff, Option.pure_def] at h
    obtain ⟨values, hvalues, body, hbody, hc⟩ := h
    obtain rfl := Option.some.inj hc
    rw [Case.ids, List.forall_mem_append, Expr.forall_mem_usesAll]
    constructor
    · exact of_withDefault? (fun _ _ => of_list? fun _ _ => fits_of_readExprWithin?)
        (List.forall_mem_nil _) hvalues
    · exact of_required? (fun _ _ => fits_of_readBlockWith? hread) hbody
  · cases h

/-- The numbers in a statement are those of its expressions and inner statements. -/
theorem fits_of_readStmtNode? {place : Option Location} {node : String} {j : Json} {s : Stmt}
    (h : readStmtNode? read place node j = some s) : ∀ id ∈ s.ids, id.Fits := by
  have hstmt {field : Option Json} {s : Stmt} (h : required? read field = some s) :
      ∀ id ∈ s.ids, id.Fits :=
    of_required? hread h
  have helse {field : Option Json} {s : Stmt} (h : optional? read field = some (some s)) :
      ∀ id ∈ s.ids, id.Fits :=
    of_optional? hread h
  have hblock {field : Option Json} {b : Block}
      (h : required? (readBlockWith? read) field = some b) : ∀ id ∈ b.ids, id.Fits :=
    of_required? (fun _ _ => fits_of_readBlockWith? hread) h
  have hcases {field : Option Json} {cs : List Case}
      (h : required? (list? (readCaseWith? read)) field = some cs) :
      ∀ id ∈ idsOfCases cs, id.Fits :=
    forall_mem_idsOfCases.2
      (of_required? (fun _ _ => of_list? fun _ _ => fits_of_readCaseWith? hread) h)
  unfold readStmtNode? at h
  split at h
  case h_13 => cases h
  case h_8 | h_9 =>
    split at h
    · obtain rfl := Option.some.inj h
      rw [Stmt.ids]
      exact List.forall_mem_nil _
    · cases h
  case h_3 =>
    -- the second branch tells which statement it is
    obtain ⟨fields, -, h⟩ := Option.bind_eq_some_iff.1 h
    split at h
    on_goal 2 => cases h
    simp only [Option.bind_eq_bind, Option.bind_eq_some_iff, Option.pure_def] at h
    obtain ⟨test, htest, yes, hyes, no, hno, h⟩ := h
    cases no with
    | none =>
      obtain rfl := Option.some.inj h
      rw [Stmt.ids, List.forall_mem_append]
      exact ⟨fits_of_requiredExpr? htest, hstmt hyes⟩
    | some no =>
      obtain rfl := Option.some.inj h
      rw [Stmt.ids, List.forall_mem_append, List.forall_mem_append]
      exact ⟨⟨fits_of_requiredExpr? htest, hstmt hyes⟩, helse hno⟩
  all_goals
    obtain ⟨fields, -, h⟩ := Option.bind_eq_some_iff.1 h
    split at h
    on_goal 2 => cases h
    simp only [Option.bind_eq_bind, Option.bind_eq_some_iff, Option.pure_def] at h
  all_goals grind [Stmt.ids, fits_of_requiredExpr?, fits_of_optionExpr?]

end

/-- So do those of a statement. -/
theorem fits_of_readStmtWithin? {steps : Nat} {j : Json} {s : Stmt}
    (h : readStmtWithin? steps j = some s) : ∀ id ∈ s.ids, id.Fits := by
  induction steps generalizing j s with
  | zero => cases h
  | succ steps ih =>
    rw [readStmtWithin?] at h
    obtain ⟨fields, -, h⟩ := Option.bind_eq_some_iff.1 h
    split at h
    · simp only [Option.bind_eq_bind, Option.bind_eq_some_iff] at h
      obtain ⟨place, -, ⟨node, content⟩, -, h⟩ := h
      exact fits_of_readStmtNode? (fun _ _ => ih) h
    · cases h

theorem fits_of_readBlock? {j : Json} {b : Block} (h : readBlock? j = some b) :
    ∀ id ∈ b.ids, id.Fits :=
  fits_of_readBlockWith? (fun _ _ => fits_of_readStmtWithin?) h

/-! ## Entities and units -/

/-- So do those of an entity. -/
theorem fits_of_readEntityKind? {j : Json} {kind : EntityKind} (h : readEntityKind? j = some kind) :
    ∀ id ∈ kind.ids, id.Fits := by
  unfold readEntityKind? at h
  obtain ⟨⟨name, content⟩, -, h⟩ := Option.bind_eq_some_iff.1 h
  -- the two kinds of fields that hold names
  have hids {field : Option Json} {ids : List EntityId}
      (h : required? (list? readEntityId?) field = some ids) : ∀ id ∈ ids, id.Fits :=
    of_required? (fun _ _ => of_list? fun _ _ => fits_of_readEntityId?) h
  have hblock {field : Option Json} {b : Block} (h : required? readBlock? field = some b) :
      ∀ id ∈ b.ids, id.Fits :=
    of_required? (fun _ _ => fits_of_readBlock?) h
  dsimp only at h
  split at h
  case h_7 => cases h
  -- declarations have no names inside
  case h_2 | h_3 | h_5 =>
    split at h
    · obtain rfl := Option.some.inj h
      exact List.forall_mem_nil _
    · cases h
  all_goals
    obtain ⟨fields, -, h⟩ := Option.bind_eq_some_iff.1 h
    split at h
    on_goal 2 => cases h
    simp only [Option.bind_eq_bind, Option.bind_eq_some_iff, Option.pure_def] at h
  all_goals grind [EntityKind.ids, fits_of_requiredExpr?, fits_of_optionExpr?]

/-- Nothing is settled of an entity that is read. -/
theorem asInput_of_readEntity? {j : Json} {e : Entity} (h : readEntity? j = some e) :
    e.asInput = e ∧ ∀ id ∈ e.kind.ids, id.Fits := by
  unfold readEntity? at h
  obtain ⟨fields, -, h⟩ := Option.bind_eq_some_iff.1 h
  split at h
  · simp only [Option.bind_eq_bind, Option.bind_eq_some_iff, Option.pure_def] at h
    obtain ⟨name, -, ref, -, isPrivate, -, location, -, kind, hkind, he⟩ := h
    obtain rfl := Option.some.inj he
    exact ⟨rfl, of_required? (fun _ _ => fits_of_readEntityKind?) hkind⟩
  · cases h

/-- What is read of a program is input, and its ids fit. -/
theorem of_readProgram? {j : Json} {p : Program} (h : readProgram? j = some p) :
    (∀ e ∈ p.entities.entries, e.asInput = e ∧ ∀ id ∈ e.kind.ids, id.Fits) ∧
      ∀ id ∈ p.declarations, id.Fits := by
  unfold readProgram? at h
  obtain ⟨fields, -, h⟩ := Option.bind_eq_some_iff.1 h
  split at h
  · simp only [Option.bind_eq_bind, Option.bind_eq_some_iff, Option.pure_def] at h
    obtain ⟨entities, hentities, declarations, hdeclarations, hp⟩ := h
    obtain rfl := Option.some.inj hp
    exact ⟨of_required? (fun _ _ => of_list? fun _ _ => asInput_of_readEntity?) hentities,
      of_required? (fun _ _ => of_list? fun _ _ => fits_of_readEntityId?) hdeclarations⟩
  · cases h

namespace ProgramUnit

/-- What is read of a unit is input. -/
theorem isInput_of_read? {j : Json} {u : ProgramUnit} (h : read? j = some u) : u.IsInput := by
  unfold read? at h
  obtain ⟨fields, -, h⟩ := Option.bind_eq_some_iff.1 h
  split at h
  · simp only [Option.bind_eq_bind, Option.bind_eq_some_iff, Option.pure_def] at h
    obtain ⟨types, -, program, hprogram, hu⟩ := h
    obtain rfl := Option.some.inj hu
    obtain ⟨hentities, hdeclarations⟩ := of_required? (fun _ _ => of_readProgram?) hprogram
    exact ⟨fun e he => (hentities e he).1, fun e he => (hentities e he).2, hdeclarations⟩
  · cases h

/-- Every unit that is read is one as it is read. -/
theorem isInput_of_parse? {text : String} {u : ProgramUnit} (h : parse? text = some u) :
    u.IsInput := by
  obtain ⟨j, -, h⟩ := Option.bind_eq_some_iff.1 h
  unfold ofJson? at h
  dsimp only at h
  split at h
  · exact isInput_of_read? h
  · cases h

end ProgramUnit

end Source

end Backend386
