import Backend386.Proofs.I386.Plain
import Backend386.Proofs.Places.Bare

/-!
# Comments do not change which jumps are dropped

Whether a jump is dropped depends on the item that follows it, and that may be a comment. But a
comment stands only in front of the code of a statement that is no label, and this code begins with
an instruction: no label follows the jump without the comment either.

* `Placement.valueCode_ne_nil` — every expression has code;
* `Listing.CommentsLead` — every comment is followed by an instruction;
* `dropJumps_withoutComments` — in such a listing, the same jumps are dropped without the comments;
* `Placement.commentsLead_bodyCode` — the code of a body is such a listing.
-/

namespace Backend386

/-! ## Expressions have code -/

/-- An operation has code. -/
theorem applyCode_ne_nil {w : Width} {op : Ir.Op} {rhs : Operand} {code : Listing}
    (h : applyCode w op rhs = .ok code) : code ≠ [] := by
  have hdivide {signed remainder : Bool} (h : divideCode w signed remainder rhs = .ok code) :
      code ≠ [] := by
    obtain ⟨_, -, h⟩ := bind_eq_ok_iff.1 h
    obtain ⟨_, -, h⟩ := bind_eq_ok_iff.1 h
    cases h
    cases signed <;> simp
  obtain ⟨_, -, h⟩ := bind_eq_ok_iff.1 h
  cases op
  case sDiv | sMod | uDiv | uMod => exact hdivide h
  all_goals
    cases h
    try exact List.cons_ne_nil _ _

/-- So has any binary operation. -/
theorem binaryCode_ne_nil {w : Width} {op : Ir.Op} {l r : Ir.Expr}
    {left right : Except Fault Listing} {code : Listing}
    (h : binaryCode w op l r left right = .ok code) : code ≠ [] := by
  unfold binaryCode at h
  split at h
  · obtain ⟨cmp, -, h⟩ := bind_eq_ok_iff.1 h
    obtain ⟨set, hset, h⟩ := bind_eq_ok_iff.1 h
    obtain ⟨_, -, hset⟩ := bind_eq_ok_iff.1 hset
    cases hset
    cases h
    exact List.append_ne_nil_of_right_ne_nil _ (List.cons_ne_nil _ _)
  · obtain ⟨_, -, h⟩ := bind_eq_ok_iff.1 h
    obtain ⟨apply, happly, h⟩ := bind_eq_ok_iff.1 h
    cases h
    exact List.append_ne_nil_of_right_ne_nil _ (applyCode_ne_nil happly)

/-- A unary operation has code if its operand has. -/
theorem unaryCode_ne_nil {w : Width} {op : Ir.Op} {e : Ir.Expr} {operand : Except Fault Listing}
    {code : Listing} (he : ∀ code, operand = .ok code → code ≠ [])
    (h : unaryCode w op e operand = .ok code) : code ≠ [] := by
  obtain ⟨ce, hce, h⟩ := bind_eq_ok_iff.1 h
  obtain ⟨_, -, h⟩ := bind_eq_ok_iff.1 h
  have hoperand (rest : Listing) : ce ++ rest ≠ [] :=
    List.append_ne_nil_of_left_ne_nil (he ce hce) rest
  cases op
  case neg | bitNot =>
    cases h
    exact hoperand _
  case not =>
    obtain ⟨_, -, h⟩ := bind_eq_ok_iff.1 h
    obtain ⟨set, -, h⟩ := bind_eq_ok_iff.1 h
    cases h
    exact List.append_ne_nil_of_left_ne_nil (hoperand _) _
  case sCast | uCast =>
    obtain ⟨ext, -, h⟩ := bind_eq_ok_iff.1 h
    cases h
    exact hoperand _
  all_goals cases h

namespace Placement

variable {p : Placement} {options : AssemblyOptions} {epilogue : Ir.Label}

/-- The address of an entity has code. -/
theorem entityAddressCode_ne_nil {v : EntityId} {code : Listing}
    (h : p.entityAddressCode v = .ok code) : code ≠ [] := by
  obtain ⟨e, -, h⟩ := bind_eq_ok_iff.1 h
  obtain ⟨st, -, h⟩ := bind_eq_ok_iff.1 h
  obtain ⟨i?, -, h⟩ := bind_eq_ok_iff.1 h
  split at h
  · cases h
    exact List.cons_ne_nil _ _
  · cases h
    exact List.cons_ne_nil _ _
  · cases h

/-- A call has code. -/
theorem transferCode_ne_nil {callee : Ir.Expr} {target : Except Fault Listing} {code : Listing}
    (h : p.transferCode callee target = .ok code) : code ≠ [] := by
  obtain ⟨f?, -, h⟩ := bind_eq_ok_iff.1 h
  cases f? with
  | some f =>
    obtain ⟨_, -, h⟩ := bind_eq_ok_iff.1 h
    cases h
    exact List.cons_ne_nil _ _
  | none =>
    obtain ⟨ct, -, h⟩ := bind_eq_ok_iff.1 h
    cases h
    exact List.append_ne_nil_of_right_ne_nil _ (List.cons_ne_nil _ _)

/-- Every expression has code: only a cast may add nothing to the code of its operand. -/
theorem valueCode_ne_nil (e : Ir.Expr) : ∀ code, p.valueCode e = .ok code → code ≠ [] := by
  intro code h
  -- each expression ends with an instruction of its own, or with that of its operand
  cases e with
  | int w v =>
    obtain ⟨_, -, h⟩ := bind_eq_ok_iff.1 h
    cases h
    exact List.cons_ne_nil _ _
  | str w i =>
    obtain ⟨_, -, h⟩ := bind_eq_ok_iff.1 h
    obtain ⟨_, -, h⟩ := bind_eq_ok_iff.1 h
    cases h
    exact List.cons_ne_nil _ _
  | var w v =>
    obtain ⟨_, -, h⟩ := bind_eq_ok_iff.1 h
    obtain ⟨_, -, h⟩ := bind_eq_ok_iff.1 h
    obtain ⟨_, -, h⟩ := bind_eq_ok_iff.1 h
    cases h
    exact List.cons_ne_nil _ _
  | addr w v =>
    obtain ⟨_, -, h⟩ := bind_eq_ok_iff.1 h
    exact entityAddressCode_ne_nil h
  | mem w a =>
    obtain ⟨_, -, h⟩ := bind_eq_ok_iff.1 h
    obtain ⟨_, -, h⟩ := bind_eq_ok_iff.1 h
    cases h
    exact List.append_ne_nil_of_right_ne_nil _ (List.cons_ne_nil _ _)
  | uni w op e =>
    obtain ⟨_, -, h⟩ := bind_eq_ok_iff.1 h
    exact unaryCode_ne_nil (valueCode_ne_nil e) h
  | bin w op l r =>
    obtain ⟨_, -, h⟩ := bind_eq_ok_iff.1 h
    exact binaryCode_ne_nil h
  | call w f args =>
    obtain ⟨_, -, h⟩ := bind_eq_ok_iff.1 h
    obtain ⟨ca, -, h⟩ := bind_eq_ok_iff.1 h
    obtain ⟨ct, hct, h⟩ := bind_eq_ok_iff.1 h
    cases h
    exact List.append_ne_nil_of_left_ne_nil
      (List.append_ne_nil_of_right_ne_nil _ (transferCode_ne_nil hct)) _

end Placement

/-! ## Listings with comments -/

namespace Listing

/-- Every comment is directly followed by an instruction. -/
def CommentsLead : Listing → Prop
  | [] => True
  | .comment _ :: rest => (∃ i code, rest = .inst i :: code) ∧ CommentsLead rest
  | _ :: rest => CommentsLead rest

variable {a b code : Listing} {epilogue : String}

@[simp] theorem withoutComments_append :
    (a ++ b).withoutComments = a.withoutComments ++ b.withoutComments :=
  List.filter_append ..

theorem withoutComments_cons {i : Item} (h : i.isComment = false) :
    withoutComments (i :: a) = i :: a.withoutComments :=
  List.filter_cons_of_pos (by rw [h]; rfl)

theorem withoutComments_eq_self (h : ∀ i ∈ a, i.isComment = false) : a.withoutComments = a :=
  List.filter_eq_self.2 fun i hi => by rw [h i hi]; rfl

/-- Comments lead in two pieces of code if they do in both. -/
theorem CommentsLead.append (ha : CommentsLead a) (hb : CommentsLead b) :
    CommentsLead (a ++ b) := by
  induction a with
  | nil => exact hb
  | cons i a ih =>
    cases i with
    | comment t =>
      obtain ⟨⟨i, code, rfl⟩, ha⟩ := ha
      exact ⟨⟨i, code ++ b, rfl⟩, ih ha⟩
    | _ => exact ih ha

/-- What is behind a piece of code has its comments lead as well. -/
theorem CommentsLead.of_append (h : CommentsLead (a ++ b)) : CommentsLead b := by
  induction a with
  | nil => exact h
  | cons i a ih =>
    cases i with
    | comment t => exact ih h.2
    | _ => exact ih h

/-- Comments lead where there are none. -/
theorem CommentsLead.of_no_comment (h : ∀ i ∈ a, i.isComment = false) : CommentsLead a := by
  induction a with
  | nil => trivial
  | cons i a ih =>
    have ha := ih fun j hj => h j (List.mem_cons_of_mem _ hj)
    cases i with
    | comment t => cases h (.comment t) List.mem_cons_self
    | _ => exact ha

/-- The same label follows without the comments. -/
theorem CommentsLead.nextLabel? (h : CommentsLead code) :
    nextLabel? epilogue code.withoutComments = nextLabel? epilogue code := by
  cases code with
  | nil => rfl
  | cons i rest =>
    cases i with
    | comment t =>
      obtain ⟨⟨i, code, rfl⟩, -⟩ := h
      rfl
    | _ => rfl

/-- The same jumps lead to what follows them without the comments. -/
theorem CommentsLead.fallsThrough_iff {i : Item} (h : CommentsLead (a ++ i :: b)) :
    i.FallsThrough epilogue b ↔ i.FallsThrough epilogue b.withoutComments := by
  have hrest : CommentsLead b := by
    refine CommentsLead.of_append (a := a ++ [i]) ?_
    rwa [List.append_assoc]
  rw [Item.FallsThrough, Item.FallsThrough, hrest.nextLabel?]

end Listing

/-- Where every comment is followed by an instruction, the same jumps are dropped without the
comments. -/
theorem dropJumps_withoutComments {code : Listing} (h : code.CommentsLead) (epilogue : String) :
    (dropJumps epilogue code).withoutComments = dropJumps epilogue code.withoutComments := by
  induction code with
  | nil => rfl
  | cons i rest ih =>
    cases i with
    | comment t => exact ih h.2
    | _ =>
      have hrest : Listing.CommentsLead rest := h
      rw [Listing.withoutComments_cons rfl, dropJumps, dropJumps, hrest.nextLabel?]
      split
      · exact ih h
      · rw [Listing.withoutComments_cons rfl, ih h]

/-! ## Statements -/

namespace Placement

variable {p : Placement} {options : AssemblyOptions} {epilogue : Ir.Label} {code : Listing}

/-- Solid code consists of instructions. -/
theorem isInstruction_of_solid (h : code.Solid) : ∀ i ∈ code, i.isInstruction = true := by
  intro i hi
  have hsolid := h i hi
  cases i with
  | inst i => rfl
  | _ => cases hsolid

/-- A store has code. -/
theorem storeCode_ne_nil {target value : Ir.Expr} (h : p.storeCode target value = .ok code) :
    code ≠ [] := by
  obtain ⟨m?, -, h⟩ := bind_eq_ok_iff.1 h
  cases m? with
  | some m =>
    obtain ⟨_, -, h⟩ := bind_eq_ok_iff.1 h
    obtain ⟨_, -, h⟩ := bind_eq_ok_iff.1 h
    cases h
    exact List.append_ne_nil_of_right_ne_nil _ (List.cons_ne_nil _ _)
  | none =>
    obtain ⟨_, -, h⟩ := bind_eq_ok_iff.1 h
    obtain ⟨_, -, h⟩ := bind_eq_ok_iff.1 h
    obtain ⟨_, -, h⟩ := bind_eq_ok_iff.1 h
    cases h
    exact List.append_ne_nil_of_right_ne_nil _ (List.cons_ne_nil _ _)

/-- A statement that is no label has code, which consists of instructions. -/
theorem actionCode_instructions {s : Ir.Stmt} (hplaced : s.placed? = none)
    (h : p.actionCode epilogue s.action = .ok code) :
    code ≠ [] ∧ ∀ i ∈ code, i.isInstruction = true := by
  -- no statement is without an instruction but a label, which is excluded
  obtain ⟨action, location⟩ := s
  cases action with
  | eval e =>
    exact ⟨valueCode_ne_nil e code h, isInstruction_of_solid ((exprCode_solid e).1 code h)⟩
  | assign => exact ⟨storeCode_ne_nil h, isInstruction_of_solid (storeCode_solid h)⟩
  | jump l =>
    cases h
    exact ⟨List.cons_ne_nil _ _, List.forall_mem_singleton.2 rfl⟩
  | branch test yes no =>
    obtain ⟨⟨ct, c⟩, hct, h⟩ := bind_eq_ok_iff.1 h
    cases h
    refine ⟨List.append_ne_nil_of_right_ne_nil _ (List.cons_ne_nil _ _), ?_⟩
    refine List.forall_mem_append.2 ⟨isInstruction_of_solid (testCode_solid hct), ?_⟩
    exact List.forall_mem_cons.2 ⟨rfl, List.forall_mem_singleton.2 rfl⟩
  | label l => cases hplaced
  | ret e =>
    cases e with
    | none =>
      cases h
      exact ⟨List.cons_ne_nil _ _, List.forall_mem_singleton.2 rfl⟩
    | some e =>
      obtain ⟨ce, hce, h⟩ := bind_eq_ok_iff.1 h
      cases h
      refine ⟨List.append_ne_nil_of_right_ne_nil _ (List.cons_ne_nil _ _), ?_⟩
      exact List.forall_mem_append.2 ⟨isInstruction_of_solid ((exprCode_solid e).1 ce hce),
        List.forall_mem_singleton.2 rfl⟩

/-- The code of a statement has no comments of its own. -/
theorem actionCode_not_isComment {s : Ir.Stmt} (h : p.actionCode epilogue s.action = .ok code) :
    ∀ i ∈ code, i.isComment = false := by
  cases hplaced : s.placed? with
  | none =>
    intro i hi
    have hinst := (actionCode_instructions hplaced h).2 i hi
    cases i with
    | comment t => cases hinst
    | _ => rfl
  | some l =>
    obtain ⟨action, location⟩ := s
    cases action with
    | label l =>
      cases h
      exact List.forall_mem_singleton.2 rfl
    | _ => cases hplaced

/-- A comment is made only for a statement that is no label. -/
theorem comment_cases (s : Ir.Stmt) :
    s.comment options = [] ∨ s.placed? = none ∧ ∃ text, s.comment options = [.comment text] := by
  unfold Ir.Stmt.comment
  split
  · split
    · exact .inr ⟨‹_ ∧ _›.2, _, rfl⟩
    · exact .inl rfl
  · exact .inl rfl

@[simp] theorem withoutComments_comment (s : Ir.Stmt) :
    (s.comment options).withoutComments = [] := by
  rcases comment_cases s with h | ⟨-, text, h⟩ <;> rw [h] <;> rfl

/-- The code of a statement begins with its comment, if that is followed by an instruction. -/
theorem commentsLead_stmtCode {s : Ir.Stmt} (h : p.stmtCode options epilogue s = .ok code) :
    code.CommentsLead := by
  obtain ⟨ca, hca, h⟩ := bind_eq_ok_iff.1 h
  cases h
  have hlead : ca.CommentsLead := .of_no_comment (actionCode_not_isComment hca)
  rcases comment_cases s with hnone | ⟨hplaced, text, hone⟩
  · rw [hnone]
    exact hlead
  · rw [hone]
    obtain ⟨hne, hinst⟩ := actionCode_instructions hplaced hca
    cases ca with
    | nil => cases hne rfl
    | cons i rest =>
      have hi := hinst i List.mem_cons_self
      cases i with
      | inst i => exact ⟨⟨i, rest, rfl⟩, hlead⟩
      | _ => cases hi

/-- In the code of a body, every comment is followed by an instruction. -/
theorem commentsLead_bodyCode {body : List Ir.Stmt}
    (h : p.bodyCode options epilogue body = .ok code) : code.CommentsLead := by
  induction body generalizing code with
  | nil =>
    cases h
    trivial
  | cons s body ih =>
    obtain ⟨cs, hcs, h⟩ := bind_eq_ok_iff.1 h
    obtain ⟨cb, hcb, h⟩ := bind_eq_ok_iff.1 h
    cases h
    exact (commentsLead_stmtCode hcs).append (ih hcb)

end Placement

end Backend386
