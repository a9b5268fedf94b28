import Backend386.Proofs.Source.Occurs
import Backend386.Proofs.Source.ReadTypes

/-!
# Expressions that were written are read again

An expression is written as an object with its node, its type and its place, and read by recursion
on a bound on its depth. Entities are numbered with 32 bits where they are read, so an expression is
read again if the numbers in it fit.

* `EntityId.Fits` — the numbers that are read;
* `Source.readExprWithin?_wrap` — a node with its type and its place;
* `Source.readExprWithin?_toJson`, `Source.readExpr?_toJson` — reading what was written;
* `Source.Expr.isPlain_toJson` — the form of an expression is plain.
-/

namespace Backend386

open Json

/-! ## Entities -/

/-- The number of an entity is one of 32 bits. -/
def EntityId.Fits (id : EntityId) : Prop :=
  id.index < UInt32.size

instance (id : EntityId) : Decidable id.Fits :=
  inferInstanceAs (Decidable (id.index < UInt32.size))

theorem readEntityId?_toJson {id : EntityId} (h : id.Fits) : readEntityId? id.toJson = some id := by
  rw [readEntityId?, EntityId.toJson, natBelow?_nat h, Option.map_some]

theorem list?_readEntityId? {ids : List EntityId} (h : ∀ id ∈ ids, id.Fits) :
    list? readEntityId? (.list EntityId.toJson ids) = some ids :=
  list?_list fun id hid => readEntityId?_toJson (h id hid)

theorem EntityId.isPlain_toJson {id : EntityId} (h : id.Fits) : id.toJson.IsPlain :=
  isPlain_nat (Nat.lt_trans h (by decide))

namespace Source

/-! ## Operators -/

theorem readUnaryOp?_tag (setting : Setting) (op : UnaryOp) :
    readUnaryOp? setting (.str op.tag) = some op := by
  cases op <;> rfl

theorem readBinaryOp?_tag (setting : Setting) (op : BinaryOp) :
    readBinaryOp? setting (.str op.tag) = some op := by
  cases op <;> rfl

theorem readLogicalOp?_tag (setting : Setting) (op : LogicalOp) :
    readLogicalOp? setting (.str op.tag) = some op := by
  cases op <;> rfl

theorem readStepOp?_tag (setting : Setting) (op : StepOp) :
    readStepOp? setting (.str op.tag) = some op := by
  cases op <;> rfl

/-! ## Nodes -/

section

variable {read : Json → Option Expr} {note : Note}

theorem readNode?_int {j : Json} {v : Int64} (h : int64? j = some v) :
    readNode? read note "int" (.obj [("value", j)]) = some (.int note v) := by
  rw [readNode?]
  simp [record?_obj, required?, h]

theorem readNode?_var {j : Json} {id : EntityId} (h : readEntityId? j = some id) :
    readNode? read note "var" (.obj [("entity", j)]) = some (.var note id) := by
  rw [readNode?]
  simp [record?_obj, required?, h]

/-- A node that is read is read along with its type and its place. -/
theorem readExprWithin?_wrap {steps : Nat} {node : String} {fields : List (String × Json)}
    {e : Expr}
    (hnode : "node" ∉ fields.map (·.1))
    (h : readNode? (readExprWithin? steps) note node (.obj fields) = some e) :
    readExprWithin? (steps + 1) (note.wrap node fields) = some e := by
  have hfields : record? ["kind", "ty", "location"] (note.wrap node fields) =
      some [some (.obj (("node", .str node) :: fields)), some note.type.toJson,
        some (Location.optionToJson note.location)] :=
    record?_obj rfl (by decide)
  have htag : innerTagged? "node" exprNodes (.obj (("node", .str node) :: fields)) =
      some (node, .obj fields) :=
    taggedBy?_obj rfl hnode
  rw [readExprWithin?, hfields]
  simp [required?, TypeRef.readTypeRef?_toJson, optional?_location, htag, h]

end

/-! ## Expressions -/

namespace Expr

theorem toJsonAll_eq_map (es : List Expr) : toJsonAll es = es.map toJson := by
  induction es with
  | nil => rfl
  | cons e es ih => rw [toJsonAll, ih, List.map_cons]

mutual

/-- An expression is read again with any bound above its depth. -/
theorem readExprWithin?_toJson : ∀ (e : Expr) (steps : Nat), e.toJson.depth < steps →
    (∀ id ∈ e.uses, id.Fits) → readExprWithin? steps e.toJson = some e
  | e, 0, h, _ => absurd h (Nat.not_lt_zero _)
  | int n v, steps + 1, _, _ => by
    rw [toJson]
    exact readExprWithin?_wrap (by simp) (readNode?_int (int64?_int v))
  | str n v, steps + 1, _, _ => by
    rw [toJson]
    refine readExprWithin?_wrap (by simp) ?_
    rw [readNode?]
    simp [record?_obj, required?, str?]
  | var n id, steps + 1, _, hids => by
    rw [toJson]
    refine readExprWithin?_wrap (by simp) (readNode?_var (readEntityId?_toJson (hids id ?_)))
    rw [uses]
    exact List.mem_singleton_self id
  -- the operands are nested one level less deep, so one step less is enough to read them
  | sizeofType n t, steps + 1, _, _ => by
    rw [toJson]
    refine readExprWithin?_wrap (by simp) ?_
    rw [readNode?]
    simp [record?_obj, required?, TypeRef.readTypeRef?_toJson]
  | sizeofExpr n e, steps + 1, h, hids | cast n e, steps + 1, h, hids
  | addr n e, steps + 1, h, hids | deref n e, steps + 1, h, hids => by
    rw [toJson] at h ⊢
    rw [uses] at hids
    simp only [Note.wrap, depth, depthOfFields] at h
    have he := readExprWithin?_toJson e steps (by omega) hids
    refine readExprWithin?_wrap (by simp) ?_
    rw [readNode?]
    simp [record?_obj, required?, he]
  | unary n op e, steps + 1, h, hids | preStep n op e, steps + 1, h, hids
  | postStep n op e, steps + 1, h, hids => by
    rw [toJson] at h ⊢
    rw [uses] at hids
    simp only [Note.wrap, depth, depthOfFields] at h
    have he := readExprWithin?_toJson e steps (by omega) hids
    refine readExprWithin?_wrap (by simp) ?_
    rw [readNode?]
    simp [record?_obj, required?, he, readUnaryOp?_tag, readStepOp?_tag]
  | binary n op l r, steps + 1, h, hids | logical n op l r, steps + 1, h, hids
  | opAssign n op l r, steps + 1, h, hids => by
    rw [toJson] at h ⊢
    rw [uses, List.forall_mem_append] at hids
    simp only [Note.wrap, depth, depthOfFields] at h
    have hl := readExprWithin?_toJson l steps (by omega) hids.1
    have hr := readExprWithin?_toJson r steps (by omega) hids.2
    refine readExprWithin?_wrap (by simp) ?_
    rw [readNode?]
    simp [record?_obj, required?, hl, hr, readBinaryOp?_tag, readLogicalOp?_tag]
  | assign n l r, steps + 1, h, hids | index n l r, steps + 1, h, hids => by
    rw [toJson] at h ⊢
    rw [uses, List.forall_mem_append] at hids
    simp only [Note.wrap, depth, depthOfFields] at h
    have hl := readExprWithin?_toJson l steps (by omega) hids.1
    have hr := readExprWithin?_toJson r steps (by omega) hids.2
    refine readExprWithin?_wrap (by simp) ?_
    rw [readNode?]
    simp [record?_obj, required?, hl, hr]
  | cond n c y z, steps + 1, h, hids => by
    rw [toJson] at h ⊢
    rw [uses, List.forall_mem_append, List.forall_mem_append] at hids
    simp only [Note.wrap, depth, depthOfFields] at h
    have hc := readExprWithin?_toJson c steps (by omega) hids.1.1
    have hy := readExprWithin?_toJson y steps (by omega) hids.1.2
    have hz := readExprWithin?_toJson z steps (by omega) hids.2
    refine readExprWithin?_wrap (by simp) ?_
    rw [readNode?]
    simp [record?_obj, required?, hc, hy, hz]
  | member n e name, steps + 1, h, hids | ptrMember n e name, steps + 1, h, hids => by
    rw [toJson] at h ⊢
    rw [uses] at hids
    simp only [Note.wrap, depth, depthOfFields] at h
    have he := readExprWithin?_toJson e steps (by omega) hids
    refine readExprWithin?_wrap (by simp) ?_
    rw [readNode?]
    simp [record?_obj, required?, he, str?]
  | call n f args, steps + 1, h, hids => by
    rw [toJson] at h ⊢
    rw [uses, List.forall_mem_append] at hids
    simp only [Note.wrap, depth, depthOfFields] at h
    have hf := readExprWithin?_toJson f steps (by omega) hids.1
    have hargs := mapM_toJsonAll args steps (by omega) hids.2
    refine readExprWithin?_wrap (by simp) ?_
    rw [readNode?]
    simp [record?_obj, required?, list?, hf, hargs]

/-- Arguments are read back one after another. -/
theorem mapM_toJsonAll : ∀ (es : List Expr) (steps : Nat), depthOfItems (toJsonAll es) < steps →
    (∀ id ∈ usesAll es, id.Fits) → (toJsonAll es).mapM (readExprWithin? steps) = some es
  | [], _, _, _ => rfl
  | e :: es, steps, h, hids => by
    rw [toJsonAll, depthOfItems] at h
    rw [usesAll, List.forall_mem_append] at hids
    have he := readExprWithin?_toJson e steps (by omega) hids.1
    have hes := mapM_toJsonAll es steps (by omega) hids.2
    rw [toJsonAll, List.mapM_cons, he, hes]
    rfl

end

end Expr

theorem readExpr?_toJson {e : Expr} (hids : ∀ id ∈ e.uses, id.Fits) : readExpr? e.toJson = some e :=
  e.readExprWithin?_toJson _ (Nat.lt_succ_self _) hids

theorem list?_readExpr? {es : List Expr} (hids : ∀ id ∈ Expr.usesAll es, id.Fits) :
    list? readExpr? (.arr (Expr.toJsonAll es)) = some es := by
  rw [Expr.toJsonAll_eq_map]
  exact list?_list fun e he => readExpr?_toJson fun id hid => hids id (Expr.uses_of_mem he hid)

theorem optional?_readExpr? {e : Option Expr} (hids : ∀ id ∈ usesOption e, id.Fits) :
    optional? readExpr? (some (Expr.optionToJson e)) = some e := by
  refine optional?_option (fun e => ?_) fun e he => readExpr?_toJson (by rwa [he] at hids)
  cases e <;> rintro ⟨⟩

/-! ## Plain forms -/

theorem Note.isPlain_wrap {note : Note} {node : String} {fields : List (String × Json)} :
    (note.wrap node fields).IsPlain ↔ ∀ f ∈ fields, f.2.IsPlain := by
  simp [Note.wrap]

namespace Expr

mutual

/-- An expression is written plainly if its ids fit. -/
theorem isPlain_toJson : ∀ {e : Expr}, (∀ id ∈ e.uses, id.Fits) → e.toJson.IsPlain
  | int n v, _ => by simp [toJson, Note.isPlain_wrap, inRange_int64]
  | str n v, _ | sizeofType n t, _ => by simp [toJson, Note.isPlain_wrap]
  | var n id, hids => by
    have hid := EntityId.isPlain_toJson (hids id (by simp [uses]))
    simp [toJson, Note.isPlain_wrap, hid]
  | sizeofExpr n e, hids | cast n e, hids | addr n e, hids | deref n e, hids | unary n op e, hids
  | preStep n op e, hids | postStep n op e, hids | member n e name, hids
  | ptrMember n e name, hids => by
    rw [uses] at hids
    simp [toJson, Note.isPlain_wrap, isPlain_toJson hids]
  | binary n op l r, hids | logical n op l r, hids | opAssign n op l r, hids | assign n l r, hids
  | index n l r, hids => by
    rw [uses, List.forall_mem_append] at hids
    simp [toJson, Note.isPlain_wrap, isPlain_toJson hids.1, isPlain_toJson hids.2]
  | cond n c y z, hids => by
    rw [uses, List.forall_mem_append, List.forall_mem_append] at hids
    simp [toJson, Note.isPlain_wrap, isPlain_toJson hids.1.1, isPlain_toJson hids.1.2,
      isPlain_toJson hids.2]
  | call n f args, hids => by
    rw [uses, List.forall_mem_append] at hids
    simpa [toJson, Note.isPlain_wrap, isPlain_toJson hids.1] using isPlain_toJsonAll hids.2

/-- So are arguments. -/
theorem isPlain_toJsonAll : ∀ {es : List Expr}, (∀ id ∈ usesAll es, id.Fits) →
    ∀ j ∈ toJsonAll es, j.IsPlain
  | [], _ => by simp [toJsonAll]
  | e :: es, hids => by
    rw [usesAll, List.forall_mem_append] at hids
    rw [toJsonAll]
    exact List.forall_mem_cons.2 ⟨isPlain_toJson hids.1, isPlain_toJsonAll hids.2⟩

end

theorem isPlain_optionToJson {e : Option Expr} (hids : ∀ id ∈ usesOption e, id.Fits) :
    (optionToJson e).IsPlain :=
  isPlain_option fun e he => isPlain_toJson (by rwa [he] at hids)

end Expr

end Source

end Backend386
