import Backend386.Proofs.Lowering.UnitRuns
import Backend386.Proofs.Source.ReadUnits

/-!
# How deep the types of temporaries are nested

In the form of a unit an expression stands deeper than the entity that holds it, and deeper than an
expression or a block stands whatever is part of it. A temporary has the type of an expression that
is lowered, or of a pointer to it, or it points to anything. So the form of a temporary is never
nested deeper than that of the entity whose expressions were lowered.

* `Source.Expr.depth_operand_lt`, `Source.Block.depth_expr_lt`, `Entity.depth_expr` — the parts of
  expressions, blocks and entities;
* `EntityTable.Shallow` — entities whose forms are nested up to a depth;
* `Source.Part.upTo` — the expressions that are nested up to a depth;
* `Lower.UnitSteps.shallow` — the lowering keeps the entities shallow.
-/

namespace Backend386

/-- What an entity is stands one level deeper than the entity. -/
theorem Entity.depth_kind_lt (e : Entity) : e.kind.toJson.depth < e.inputJson.depth := by
  simp only [inputJson, Json.depth, Json.depthOfFields]
  omega

/-- The value of a constant stands inside of its entity. -/
theorem Entity.depth_constantValue {e : Entity} {value : Source.Expr}
    (h : e.constantValue? = some value) : value.toJson.depth + 2 ≤ e.inputJson.depth := by
  have hkind := e.depth_kind_lt
  unfold constantValue? at h
  split at h
  · next hconstant =>
    obtain rfl := Option.some.inj h
    simp only [hconstant, EntityKind.toJson, Json.depth, Json.depthOfFields] at hkind
    omega
  · cases h

/-- So does an initializer. -/
theorem Entity.depth_initializer {e : Entity} {init : Source.Expr}
    (h : e.initializer? = some init) :
    init.toJson.depth + 2 ≤ e.inputJson.depth := by
  have hkind := e.depth_kind_lt
  unfold initializer? at h
  split at h
  · next hvariable =>
    subst h
    simp only [hvariable, EntityKind.toJson, Source.Expr.optionToJson, Json.option, Json.depth,
      Json.depthOfFields] at hkind
    omega
  · cases h

theorem Entity.depth_body {e : Entity} {params : List EntityId} {body : Source.Block}
    (h : e.kind = .definedFunction params body) : body.toJson.depth + 2 ≤ e.inputJson.depth := by
  have hkind := e.depth_kind_lt
  simp only [h, EntityKind.toJson, Json.depth, Json.depthOfFields] at hkind
  omega

namespace Source

theorem Expr.depth_type_lt (e : Expr) : e.type.toJson.depth < e.toJson.depth := by
  cases e <;>
  · simp only [Expr.type, Expr.note, Expr.toJson, Note.wrap, Json.depth, Json.depthOfFields]
    omega

theorem Expr.depth_le_of_mem {e : Expr} {es : List Expr} (h : e ∈ es) :
    e.toJson.depth ≤ Json.depthOfItems (toJsonAll es) := by
  rw [toJsonAll_eq_map]
  exact Json.depthOfItems_le_iff.1 le_rfl _ (List.mem_map_of_mem h)

/-- An expression that may be absent stands as deep as one that has to be there. -/
theorem Expr.depth_of_mem_toList {e : Option Expr} {x : Expr} (h : x ∈ e.toList) :
    (optionToJson e).depth = x.toJson.depth := by
  rw [Option.mem_toList.1 h]
  rfl

/-- An operand stands inside of its expression. -/
theorem Expr.depth_operand_lt {e x : Expr} (h : x ∈ e.operands) :
    x.toJson.depth < e.toJson.depth := by
  cases e with
  | call n callee args =>
    simp only [Expr.toJson, Note.wrap, Json.depth, Json.depthOfFields]
    rw [operands] at h
    obtain rfl | h := List.mem_cons.1 h
    · omega
    · have hle := depth_le_of_mem h
      omega
  | _ =>
    simp only [operands, List.mem_cons, List.not_mem_nil, or_false] at h
    all_goals
      rcases h with rfl | rfl | rfl
      all_goals
        simp only [Expr.toJson, Note.wrap, Json.depth, Json.depthOfFields]
        omega

mutual

/-- The expressions of a block stand deeper than the block. -/
theorem Block.depth_expr_lt : ∀ {b : Block} {e : Expr}, e ∈ b.exprs →
    e.toJson.depth < b.toJson.depth
  | .mk vars stmts, e, h => by
    have he : e.toJson.depth < Json.depthOfItems (stmtsToJson stmts) := depth_exprOfStmts_lt h
    simp only [Block.toJson, Json.depth, Json.depthOfFields]
    omega

/-- An expression stands inside of its statement. -/
theorem Stmt.depth_expr_lt : ∀ {s : Stmt} {e : Expr}, e ∈ s.exprs → e.toJson.depth < s.toJson.depth
  -- an expression stands right in the statement, or in one of its parts
  | .expr p x, e, h => by
    simp only [Stmt.exprs, List.mem_singleton] at h
    subst h
    simp only [Stmt.toJson, wrapStmt, Json.depth, Json.depthOfFields]
    omega
  | .block p b, e, h => by
    have he := Block.depth_expr_lt (b := b) h
    simp only [Stmt.toJson, wrapStmt, Json.depth, Json.depthOfFields]
    omega
  | .ifThen p c y, e, h | .whileLoop p c y, e, h | .doLoop p y c, e, h => by
    simp only [Stmt.toJson, wrapStmt, Json.depth, Json.depthOfFields]
    rw [Stmt.exprs] at h
    obtain rfl | h := List.mem_cons.1 h
    · omega
    · have he := Stmt.depth_expr_lt (s := y) h
      omega
  | .ifElse p c y n, e, h => by
    simp only [Stmt.toJson, wrapStmt, Json.depth, Json.depthOfFields]
    rw [Stmt.exprs, List.mem_cons, List.mem_append] at h
    obtain rfl | h | h := h
    · omega
    · have he := Stmt.depth_expr_lt (s := y) h
      omega
    · have he := Stmt.depth_expr_lt (s := n) h
      omega
  | .forLoop p i c s b, e, h => by
    simp only [Stmt.toJson, wrapStmt, Json.depth, Json.depthOfFields]
    rw [Stmt.exprs, List.mem_append, List.mem_append, List.mem_append] at h
    obtain ((h | h) | h) | h := h
    · have he := Expr.depth_of_mem_toList h
      omega
    · have he := Expr.depth_of_mem_toList h
      omega
    · have he := Expr.depth_of_mem_toList h
      omega
    · have he := Stmt.depth_expr_lt (s := b) h
      omega
  | .switch p c cases, e, h => by
    simp only [Stmt.toJson, wrapStmt, Json.depth, Json.depthOfFields]
    rw [Stmt.exprs] at h
    obtain rfl | h := List.mem_cons.1 h
    · omega
    · have he : e.toJson.depth < Json.depthOfItems (casesToJson cases) := depth_exprOfCases_lt h
      omega
  | .label p name s, e, h => by
    have he := Stmt.depth_expr_lt (s := s) h
    simp only [Stmt.toJson, wrapStmt, Json.depth, Json.depthOfFields]
    omega
  | .ret p value, e, h => by
    have he := Expr.depth_of_mem_toList (by rwa [Stmt.exprs] at h)
    simp only [Stmt.toJson, wrapStmt, Json.depth, Json.depthOfFields]
    omega
  | .breakOut p, e, h | .continueOn p, e, h | .goto p target, e, h => by
    rw [Stmt.exprs] at h
    cases h

/-- The same for a list of statements. -/
theorem depth_exprOfStmts_lt : ∀ {ss : List Stmt} {e : Expr}, e ∈ exprsOfStmts ss →
    e.toJson.depth < Json.depthOfItems (stmtsToJson ss)
  | [], e, h => by
    rw [exprsOfStmts] at h
    cases h
  | s :: ss, e, h => by
    rw [exprsOfStmts, List.mem_append] at h
    rw [stmtsToJson, Json.depthOfItems]
    obtain h | h := h
    · have he := Stmt.depth_expr_lt h
      omega
    · have he := depth_exprOfStmts_lt h
      omega

/-- The same for the cases of a switch. -/
theorem depth_exprOfCases_lt : ∀ {cs : List Case} {e : Expr}, e ∈ exprsOfCases cs →
    e.toJson.depth < Json.depthOfItems (casesToJson cs)
  | [], e, h => by
    rw [exprsOfCases] at h
    cases h
  | .mk values body :: cs, e, h => by
    rw [exprsOfCases, List.mem_append, List.mem_append] at h
    simp only [casesToJson, Json.depthOfItems, Json.depth, Json.depthOfFields]
    obtain (h | h) | h := h
    · have he := Expr.depth_le_of_mem h
      omega
    · have he := Block.depth_expr_lt h
      omega
    · have he := depth_exprOfCases_lt h
      omega

end

end Source

/-- What is read of the form of every entity is nested up to a depth. -/
def EntityTable.Shallow (t : EntityTable) (depth : Nat) : Prop :=
  ∀ e ∈ t.entries, e.inputJson.depth ≤ depth

namespace Source

/-- A type stands deeper than an expression that mentions it. -/
theorem Expr.depth_ref_lt {e : Expr} {ref : TypeRef} (h : ref ∈ e.refs) :
    ref.toJson.depth < e.toJson.depth := by
  have htype := e.depth_type_lt
  cases e with
  | sizeofType n t =>
    obtain rfl | rfl : ref = n.type ∨ ref = t := by simpa [Expr.refs] using h
    · exact htype
    · simp only [Expr.toJson, Note.wrap, Json.depth, Json.depthOfFields]
      omega
  | sizeofExpr n x =>
    obtain rfl | rfl : ref = n.type ∨ ref = x.type := by simpa [Expr.refs] using h
    · exact htype
    · have hoperand := x.depth_type_lt
      simp only [Expr.toJson, Note.wrap, Json.depth, Json.depthOfFields]
      omega
  | _ => exact List.mem_singleton.1 h ▸ htype

/-- The expressions that are nested up to a depth. -/
def Part.upTo (depth : Nat) : Part where
  exprs e := e.toJson.depth ≤ depth
  vars _ := True
  switches _ := True

end Source

/-- An entity is nested two levels deeper than the expressions that it holds. -/
theorem Entity.depth_expr {e : Entity} {x : Source.Expr} (h : x ∈ e.exprs) :
    x.toJson.depth + 2 ≤ e.inputJson.depth := by
  unfold exprs at h
  cases hkind : e.kind with
  | definedVariable init =>
    rw [hkind] at h
    exact e.depth_initializer (by rw [initializer?, hkind, Option.mem_toList.1 h])
  | constant value =>
    rw [hkind] at h
    exact e.depth_constantValue (by rw [constantValue?, hkind, List.mem_singleton.1 h])
  | definedFunction params body =>
    rw [hkind] at h
    have hdepth := e.depth_body hkind
    have hlt := body.depth_expr_lt h
    omega
  | undefinedVariable | undefinedFunction | parameter =>
    rw [hkind] at h
    cases h

/-- The expressions of a table are no deeper than its entities. -/
theorem EntityTable.Shallow.covers {t : EntityTable} {d : Nat} (h : t.Shallow (d + 3)) :
    (Source.Part.upTo (d + 1)).Covers t where
  operand := fun he ho => (Source.Expr.depth_operand_lt ho).le.trans he
  defined := fun he hx => by
    have hdepth := Entity.depth_expr hx
    have hle := h _ (mem_of_get he)
    change _ ≤ d + 1
    omega
  vars := fun _ => trivial

namespace Lower

open Source (Part)

variable {s s' : LowerState} {d : Nat}

/-- An expression is nested one level deeper than its type, and so is a pointer. -/
theorem Walk.Carries.depth_le {ref : TypeRef} (h : (Walk.along (.upTo (d + 1))).Carries ref) :
    ref.toJson.depth ≤ d + 1 := by
  have hbase {ref} (h : (Walk.along (.upTo (d + 1))).IsBase ref) : ref.toJson.depth ≤ d := by
    obtain ⟨e, he, href⟩ | rfl := h
    · exact Nat.le_of_lt_succ ((Source.Expr.depth_ref_lt href).trans_le he)
    · exact Nat.zero_le d
  obtain h | ⟨base, h, rfl⟩ := h
  · exact (hbase h).trans d.le_succ
  · have hdepth := hbase h
    rw [TypeRef.toJson, Json.variant]
    simp only [Json.depth, Json.depthOfFields]
    omega

/-- No step of the lowering makes entities deeper. -/
theorem UnitStep.shallow (h : UnitStep (.along (.upTo (d + 1))) s s')
    (hs : s.entities.Shallow (d + 3)) : s'.entities.Shallow (d + 3) := by
  cases h with
  | inner h =>
    cases h with
    | temporary _ hc =>
      have hdepth := (hc trivial).depth_le
      intro e he
      obtain he | he := List.mem_append.1 he
      · exact hs e he
      · obtain rfl := List.mem_singleton.1 he
        simp only [Entity.inputJson, EntityKind.toJson, Location.optionToJson,
          Source.Expr.optionToJson, Json.option, Json.depth, Json.depthOfFields]
        omega
    | _ => exact hs
  | start => exact hs
  | @number id e sequence he =>
    -- the number of a static variable is not written
    intro e' he'
    obtain he' | rfl := List.mem_or_eq_of_mem_set he'
    · exact hs e' he'
    · exact hs e (EntityTable.mem_of_get he)

/-- The forms of the entities are nested no deeper than before. -/
theorem UnitSteps.shallow (h : UnitSteps (.along (.upTo (d + 1))) s s')
    (hs : s.entities.Shallow (d + 3)) : s'.entities.Shallow (d + 3) := by
  induction h with
  | refl => exact hs
  | tail _ h ih => exact h.shallow ih

end Lower

end Backend386
