import Backend386.Proofs.Source.ReadExprs

/-!
# Statements that were written are read again

Statements and blocks are written and read as expressions are; a block also names the variables that
it declares.

* `Source.Block.ids` — every entity that is named in a block;
* `Source.readStmtWithin?_toJson`, `Source.readBlock?_toJson` — reading what was written;
* `Source.Block.isPlain_toJson` — the form of a block is plain.
-/

namespace Backend386.Source

open Json

/-! ## Named entities -/

mutual

/-- The entities that a block declares and those that are named in its statements. -/
def Block.ids : Block → List EntityId
  | .mk vars stmts => vars ++ idsOfStmts stmts

/-- The entities that are named in a statement. -/
def Stmt.ids : Stmt → List EntityId
  | .expr _ e => e.uses
  | .block _ b => b.ids
  | .ifThen _ test yes => test.uses ++ yes.ids
  | .ifElse _ test yes no => test.uses ++ yes.ids ++ no.ids
  | .whileLoop _ test body | .doLoop _ body test => test.uses ++ body.ids
  | .forLoop _ init test step body =>
    usesOption init ++ usesOption test ++ usesOption step ++ body.ids
  | .switch _ value cases => value.uses ++ idsOfCases cases
  | .label _ _ body => body.ids
  | .ret _ value => usesOption value
  | .breakOut _ | .continueOn _ | .goto .. => []

/-- The entities that are named in a list of statements. -/
def idsOfStmts : List Stmt → List EntityId
  | [] => []
  | s :: ss => s.ids ++ idsOfStmts ss

/-- The entities that are named in the cases of a switch. -/
def idsOfCases : List Case → List EntityId
  | [] => []
  | .mk values body :: cs => Expr.usesAll values ++ body.ids ++ idsOfCases cs

end

/-! ## Nodes -/

/-- A block is read from its variables and its statements. -/
theorem readBlockWith?_of_fields {read : Json → Option Stmt} {vars stmts : Json}
    {ids : List EntityId} {ss : List Stmt} (hvars : list? readEntityId? vars = some ids)
    (hstmts : list? read stmts = some ss) :
    readBlockWith? read (.obj [("variables", vars), ("stmts", stmts)]) = some (.mk ids ss) := by
  rw [readBlockWith?]
  simp [record?_obj, withDefault?, hvars, hstmts]

/-- A node that is read is read along with its place. -/
theorem readStmtWithin?_wrap {steps : Nat} {place : Option Location} {node : String}
    {fields : List (String × Json)} {s : Stmt} (hnode : "node" ∉ fields.map (·.1))
    (h : readStmtNode? (readStmtWithin? steps) place node (.obj fields) = some s) :
    readStmtWithin? (steps + 1) (wrapStmt place node fields) = some s := by
  have hfields : record? ["kind", "location"] (wrapStmt place node fields) =
      some [some (.obj (("node", .str node) :: fields)), some (Location.optionToJson place)] :=
    record?_obj rfl (by decide)
  have htag : innerTagged? "node" stmtNodes (.obj (("node", .str node) :: fields)) =
      some (node, .obj fields) :=
    taggedBy?_obj rfl hnode
  rw [readStmtWithin?, hfields]
  simp [optional?_location, htag, h]

theorem Stmt.toJson_ne_null (s : Stmt) : s.toJson ≠ null := by
  cases s <;> rintro ⟨⟩

/-! ## Statements and blocks -/

mutual

/-- A statement is read again with any bound above its depth. -/
theorem readStmtWithin?_toJson : ∀ (s : Stmt) (steps : Nat), s.toJson.depth < steps →
    (∀ id ∈ s.ids, id.Fits) → readStmtWithin? steps s.toJson = some s
  | s, 0, h, _ => absurd h (Nat.not_lt_zero _)
  | .expr p e, steps + 1, _, hids => by
    rw [Stmt.ids] at hids
    rw [Stmt.toJson]
    refine readStmtWithin?_wrap (by simp) ?_
    rw [readStmtNode?]
    simp [record?_obj, required?, readExpr?_toJson hids]
  -- what is inside is nested one level less deep, as for expressions
  | .block p b, steps + 1, h, hids => by
    rw [Stmt.ids] at hids
    rw [Stmt.toJson] at h ⊢
    simp only [wrapStmt, depth, depthOfFields] at h
    have hb := readBlockWith?_toJson b steps (by omega) hids
    refine readStmtWithin?_wrap (by simp) ?_
    rw [readStmtNode?]
    simp [record?_obj, required?, hb]
  | .ifThen p c y, steps + 1, h, hids => by
    rw [Stmt.ids, List.forall_mem_append] at hids
    rw [Stmt.toJson] at h ⊢
    simp only [wrapStmt, depth, depthOfFields] at h
    have hy := readStmtWithin?_toJson y steps (by omega) hids.2
    refine readStmtWithin?_wrap (by simp) ?_
    rw [readStmtNode?]
    simp [record?_obj, required?, optional?, readExpr?_toJson hids.1, hy]
  | .ifElse p c y n, steps + 1, h, hids => by
    rw [Stmt.ids, List.forall_mem_append, List.forall_mem_append] at hids
    rw [Stmt.toJson] at h ⊢
    simp only [wrapStmt, depth, depthOfFields] at h
    have hy := readStmtWithin?_toJson y steps (by omega) hids.1.2
    have hn := readStmtWithin?_toJson n steps (by omega) hids.2
    refine readStmtWithin?_wrap (by simp) ?_
    -- the field is absent without an else, so that it has to be told from null
    have hno : optional? (readStmtWithin? steps) (some n.toJson) = some (some n) := by
      rw [optional?_some n.toJson_ne_null, hn, Option.map_some]
    rw [readStmtNode?]
    simp [record?_obj, required?, readExpr?_toJson hids.1.1, hy, hno]
  | .whileLoop p c b, steps + 1, h, hids | .doLoop p b c, steps + 1, h, hids => by
    rw [Stmt.ids, List.forall_mem_append] at hids
    rw [Stmt.toJson] at h ⊢
    simp only [wrapStmt, depth, depthOfFields] at h
    have hb := readStmtWithin?_toJson b steps (by omega) hids.2
    refine readStmtWithin?_wrap (by simp) ?_
    rw [readStmtNode?]
    simp [record?_obj, required?, readExpr?_toJson hids.1, hb]
  | .forLoop p i c s b, steps + 1, h, hids => by
    rw [Stmt.ids, List.forall_mem_append, List.forall_mem_append, List.forall_mem_append] at hids
    rw [Stmt.toJson] at h ⊢
    simp only [wrapStmt, depth, depthOfFields] at h
    have hb := readStmtWithin?_toJson b steps (by omega) hids.2
    refine readStmtWithin?_wrap (by simp) ?_
    rw [readStmtNode?]
    simp [record?_obj, required?, optional?_readExpr? hids.1.1.1, optional?_readExpr? hids.1.1.2,
      optional?_readExpr? hids.1.2, hb]
  | .switch p c cases, steps + 1, h, hids => by
    rw [Stmt.ids, List.forall_mem_append] at hids
    rw [Stmt.toJson] at h ⊢
    simp only [wrapStmt, depth, depthOfFields] at h
    have hcases := mapM_casesToJson cases steps (by omega) hids.2
    refine readStmtWithin?_wrap (by simp) ?_
    rw [readStmtNode?]
    simp [record?_obj, required?, list?, readExpr?_toJson hids.1, hcases]
  | .breakOut p, steps + 1, _, _ | .continueOn p, steps + 1, _, _ => by
    rw [Stmt.toJson]
    refine readStmtWithin?_wrap (by simp) ?_
    rw [readStmtNode?]
    rfl
  | .goto p target, steps + 1, _, _ => by
    rw [Stmt.toJson]
    refine readStmtWithin?_wrap (by simp) ?_
    rw [readStmtNode?]
    simp [record?_obj, required?, str?]
  | .label p name s, steps + 1, h, hids => by
    rw [Stmt.ids] at hids
    rw [Stmt.toJson] at h ⊢
    simp only [wrapStmt, depth, depthOfFields] at h
    have hs := readStmtWithin?_toJson s steps (by omega) hids
    refine readStmtWithin?_wrap (by simp) ?_
    rw [readStmtNode?]
    simp [record?_obj, required?, str?, hs]
  | .ret p e, steps + 1, _, hids => by
    rw [Stmt.ids] at hids
    rw [Stmt.toJson]
    refine readStmtWithin?_wrap (by simp) ?_
    rw [readStmtNode?]
    simp [record?_obj, optional?_readExpr? hids]

/-- A block is read back in more steps than it is deep. -/
theorem readBlockWith?_toJson : ∀ (b : Block) (steps : Nat), b.toJson.depth < steps →
    (∀ id ∈ b.ids, id.Fits) → readBlockWith? (readStmtWithin? steps) b.toJson = some b
  | .mk vars stmts, steps, h, hids => by
    rw [Block.ids, List.forall_mem_append] at hids
    rw [Block.toJson] at h ⊢
    simp only [depth, depthOfFields] at h
    exact readBlockWith?_of_fields (list?_readEntityId? hids.1)
      (mapM_stmtsToJson stmts steps (by omega) hids.2)

/-- So is a list of statements. -/
theorem mapM_stmtsToJson : ∀ (ss : List Stmt) (steps : Nat), depthOfItems (stmtsToJson ss) < steps →
    (∀ id ∈ idsOfStmts ss, id.Fits) → (stmtsToJson ss).mapM (readStmtWithin? steps) = some ss
  | [], _, _, _ => rfl
  | s :: ss, steps, h, hids => by
    rw [idsOfStmts, List.forall_mem_append] at hids
    rw [stmtsToJson, depthOfItems] at h
    have hs := readStmtWithin?_toJson s steps (by omega) hids.1
    have hss := mapM_stmtsToJson ss steps (by omega) hids.2
    rw [stmtsToJson, List.mapM_cons, hs, hss]
    rfl

/-- So are the cases of a switch. -/
theorem mapM_casesToJson : ∀ (cs : List Case) (steps : Nat), depthOfItems (casesToJson cs) < steps →
    (∀ id ∈ idsOfCases cs, id.Fits) →
      (casesToJson cs).mapM (readCaseWith? (readStmtWithin? steps)) = some cs
  | [], _, _, _ => rfl
  | .mk values body :: cs, steps, h, hids => by
    rw [idsOfCases, List.forall_mem_append, List.forall_mem_append] at hids
    simp only [casesToJson, depthOfItems, depth, depthOfFields] at h
    have hbody := readBlockWith?_toJson body steps (by omega) hids.1.2
    have hcs := mapM_casesToJson cs steps (by omega) hids.2
    have hcase : readCaseWith? (readStmtWithin? steps)
        (.obj [("values", .arr (Expr.toJsonAll values)), ("body", body.toJson)]) =
        some (.mk values body) := by
      rw [readCaseWith?]
      simp [record?_obj, required?, withDefault?, list?_readExpr? hids.1.1, hbody]
    rw [casesToJson, List.mapM_cons, hcase, hcs]
    rfl

end

theorem readBlock?_toJson {b : Block} (hids : ∀ id ∈ b.ids, id.Fits) :
    readBlock? b.toJson = some b :=
  readBlockWith?_toJson b _ (Nat.lt_succ_self _) hids

/-! ## Plain forms -/

theorem isPlain_wrapStmt {place : Option Location} {node : String} {fields : List (String × Json)} :
    (wrapStmt place node fields).IsPlain ↔ ∀ f ∈ fields, f.2.IsPlain := by
  simp [wrapStmt]

mutual

/-- A statement is written plainly if its ids fit. -/
theorem Stmt.isPlain_toJson : ∀ {s : Stmt}, (∀ id ∈ s.ids, id.Fits) → s.toJson.IsPlain
  -- no field of a statement is dropped when it is written, as none is null but those of options
  | .expr p e, hids => by
    rw [Stmt.ids] at hids
    simp [Stmt.toJson, isPlain_wrapStmt, Expr.isPlain_toJson hids]
  | .block p b, hids => by
    rw [Stmt.ids] at hids
    simp [Stmt.toJson, isPlain_wrapStmt, Block.isPlain_toJson hids]
  | .ifThen p c y, hids | .whileLoop p c y, hids | .doLoop p y c, hids => by
    rw [Stmt.ids, List.forall_mem_append] at hids
    simp [Stmt.toJson, isPlain_wrapStmt, Expr.isPlain_toJson hids.1, Stmt.isPlain_toJson hids.2]
  | .ifElse p c y n, hids => by
    rw [Stmt.ids, List.forall_mem_append, List.forall_mem_append] at hids
    simp [Stmt.toJson, isPlain_wrapStmt, Expr.isPlain_toJson hids.1.1,
      Stmt.isPlain_toJson hids.1.2, Stmt.isPlain_toJson hids.2]
  | .forLoop p i c s b, hids => by
    rw [Stmt.ids, List.forall_mem_append, List.forall_mem_append, List.forall_mem_append] at hids
    simp [Stmt.toJson, isPlain_wrapStmt, Expr.isPlain_optionToJson hids.1.1.1,
      Expr.isPlain_optionToJson hids.1.1.2, Expr.isPlain_optionToJson hids.1.2,
      Stmt.isPlain_toJson hids.2]
  | .switch p c cases, hids => by
    rw [Stmt.ids, List.forall_mem_append] at hids
    simpa [Stmt.toJson, isPlain_wrapStmt, Expr.isPlain_toJson hids.1]
      using isPlain_casesToJson hids.2
  | .breakOut p, _ | .continueOn p, _ | .goto p target, _ => by
    simp [Stmt.toJson, isPlain_wrapStmt]
  | .label p name s, hids => by
    rw [Stmt.ids] at hids
    simp [Stmt.toJson, isPlain_wrapStmt, Stmt.isPlain_toJson hids]
  | .ret p e, hids => by
    rw [Stmt.ids] at hids
    simp [Stmt.toJson, isPlain_wrapStmt, Expr.isPlain_optionToJson hids]

/-- So is a block. -/
theorem Block.isPlain_toJson : ∀ {b : Block}, (∀ id ∈ b.ids, id.Fits) → b.toJson.IsPlain
  | .mk vars stmts, hids => by
    rw [Block.ids, List.forall_mem_append] at hids
    have hvars : (list EntityId.toJson vars).IsPlain :=
      isPlain_list fun id hid => EntityId.isPlain_toJson (hids.1 id hid)
    simpa [Block.toJson, hvars] using isPlain_stmtsToJson hids.2

/-- So is a list of statements. -/
theorem isPlain_stmtsToJson : ∀ {ss : List Stmt}, (∀ id ∈ idsOfStmts ss, id.Fits) →
    ∀ j ∈ stmtsToJson ss, j.IsPlain
  | [], _ => by simp [stmtsToJson]
  | s :: ss, hids => by
    rw [idsOfStmts, List.forall_mem_append] at hids
    rw [stmtsToJson]
    exact List.forall_mem_cons.2 ⟨Stmt.isPlain_toJson hids.1, isPlain_stmtsToJson hids.2⟩

/-- So are the cases of a switch. -/
theorem isPlain_casesToJson : ∀ {cs : List Case}, (∀ id ∈ idsOfCases cs, id.Fits) →
    ∀ j ∈ casesToJson cs, j.IsPlain
  | [], _ => by simp [casesToJson]
  | .mk values body :: cs, hids => by
    rw [idsOfCases, List.forall_mem_append, List.forall_mem_append] at hids
    rw [casesToJson]
    refine List.forall_mem_cons.2 ⟨?_, isPlain_casesToJson hids.2⟩
    simpa [Block.isPlain_toJson hids.1.2] using Expr.isPlain_toJsonAll hids.1.1

end

end Backend386.Source
