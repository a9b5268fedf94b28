import Backend386.Proofs.I386.StackDepth
import Backend386.Proofs.I386.Symbols
import Backend386.Proofs.Ir.Step

/-!
# Jumps stay inside their function

A jump in the code of a function leads to a label of its body or to its epilogue. The labels of a
function are checked before its code is generated, and only jumps are dropped, so the code has the
label that is jumped to.

* `Item.isJump`, `Item.target?` — jumps, conditional or not, and where they lead;
* `Ir.Stmt.Gives` — what the code of a statement may consist of;
* `Listing.JumpsInside` — every jump leads to a label of the same listing;
* `Placement.jumpsInside_functionCode` — the code of a function is such a listing.
-/

namespace Backend386

/-- A jump, conditional or not. -/
def Item.isJump : Item → Bool
  | inst (.jmp _) | inst (.jcc ..) => true
  | _ => false

/-- A label or a directive. -/
def Item.isData : Item → Bool
  | label _ | directive _ => true
  | _ => false

/-- An instruction that is no jump, or a comment. -/
structure Item.IsStraight (i : Item) : Prop where
  plain : i.isPlain = true
  not_joint : i.isJoint = false

/-- Every jump leads to a label of the same listing. -/
def Listing.JumpsInside (code : Listing) : Prop :=
  ∀ i ∈ code, i.isJump = true → ∃ l ∈ code.labels, i.target? = some l

/-- What the code of a statement may consist of: straight code, the label that it places, and jumps
to its targets or to the epilogue. -/
inductive Ir.Stmt.Gives (s : Ir.Stmt) (epilogue : Ir.Label) : Item → Prop where
  | straight {i : Item} (h : i.IsStraight) : Gives s epilogue i
  | label {l : Ir.Label} (h : s.placed? = some l) : Gives s epilogue (.label l.render)
  | jump {i : Instruction} {l : Ir.Label} (h : Item.target? (.inst i) = some l.render)
    (hl : l = epilogue ∨ l ∈ s.targets) : Gives s epilogue (.inst i)

/-- What goes straight on does not jump. -/
theorem Item.IsStraight.not_isJump {i : Item} (h : i.IsStraight) : i.isJump = false := by
  cases i with
  | inst i =>
    cases i with
    | jmp | jcc => cases h.not_joint
    | _ => rfl
  | _ => rfl

theorem Item.not_isJump_of_isData {i : Item} (h : i.isData = true) : i.isJump = false := by
  cases i with
  | inst i => cases h
  | _ => rfl

/-- Jumps are dropped, and nothing is added. -/
theorem dropJumps_sublist (epilogue : String) (code : Listing) :
    (dropJumps epilogue code).Sublist code := by
  induction code with
  | nil => exact .slnil
  | cons i code ih =>
    rw [dropJumps]
    split
    · exact ih.cons i
    · exact ih.cons_cons i

namespace Placement

variable {p p' : Placement} {options : AssemblyOptions} {epilogue : Ir.Label} {code : Listing}

/-! ## Statements -/

theorem straight_of_stacked {m k : Nat} (hplain : code.Plain) (h : Listing.Stacked m k code) :
    ∀ i ∈ code, i.IsStraight :=
  fun i hi => ⟨hplain i hi, h.not_joint i hi⟩

theorem straight_valueCode {e : Ir.Expr} (h : p.valueCode e = .ok code) :
    ∀ i ∈ code, i.IsStraight :=
  straight_of_stacked ((exprCode_plain e).1 code h) ((exprCode_stacked e).1 code h)

/-- A store is code that goes straight on. -/
theorem straight_storeCode {target value : Ir.Expr} (h : p.storeCode target value = .ok code) :
    ∀ i ∈ code, i.IsStraight := by
  obtain ⟨m?, -, h⟩ := bind_eq_ok_iff.1 h
  cases m? with
  | some m =>
    obtain ⟨cv, hcv, h⟩ := bind_eq_ok_iff.1 h
    obtain ⟨_, -, h⟩ := bind_eq_ok_iff.1 h
    cases h
    exact List.forall_mem_append.2 ⟨straight_valueCode hcv, List.forall_mem_singleton.2 ⟨rfl, rfl⟩⟩
  | none =>
    obtain ⟨cv, hcv, h⟩ := bind_eq_ok_iff.1 h
    obtain ⟨⟨ca, m⟩, hca, h⟩ := bind_eq_ok_iff.1 h
    obtain ⟨cx, -, h⟩ := bind_eq_ok_iff.1 h
    cases h
    have haddress := straight_of_stacked ((exprCode_plain target).2 ca m hca)
      ((exprCode_stacked target).2 ca m hca)
    simp only [List.forall_mem_append, List.forall_mem_cons]
    exact ⟨⟨⟨straight_valueCode hcv, ⟨rfl, rfl⟩, by simp⟩, haddress⟩, ⟨rfl, rfl⟩, ⟨rfl, rfl⟩,
      by simp⟩

/-- The code of a statement is straight but for its label and its jumps. -/
theorem gives_stmtCode {s : Ir.Stmt} (h : p.stmtCode options epilogue s = .ok code) :
    ∀ i ∈ code, s.Gives epilogue i := by
  obtain ⟨ca, hca, h⟩ := bind_eq_ok_iff.1 h
  cases h
  refine List.forall_mem_append.2 ⟨fun i hi => .straight ?_, ?_⟩
  · exact straight_of_stacked comment_plain (.quiet (m := 0) comment_quiet) i hi
  · obtain ⟨action, location⟩ := s
    -- one case per kind of statement: only labels, jumps, branches and returns are more than
    -- straight code
    cases action with
    | eval e => exact fun i hi => .straight (straight_valueCode hca i hi)
    | assign => exact fun i hi => .straight (straight_storeCode hca i hi)
    | label l =>
      cases hca
      exact List.forall_mem_singleton.2 (.label rfl)
    | jump l =>
      cases hca
      exact List.forall_mem_singleton.2 (.jump rfl (.inr (List.mem_singleton.2 rfl)))
    | branch test yes no =>
      obtain ⟨⟨ct, c⟩, hct, h⟩ := bind_eq_ok_iff.1 hca
      cases h
      refine List.forall_mem_append.2 ⟨fun i hi => .straight ?_, ?_⟩
      · exact straight_of_stacked (testCode_plain hct) (testCode_stacked hct) i hi
      · simp only [List.forall_mem_cons]
        exact ⟨.jump rfl (.inr (by simp [Ir.Stmt.targets])),
          .jump rfl (.inr (by simp [Ir.Stmt.targets])), by simp⟩
    | ret e =>
      cases e with
      | none =>
        cases hca
        exact List.forall_mem_singleton.2 (.jump rfl (.inl rfl))
      | some e =>
        obtain ⟨ce, hce, h⟩ := bind_eq_ok_iff.1 hca
        cases h
        exact List.forall_mem_append.2 ⟨fun i hi => .straight (straight_valueCode hce i hi),
          List.forall_mem_singleton.2 (.jump rfl (.inl rfl))⟩

/-- Each item of a body comes from one of its statements. -/
theorem gives_bodyCode {body : List Ir.Stmt} (h : p.bodyCode options epilogue body = .ok code) :
    ∀ i ∈ code, ∃ s ∈ body, s.Gives epilogue i := by
  induction body generalizing code with
  | nil =>
    cases h
    exact List.forall_mem_nil _
  | cons s body ih =>
    obtain ⟨cs, hcs, h⟩ := bind_eq_ok_iff.1 h
    obtain ⟨cb, hcb, h⟩ := bind_eq_ok_iff.1 h
    cases h
    refine List.forall_mem_append.2 ⟨fun i hi => ?_, fun i hi => ?_⟩
    · exact ⟨s, List.mem_cons_self, gives_stmtCode hcs i hi⟩
    · obtain ⟨s', hs', hgives⟩ := ih hcb i hi
      exact ⟨s', List.mem_cons_of_mem _ hs', hgives⟩

/-! ## Functions -/

/-- The parts of the code of a function. -/
structure FunctionParts (p' : Placement) (options : AssemblyOptions) (epilogue : Ir.Label)
    (f : Ir.Function) (e : Entity) (code : Listing) where
  frame : Nat
  body : Listing
  checked : f.labelProblem? = none
  bodyCode : p'.bodyCode options epilogue f.body.toList = .ok body
  code_eq : code = [.directive .text] ++
    (if e.isPrivate then [] else [.directive (.globalSymbol e.symbol)]) ++
    [.directive (.type e.symbol .function), .label e.symbol] ++ prologue frame ++
    dropJumps epilogue.render body ++ epilogueCode epilogue ++
    [.directive (.size e.symbol (".-" ++ e.symbol))]

/-- The code of a function consists of its prologue, its body and its epilogue. -/
theorem functionParts {types : TypeTable} {f : Ir.Function}
    (h : p.functionCode types options epilogue f = .ok (p', code)) :
    Places p p' ∧ ∃ e, p.entities.get f.entity = .ok e ∧
      Nonempty (FunctionParts p' options epilogue f e code) := by
  refine ⟨(symbols_functionCode h).1, ?_⟩
  obtain ⟨e, he, h⟩ := bind_eq_ok_iff.1 h
  dsimp only at h
  split at h
  · cases h
  next hchecked =>
  obtain ⟨frame, -, h⟩ := bind_eq_ok_iff.1 h
  obtain ⟨t, -, h⟩ := bind_eq_ok_iff.1 h
  obtain ⟨body, hbody, h⟩ := bind_eq_ok_iff.1 h
  obtain ⟨rfl, rfl⟩ := Prod.mk.inj (Except.ok.inj h)
  exact ⟨e, he, ⟨frame.size, body, Option.eq_none_iff_forall_ne_some.2 fun l hl => hchecked l hl,
    hbody, rfl⟩⟩

/-- Nothing in the prologue jumps. -/
theorem straight_prologue (frame : Nat) : ∀ i ∈ prologue frame, i.IsStraight := by
  unfold prologue
  refine List.forall_mem_append.2 ⟨?_, ?_⟩
  · simp only [List.forall_mem_cons]
    exact ⟨⟨rfl, rfl⟩, ⟨rfl, rfl⟩, List.forall_mem_nil _⟩
  · split
    · exact List.forall_mem_singleton.2 ⟨rfl, rfl⟩
    · exact List.forall_mem_nil _

namespace FunctionParts

variable {f : Ir.Function} {e : Entity}

/-- The code of a function places its name, the labels of its body and that of its epilogue. -/
theorem labels (h : FunctionParts p' options epilogue f e code) :
    code.labels = e.symbol :: (f.placedLabels ++ [epilogue]).map (·.render) := by
  have hprologue : Listing.labels (prologue h.frame) = [] :=
    Listing.Plain.labels fun i hi => (straight_prologue _ i hi).plain
  have hglobal : Listing.labels
      (if e.isPrivate then [] else [.directive (.globalSymbol e.symbol)]) = [] := by
    split <;> rfl
  rw [h.code_eq]
  simp only [Listing.labels_append, hprologue, hglobal, labels_dropJumps,
    labels_bodyCode h.bodyCode, List.map_append]
  simp [Listing.labels, epilogueCode, Ir.Function.placedLabels, Item.mov]

/-- Whatever jumps is in the body. -/
theorem mem_body (h : FunctionParts p' options epilogue f e code) {i : Item} (hi : i ∈ code)
    (hjump : i.isJump = true) : i ∈ h.body := by
  rw [h.code_eq] at hi
  simp only [List.mem_append] at hi
  have hnot {c : Listing} (hc : ∀ i ∈ c, i.isJump = false) (hi : i ∈ c) : False := by
    rw [hc i hi] at hjump
    cases hjump
  rcases hi with (((((hi | hi) | hi) | hi) | hi) | hi) | hi
  · exact (hnot (by decide) hi).elim
  · exact (hnot (by split <;> simp [Item.isJump]) hi).elim
  · exact (hnot (by simp [Item.isJump]) hi).elim
  · exact (hnot (fun i hi => (straight_prologue _ i hi).not_isJump) hi).elim
  · exact (dropJumps_sublist ..).mem hi
  · exact (hnot (by simp [epilogueCode, Item.isJump, Item.mov]) hi).elim
  · exact (hnot (by simp [Item.isJump]) hi).elim

end FunctionParts

/-- Every jump of a function leads to a label of the function. -/
theorem jumpsInside_functionCode {types : TypeTable} {f : Ir.Function}
    (h : p.functionCode types options epilogue f = .ok (p', code)) : code.JumpsInside := by
  obtain ⟨-, e, -, ⟨parts⟩⟩ := functionParts h
  intro i hi hjump
  obtain ⟨s, hs, hgives⟩ := gives_bodyCode parts.bodyCode i (parts.mem_body hi hjump)
  cases hgives with
  | straight hstraight =>
    rw [hstraight.not_isJump] at hjump
    cases hjump
  | label => cases hjump
  | @jump _ l htarget hl =>
    refine ⟨l.render, ?_, htarget⟩
    rw [parts.labels]
    refine List.mem_cons_of_mem _ (List.mem_map_of_mem (List.mem_append.2 ?_))
    rcases hl with rfl | hl
    · exact .inr (List.mem_singleton.2 rfl)
    · -- the check has found the label in the body
      exact .inl ((Ir.Function.labelProblem?_eq_none_iff.1 parts.checked).2 l
        (List.mem_flatMap.2 ⟨s, hs, hl⟩))

/-- The code of functions is the code of each, one after another. -/
theorem functionsCode_eq_flatten {types : TypeTable} {labels : Ir.LabelSupply}
    {fs : List Ir.Function} (h : p.functionsCode types options labels fs = .ok code) :
    ∃ parts : List Listing, code = parts.flatten ∧ List.Forall₂ (fun f part =>
      ∃ before after epilogue, functionCode before types options epilogue f = .ok (after, part))
      fs parts := by
  induction fs generalizing p labels code with
  | nil =>
    obtain rfl := Except.ok.inj h
    exact ⟨[], rfl, .nil⟩
  | cons f fs ih =>
    obtain ⟨⟨p₁, cf⟩, hf, h⟩ := bind_eq_ok_iff.1 h
    obtain ⟨rest, hrest, h⟩ := bind_eq_ok_iff.1 h
    obtain rfl := Except.ok.inj h
    obtain ⟨parts, rfl, hparts⟩ := ih hrest
    exact ⟨cf :: parts, rfl, .cons ⟨p, p₁, _, hf⟩ hparts⟩

/-! ## Data -/

/-- What holds of the items of each part holds of those of the whole. -/
theorem forall_mem_of_mapM {α : Type} {f : α → Except Fault Listing} {l : List α}
    {parts : List Listing} {P : Item → Prop} (h : l.mapM f = .ok parts)
    (hf : ∀ a part, f a = .ok part → ∀ i ∈ part, P i) : ∀ i ∈ parts.flatten, P i := by
  intro i hi
  obtain ⟨part, hpart, hi⟩ := List.mem_flatten.1 hi
  obtain ⟨a, -, ha⟩ := (mapM_eq_ok h).2 part hpart
  exact hf a part ha i hi

/-- Variables are made of directives only. -/
theorem isData_variableData {types : TypeTable} {vars : List Ir.StaticVariable}
    (h : p.variableData types vars = .ok code) : ∀ i ∈ code, i.isData = true := by
  obtain ⟨first, hfirst, h⟩ := bind_eq_ok_iff.1 h
  obtain ⟨second, hsecond, h⟩ := bind_eq_ok_iff.1 h
  obtain rfl := Except.ok.inj h
  refine List.forall_mem_append.2 ⟨List.forall_mem_append.2 ⟨?_, ?_⟩, ?_⟩
  · split <;> simp [Item.isData]
  · refine forall_mem_of_mapM hfirst fun v part hv => ?_
    obtain ⟨e, -, hv⟩ := bind_eq_ok_iff.1 hv
    obtain ⟨type, -, hv⟩ := bind_eq_ok_iff.1 hv
    obtain ⟨size, -, hv⟩ := bind_eq_ok_iff.1 hv
    obtain ⟨alignment, -, hv⟩ := bind_eq_ok_iff.1 hv
    obtain ⟨value, -, hv⟩ := bind_eq_ok_iff.1 hv
    obtain rfl := Except.ok.inj hv
    split <;> simp [Item.isData]
  · refine forall_mem_of_mapM hsecond fun v part hv => ?_
    obtain ⟨e, -, hv⟩ := bind_eq_ok_iff.1 hv
    obtain ⟨type, -, hv⟩ := bind_eq_ok_iff.1 hv
    obtain ⟨size, -, hv⟩ := bind_eq_ok_iff.1 hv
    obtain ⟨alignment, -, hv⟩ := bind_eq_ok_iff.1 hv
    obtain rfl := Except.ok.inj hv
    split <;> simp [Item.isData]

/-- So are string literals. -/
theorem isData_stringData (h : p.stringData = .ok code) : ∀ i ∈ code, i.isData = true := by
  obtain ⟨literals, hliterals, h⟩ := bind_eq_ok_iff.1 h
  obtain rfl := Except.ok.inj h
  refine List.forall_mem_append.2 ⟨?_, forall_mem_of_mapM hliterals fun entry part hentry => ?_⟩
  · split <;> simp [Item.isData]
  · obtain ⟨memory, -, hentry⟩ := bind_eq_ok_iff.1 hentry
    obtain rfl := Except.ok.inj hentry
    simp [Item.isData]

end Placement

theorem isData_fileCode (options : AssemblyOptions) : ∀ i ∈ fileCode options, i.isData = true := by
  unfold fileCode
  split <;> simp [Item.isData]

/-- The listing of a module is its data, where nothing jumps, and the code of its functions, each
with the labels that it jumps to. -/
theorem Ir.Module.assemble_jumpsInside {m : Ir.Module} {types : TypeTable}
    {options : AssemblyOptions} {code : Listing} (h : m.assemble types options = .ok code) :
    ∃ (data : Listing) (parts : List Listing), code = data ++ parts.flatten ∧
      (∀ i ∈ data, i.isJump = false) ∧ List.Forall₂ (fun f part => (∃ before after epilogue,
        Placement.functionCode before types options epilogue f = .ok (after, part)) ∧
        part.JumpsInside) m.functions parts := by
  obtain ⟨p, vars, strings, functions, -, hvars, hstrings, hfunctions, rfl⟩ := assemble_eq_ok h
  obtain ⟨parts, rfl, hparts⟩ := Placement.functionsCode_eq_flatten hfunctions
  refine ⟨fileCode options ++ vars ++ strings, parts, rfl, ?_, hparts.imp ?_⟩
  · refine fun i hi => Item.not_isJump_of_isData ?_
    rcases List.mem_append.1 hi with hi | hi
    · rcases List.mem_append.1 hi with hi | hi
      · exact isData_fileCode options i hi
      · exact Placement.isData_variableData hvars i hi
    · exact Placement.isData_stringData hstrings i hi
  · rintro f part ⟨before, after, epilogue, hpart⟩
    exact ⟨⟨before, after, epilogue, hpart⟩, Placement.jumpsInside_functionCode hpart⟩

end Backend386
