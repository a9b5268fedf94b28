import Backend386.Proofs.I386.ExprCode
import Backend386.Proofs.I386.Plain
import Backend386.Proofs.I386.SymbolNames

/-!
# The symbols that code refers to

The code of an expression refers to a symbol for each string literal in it and for each entity whose
address or storage it needs. The last operand comes first, since it is evaluated first.

* `Listing.references` — the symbols in immediates, displacements and data directives;
* `Cites` — symbols of string literals, in order, between those of entities;
* `Placement.exprCode_cites` — the references of an expression are to its literals and to entities;
* `Placement.actionCode_cites`, `Placement.dataDirective_cites` — the same for statements and data.
-/

namespace Backend386

/-! ## References -/

/-- The symbol of an operand. -/
def Operand.symbol? : Operand → Option String
  | .imm (.symbol s) | .target s => some s
  | .mem m => m.symbol
  | _ => none

/-- The symbols that an item refers to. Jumps go to labels of their function, and do not count. -/
def Item.references : Item → List String
  | .inst (.jmp _) | .inst (.jcc ..) => []
  | .inst i => i.operands.filterMap Operand.symbol?
  | .directive (.long (.symbol s)) | .directive (.quad (.symbol s)) => [s]
  | _ => []

@[simp] theorem Operand.symbol?_reg (r : Register) : symbol? (.reg r) = none := rfl

@[simp] theorem Operand.symbol?_int (v : Int64) : symbol? (.int v) = none := rfl

namespace Item

@[simp] theorem references_unary (op : UnaryInst) (a : Operand) :
    references (.inst (.unary op a)) = a.symbol?.toList := by
  simp only [references, Instruction.operands, List.filterMap_cons, List.filterMap_nil]
  cases a.symbol? <;> rfl

@[simp] theorem references_binary (op : BinaryInst) (src dst : Operand) :
    references (.inst (.binary op src dst)) = src.symbol?.toList ++ dst.symbol?.toList := by
  simp only [references, Instruction.operands, List.filterMap_cons, List.filterMap_nil]
  cases src.symbol? <;> cases dst.symbol? <;> rfl

@[simp] theorem references_mov (src dst : Operand) :
    references (.mov src dst) = src.symbol?.toList ++ dst.symbol?.toList :=
  references_binary ..

@[simp] theorem references_pushEax : references .pushEax = [] := rfl

@[simp] theorem references_popEcx : references .popEcx = [] := rfl

@[simp] theorem references_jmp (label : String) : references (.jmp label) = [] := rfl

end Item

namespace Listing

/-- The symbols that a listing refers to. -/
def references (code : Listing) : List String :=
  code.flatMap Item.references

@[simp] theorem references_nil : references [] = [] := rfl

@[simp] theorem references_cons (i : Item) (code : Listing) :
    references (i :: code) = i.references ++ references code :=
  List.flatMap_cons

@[simp] theorem references_append (a b : Listing) :
    references (a ++ b) = references a ++ references b :=
  List.flatMap_append

theorem references_flatten (parts : List Listing) :
    references parts.flatten = parts.flatMap references := by
  induction parts with
  | nil => rfl
  | cons part parts ih => rw [List.flatten_cons, references_append, ih, List.flatMap_cons]

/-- The items that are dropped are jumps. -/
@[simp] theorem references_dropJumps (epilogue : String) (code : Listing) :
    references (dropJumps epilogue code) = code.references := by
  induction code with
  | nil => rfl
  | cons i rest ih =>
    rw [dropJumps]
    split
    · next h =>
      obtain ⟨target, htarget⟩ := Option.isSome_iff_exists.1 h.1
      have hnone : i.references = [] := by
        unfold Item.jumpTarget? at htarget
        split at htarget
        · rfl
        · cases htarget
      rw [ih, references_cons, hnone, List.nil_append]
    · rw [references_cons, references_cons, ih]

end Listing

/-- Symbols of the given string literals, in this order, with symbols of other things between them.
-/
inductive Cites (literal : StringId → String → Prop) (other : String → Prop) :
    List String → List StringId → Prop where
  | nil : Cites literal other [] []
  | literal {id : StringId} {s : String} {ss : List String} {ids : List StringId}
    (h : literal id s) (hs : Cites literal other ss ids) : Cites literal other (s :: ss) (id :: ids)
  | other {s : String} {ss : List String} {ids : List StringId} (h : other s)
    (hs : Cites literal other ss ids) : Cites literal other (s :: ss) ids

namespace Cites

variable {literal literal' : StringId → String → Prop} {other other' : String → Prop}
  {ss ss' : List String} {ids ids' : List StringId} {id : StringId} {s : String}

theorem single (h : literal id s) : Cites literal other [s] [id] := .literal h .nil

theorem single_other (h : other s) : Cites literal other [s] [] := .other h .nil

/-- Pieces of code cite literals one after another. -/
theorem append (h : Cites literal other ss ids) (h' : Cites literal other ss' ids') :
    Cites literal other (ss ++ ss') (ids ++ ids') := by
  induction h with
  | nil => exact h'
  | literal h _ ih => exact .literal h ih
  | other h _ ih => exact .other h ih

/-- What counts as a literal may be widened, and so may the other symbols. -/
theorem mono (h : Cites literal other ss ids) (hl : ∀ id s, literal id s → literal' id s)
    (ho : ∀ s, other s → other' s) : Cites literal' other' ss ids := by
  induction h with
  | nil => exact .nil
  | literal h _ ih => exact .literal (hl _ _ h) ih
  | other h _ ih => exact .other (ho _ h) ih

end Cites

/-! ## Entities -/

/-- The symbol of a storage, or an address some bytes behind it. -/
def Storage.Mentions (st : Storage) (s : String) : Prop :=
  match st with
  | .register _ => False
  | .immediate i => i = .symbol s
  | .memory m => ∃ x, m.symbol = some x ∧
    (s = x ∨ m.offset ≠ 0 ∧ s = x ++ "+" ++ m.offset.toInt.repr)

/-- The symbol of an entity, or of its storage. -/
def Entity.Mentions (e : Entity) (s : String) : Prop :=
  s = e.symbol ∨ ∃ st, e.storage = .settled st ∧ st.Mentions s

/-- The symbol of some entity of a placement. -/
def Placement.MentionsEntity (p : Placement) (s : String) : Prop :=
  ∃ v e, p.entities.get v = .ok e ∧ e.Mentions s

/-- The references of a placement are to string literals, in order, and to entities. -/
abbrev Placement.Cites (p : Placement) : List String → List StringId → Prop :=
  Backend386.Cites (fun id s => p.stringSymbol id = .ok s) p.MentionsEntity

theorem Ir.Expr.literals_bin_int {w w' : Width} {op : Ir.Op} {e : Ir.Expr} {k : Int64} :
    (bin w op e (.int w' k)).literals = e.literals :=
  List.append_nil _

/-- The memory of an entity mentions its symbol. -/
theorem Placement.mentions_memory {p : Placement} {v : EntityId} {e : Entity} {m : MemRef}
    (he : p.entities.get v = .ok e) (hst : e.storage = .settled (.memory m)) :
    p.Cites m.symbol.toList [] := by
  cases hs : m.symbol with
  | none => exact .nil
  | some s => exact .single_other ⟨v, e, he, .inr ⟨_, hst, s, hs, .inl rfl⟩⟩

/-- So is any storage. -/
theorem Placement.mentions_storage {p : Placement} {v : EntityId} {e : Entity} {st : Storage}
    (he : p.entities.get v = .ok e) (hst : e.storage = .settled st) :
    p.Cites st.operand.symbol?.toList [] := by
  cases st with
  | register => exact .nil
  | memory m => exact mentions_memory he hst
  | immediate i =>
    cases i with
    | int => exact .nil
    | symbol s => exact .single_other ⟨v, e, he, .inr ⟨_, hst, rfl⟩⟩

/-- The address of an entity, where the assembler knows it. -/
theorem Placement.mentions_address {p : Placement} {v : EntityId} {e : Entity} {i : Immediate}
    (he : p.entities.get v = .ok e) (hi : e.address? = .ok (some i)) :
    p.Cites (Operand.symbol? (.imm i)).toList [] := by
  obtain ⟨st, hst, hi⟩ := bind_eq_ok_iff.1 hi
  have hsettled := Entity.getStorage_eq_ok_iff.1 hst
  split at hi
  · next offset s =>
    cases hi
    refine .single_other ⟨v, e, he, .inr ⟨_, hsettled, s, rfl, ?_⟩⟩
    by_cases hzero : offset = 0
    · exact .inl (if_pos hzero)
    · exact .inr ⟨hzero, if_neg hzero⟩
  · next s =>
    by_cases hf : e.isFunction = true
    · rw [if_pos hf] at hi
      cases hi
      exact .single_other ⟨v, e, he, .inr ⟨_, hsettled, rfl⟩⟩
    · rw [if_neg hf] at hi
      cases hi
  · cases hi

/-- The callee that a call names has no literals. -/
theorem Ir.Expr.literals_of_staticTarget? {t : EntityTable} {callee : Ir.Expr} {f : EntityId}
    (h : staticTarget? t callee = .ok (some f)) : callee.literals = [] := by
  unfold staticTarget? named? at h
  cases callee with
  | addr => rfl
  | var => rfl
  | _ => cases h

theorem MemRef.symbol_moveBy {m m' : MemRef} {k : Int64} (h : m.moveBy k = .ok m') :
    m'.symbol = m.symbol := by
  obtain ⟨_, -, h⟩ := bind_eq_ok_iff.1 h
  cases h
  rfl

/-! ## Pieces of code that refer to nothing -/

section Pieces

variable {c : RegisterClass} {w narrow : Width} {signed remainder : Bool} {code : Listing}
  {rhs : Operand}

/-- Extensions cite nothing. -/
theorem extendCode_references (h : extendCode c narrow w signed = .ok code) :
    code.references = [] := by
  unfold extendCode at h
  split at h
  · cases h
    rfl
  · obtain ⟨_, -, h⟩ := bind_eq_ok_iff.1 h
    obtain ⟨_, -, h⟩ := bind_eq_ok_iff.1 h
    cases h
    rfl

theorem setCode_references {c : Condition} (h : setCode c w = .ok code) : code.references = [] := by
  obtain ⟨rest, hrest, h⟩ := bind_eq_ok_iff.1 h
  cases h
  exact (Listing.references_cons ..).trans (extendCode_references hrest)

/-- Neither does a division. -/
theorem divideCode_references (hrhs : rhs.symbol? = none)
    (h : divideCode w signed remainder rhs = .ok code) : code.references = [] := by
  obtain ⟨left, hleft, h⟩ := bind_eq_ok_iff.1 h
  obtain ⟨right, hright, h⟩ := bind_eq_ok_iff.1 h
  cases h
  have hload : (loadDivisor rhs).references = [] := by
    cases rhs with
    | imm i => simp [loadDivisor, hrhs]
    | _ => rfl
  simp only [Listing.references_append, hload, extendCode_references hleft,
    extendCode_references hright]
  cases signed <;> cases remainder <;> rfl

theorem Operand.symbol?_orRegister (hrhs : rhs.symbol? = none) (r : Register) :
    (rhs.orRegister r).symbol? = none := by
  cases rhs with
  | reg => rfl
  | _ => exact hrhs

/-- Nor does any other operation. -/
theorem applyCode_references {op : Ir.Op} (hrhs : rhs.symbol? = none)
    (h : applyCode w op rhs = .ok code) : code.references = [] := by
  obtain ⟨_, -, h⟩ := bind_eq_ok_iff.1 h
  cases op
  case sDiv | sMod | uDiv | uMod => exact divideCode_references hrhs h
  case mul | shl | shr | sar =>
    cases h
    simp [Operand.symbol?_orRegister hrhs]
  all_goals
    cases h
    try simp [hrhs]

theorem cleanUp_references (n : Nat) : (cleanUp n).references = [] := by
  unfold cleanUp
  split <;> rfl

end Pieces

/-! ## Expressions -/

namespace Placement

variable {p : Placement} {code : Listing} {l r e : Ir.Expr} {w : Width} {op : Ir.Op}

/-- The references of some code, if it is generated, are to these literals and to entities. -/
def CodeCites (p : Placement) (code : Except Fault Listing) (ids : List StringId) : Prop :=
  ∀ c, code = .ok c → p.Cites c.references ids

/-- The right operand is computed first, and cites its literals first. -/
theorem operandsCode_cites {signed : Bool} {rhs : Operand} {left right : Except Fault Listing}
    (hl : p.CodeCites left l.literals.reverse) (hr : p.CodeCites right r.literals.reverse)
    (h : operandsCode l r left right w signed = .ok (code, rhs)) :
    p.Cites code.references (l.literals ++ r.literals).reverse ∧ rhs.symbol? = none := by
  unfold operandsCode at h
  split at h
  · obtain ⟨cl, hcl, h⟩ := bind_eq_ok_iff.1 h
    obtain ⟨el, hel, h⟩ := bind_eq_ok_iff.1 h
    cases h
    rw [Listing.references_append, extendCode_references hel, List.append_nil]
    exact ⟨by simpa [Ir.Expr.literals] using hl cl hcl, rfl⟩
  · obtain ⟨cr, hcr, h⟩ := bind_eq_ok_iff.1 h
    obtain ⟨er, her, h⟩ := bind_eq_ok_iff.1 h
    obtain ⟨cl, hcl, h⟩ := bind_eq_ok_iff.1 h
    obtain ⟨el, hel, h⟩ := bind_eq_ok_iff.1 h
    obtain ⟨_, -, h⟩ := bind_eq_ok_iff.1 h
    cases h
    refine ⟨?_, rfl⟩
    simpa [extendCode_references her, extendCode_references hel] using
      (hr cr hcr).append (hl cl hcl)

/-- A comparison cites the literals of both operands. -/
theorem compareCode_cites {left right : Except Fault Listing}
    (hl : p.CodeCites left l.literals.reverse) (hr : p.CodeCites right r.literals.reverse) :
    p.CodeCites (compareCode op l r left right) (l.literals ++ r.literals).reverse := by
  intro code h
  obtain ⟨⟨operands, rhs⟩, hoperands, h⟩ := bind_eq_ok_iff.1 h
  obtain ⟨_, -, h⟩ := bind_eq_ok_iff.1 h
  cases h
  obtain ⟨hcites, hrhs⟩ := operandsCode_cites hl hr hoperands
  simpa [hrhs] using hcites

/-- So does any binary operation. -/
theorem binaryCode_cites {left right : Except Fault Listing}
    (hl : p.CodeCites left l.literals.reverse) (hr : p.CodeCites right r.literals.reverse) :
    p.CodeCites (binaryCode w op l r left right) (l.literals ++ r.literals).reverse := by
  intro code h
  unfold binaryCode at h
  split at h
  · obtain ⟨cmp, hcmp, h⟩ := bind_eq_ok_iff.1 h
    obtain ⟨set, hset, h⟩ := bind_eq_ok_iff.1 h
    cases h
    rw [Listing.references_append, setCode_references hset, List.append_nil]
    exact compareCode_cites hl hr cmp hcmp
  · obtain ⟨⟨operands, rhs⟩, hoperands, h⟩ := bind_eq_ok_iff.1 h
    obtain ⟨apply, happly, h⟩ := bind_eq_ok_iff.1 h
    cases h
    obtain ⟨hcites, hrhs⟩ := operandsCode_cites hl hr hoperands
    rwa [Listing.references_append, applyCode_references hrhs happly, List.append_nil]

/-- A unary operation cites those of its operand. -/
theorem unaryCode_cites {operand : Except Fault Listing}
    (he : p.CodeCites operand e.literals.reverse) :
    p.CodeCites (unaryCode w op e operand) e.literals.reverse := by
  intro code h
  obtain ⟨ce, hce, h⟩ := bind_eq_ok_iff.1 h
  obtain ⟨_, -, h⟩ := bind_eq_ok_iff.1 h
  have hcites := he ce hce
  cases op
  case neg | bitNot =>
    cases h
    simpa using hcites
  case not =>
    obtain ⟨_, -, h⟩ := bind_eq_ok_iff.1 h
    obtain ⟨set, hset, h⟩ := bind_eq_ok_iff.1 h
    cases h
    simpa [setCode_references hset] using hcites
  case sCast | uCast =>
    obtain ⟨ext, hext, h⟩ := bind_eq_ok_iff.1 h
    cases h
    rwa [Listing.references_append, extendCode_references hext, List.append_nil]
  all_goals cases h

/-- A sum takes no code if it adds a constant to an address that takes none. -/
theorem direct?_bin_eq_some {m : MemRef} (h : p.direct? (.bin w op l r) = .ok (some m)) :
    ∃ w' k m₀ k', r = .int w' k ∧ p.direct? l = .ok (some m₀) ∧ m₀.moveBy k' = .ok m := by
  unfold direct? at h
  -- only a literal behind a direct reference leads to a direct reference
  split at h <;> rename_i heq
  · cases heq
  · cases heq
  · cases heq
    obtain ⟨m?, hm, h⟩ := bind_eq_ok_iff.1 h
    cases m? with
    | none => cases h
    | some m₀ =>
      obtain ⟨m', hm', h⟩ := bind_eq_ok_iff.1 h
      cases h
      exact ⟨_, _, m₀, _, rfl, hm, hm'⟩
  · cases heq
    obtain ⟨m?, hm, h⟩ := bind_eq_ok_iff.1 h
    cases m? with
    | none => cases h
    | some m₀ =>
      obtain ⟨k', -, h⟩ := bind_eq_ok_iff.1 h
      obtain ⟨m', hm', h⟩ := bind_eq_ok_iff.1 h
      cases h
      exact ⟨_, _, m₀, k', rfl, hm, hm'⟩
  · cases h

/-- The symbol of a memory reference that takes no code. -/
theorem direct?_cites : (e : Ir.Expr) → ∀ m, p.direct? e = .ok (some m) →
    p.Cites m.symbol.toList e.literals.reverse
  | .addr w v => by
    intro m h
    obtain ⟨e, he, h⟩ := bind_eq_ok_iff.1 h
    obtain ⟨st, hst, h⟩ := bind_eq_ok_iff.1 h
    split at h
    · cases h
      exact mentions_memory he (Entity.getStorage_eq_ok_iff.1 hst)
    · cases h
  | .str w id => by
    intro m h
    obtain ⟨m', hm, h⟩ := bind_eq_ok_iff.1 h
    cases h
    obtain ⟨entry, l, -, -, rfl⟩ := StringTable.memory_eq_ok_iff.1 hm
    refine .single ?_
    rw [stringSymbol, hm]
    exact congrArg Except.ok (MemRef.render_labelled l)
  -- moving a reference does not change its symbol, and the number cites nothing
  | .bin w op l r => by
    intro m h
    obtain ⟨w', k, m₀, k', rfl, hm, hmove⟩ := direct?_bin_eq_some h
    rw [MemRef.symbol_moveBy hmove, Ir.Expr.literals_bin_int]
    exact direct?_cites l m₀ hm
  | .int .. | .var .. | .mem .. | .uni .. | .call .. => by
    intro m h
    cases h

/-- The address of an entity is its symbol, or that of its storage. -/
theorem entityAddressCode_cites (v : EntityId) : p.CodeCites (p.entityAddressCode v) [] := by
  intro code h
  obtain ⟨e, he, h⟩ := bind_eq_ok_iff.1 h
  obtain ⟨st, hst, h⟩ := bind_eq_ok_iff.1 h
  obtain ⟨i?, hi, h⟩ := bind_eq_ok_iff.1 h
  have hsettled := Entity.getStorage_eq_ok_iff.1 hst
  split at h
  · cases h
    simpa using mentions_address he hi
  · cases h
    have hlea : ∀ m, Listing.references [.inst (.lea (.mem m) (.reg .eax))] = m.symbol.toList := by
      intro m
      cases hm : m.symbol <;> simp [Item.references, Instruction.operands, Operand.symbol?, hm]
    rw [hlea]
    exact mentions_memory he hsettled
  · cases h

/-- A call cites those of its callee. -/
theorem transferCode_cites {callee : Ir.Expr} {target : Except Fault Listing}
    (ht : p.CodeCites target callee.literals.reverse) :
    p.CodeCites (p.transferCode callee target) callee.literals.reverse := by
  intro code h
  obtain ⟨f?, hf, h⟩ := bind_eq_ok_iff.1 h
  cases f? with
  | some f =>
    obtain ⟨s, hs, h⟩ := bind_eq_ok_iff.1 h
    cases h
    obtain ⟨e, he, hs⟩ := bind_eq_ok_iff.1 hs
    cases hs
    rw [Ir.Expr.literals_of_staticTarget? hf]
    exact .single_other ⟨f, e, he, .inl rfl⟩
  | none =>
    obtain ⟨ct, hct, h⟩ := bind_eq_ok_iff.1 h
    cases h
    have hcall : Item.references (.inst (.call (.reg .eax))) = [] := rfl
    simpa [hcall] using ht ct hct

/-- Code for an address is code for a value, or code for the address that a constant is added to. -/
theorem cites_of_value {e : Ir.Expr} (hv : p.CodeCites (p.valueCode e) e.literals.reverse)
    (hbase : ∀ {w w' a k}, e = .bin w .add a (.int w' k) → ∀ code m,
      p.addressCode a = .ok (code, m) →
        p.Cites (code.references ++ m.symbol.toList) a.literals.reverse) :
    p.CodeCites (p.valueCode e) e.literals.reverse ∧ ∀ code m, p.addressCode e = .ok (code, m) →
      p.Cites (code.references ++ m.symbol.toList) e.literals.reverse := by
  refine ⟨hv, fun code m h => ?_⟩
  rcases addressCode_eq_ok h with ⟨hm, rfl⟩ | ⟨hc, rfl⟩ | ⟨w, w', a, k, m₀, rfl, hc, hmove⟩
  · exact direct?_cites e m hm
  · exact (List.append_nil _).symm ▸ hv code hc
  · rw [MemRef.symbol_moveBy hmove, Ir.Expr.literals_bin_int]
    exact hbase rfl code m₀ hc

mutual

/-- The code of an expression refers to its literals, the last one first, and to entities. -/
theorem exprCode_cites : (e : Ir.Expr) →
    p.CodeCites (p.valueCode e) e.literals.reverse ∧ ∀ code m, p.addressCode e = .ok (code, m) →
      p.Cites (code.references ++ m.symbol.toList) e.literals.reverse
  | .int w v => by
    -- a value cites what its operands cite; an address does so only where there is one
    refine cites_of_value (fun code h => ?_) (fun h => by cases h)
    obtain ⟨_, -, h⟩ := bind_eq_ok_iff.1 h
    cases h
    exact .nil
  | .str w id => by
    refine cites_of_value (fun code h => ?_) (fun h => by cases h)
    obtain ⟨_, -, h⟩ := bind_eq_ok_iff.1 h
    obtain ⟨s, hs, h⟩ := bind_eq_ok_iff.1 h
    cases h
    exact .single hs
  | .var w v => by
    refine cites_of_value (fun code h => ?_) (fun h => by cases h)
    obtain ⟨_, -, h⟩ := bind_eq_ok_iff.1 h
    obtain ⟨e, he, h⟩ := bind_eq_ok_iff.1 h
    obtain ⟨st, hst, h⟩ := bind_eq_ok_iff.1 h
    cases h
    simpa [Ir.Expr.literals] using mentions_storage he (Entity.getStorage_eq_ok_iff.1 hst)
  | .addr w v => by
    refine cites_of_value (fun code h => ?_) (fun h => by cases h)
    obtain ⟨_, -, h⟩ := bind_eq_ok_iff.1 h
    exact entityAddressCode_cites v code h
  | .mem w a => by
    refine cites_of_value (fun code h => ?_) (fun h => by cases h)
    obtain ⟨_, -, h⟩ := bind_eq_ok_iff.1 h
    obtain ⟨⟨ca, m⟩, ha, h⟩ := bind_eq_ok_iff.1 h
    cases h
    simpa [Operand.symbol?, Ir.Expr.literals] using (exprCode_cites a).2 ca m ha
  | .uni w op e => by
    refine cites_of_value (fun code h => ?_) (fun h => by cases h)
    obtain ⟨_, -, h⟩ := bind_eq_ok_iff.1 h
    exact unaryCode_cites (exprCode_cites e).1 code h
  | .bin w op l r => by
    refine cites_of_value (fun code h => ?_) ?_
    · obtain ⟨_, -, h⟩ := bind_eq_ok_iff.1 h
      exact binaryCode_cites (exprCode_cites l).1 (exprCode_cites r).1 code h
    · rintro _ _ _ _ ⟨⟩
      exact (exprCode_cites l).2
  | .call w f args => by
    refine cites_of_value (fun code h => ?_) (fun h => by cases h)
    obtain ⟨_, -, h⟩ := bind_eq_ok_iff.1 h
    obtain ⟨ca, hca, h⟩ := bind_eq_ok_iff.1 h
    obtain ⟨ct, hct, h⟩ := bind_eq_ok_iff.1 h
    cases h
    simpa [cleanUp_references, Ir.Expr.literals] using (argumentCode_cites args ca hca).append
      (transferCode_cites (exprCode_cites f).1 ct hct)

/-- Arguments cite theirs, last to first. -/
theorem argumentCode_cites : (es : List Ir.Expr) →
    p.CodeCites (p.argumentCode es) (Ir.Expr.literalsOfAll es).reverse
  | [] => by
    intro code h
    cases h
    exact .nil
  | e :: es => by
    intro code h
    obtain ⟨later, hlater, h⟩ := bind_eq_ok_iff.1 h
    obtain ⟨ce, hce, h⟩ := bind_eq_ok_iff.1 h
    cases h
    simpa [Ir.Expr.literalsOfAll] using
      (argumentCode_cites es later hlater).append ((exprCode_cites e).1 ce hce)

end

/-! ## Statements and data -/

/-- A store cites those of its value before those of its target. -/
theorem storeCode_cites {target value : Ir.Expr} :
    p.CodeCites (p.storeCode target value) (target.literals ++ value.literals).reverse := by
  intro code h
  rw [List.reverse_append]
  obtain ⟨m?, hm, h⟩ := bind_eq_ok_iff.1 h
  cases m? with
  | some m =>
    obtain ⟨cv, hcv, h⟩ := bind_eq_ok_iff.1 h
    obtain ⟨_, -, h⟩ := bind_eq_ok_iff.1 h
    cases h
    simpa [Operand.symbol?] using
      ((exprCode_cites value).1 cv hcv).append (direct?_cites target m hm)
  | none =>
    obtain ⟨cv, hcv, h⟩ := bind_eq_ok_iff.1 h
    obtain ⟨⟨ca, m⟩, hca, h⟩ := bind_eq_ok_iff.1 h
    obtain ⟨_, -, h⟩ := bind_eq_ok_iff.1 h
    cases h
    simpa [Operand.symbol?] using
      ((exprCode_cites value).1 cv hcv).append ((exprCode_cites target).2 ca m hca)

/-- A test cites those of its expression. -/
theorem testCode_cites {test : Ir.Expr} {c : Condition} (h : p.testCode test = .ok (code, c)) :
    p.Cites code.references test.literals.reverse := by
  have hplain : ∀ {code c}, ((do
      let code ← p.valueCode test
      let ax ← RegisterClass.ax.view test.width
      return (code ++ [.inst (.binary .test (.reg ax) (.reg ax))], .ne)) :
        Except Fault (Listing × Condition)) = .ok (code, c) →
      p.Cites code.references test.literals.reverse := by
    intro code c h
    obtain ⟨ct, hct, h⟩ := bind_eq_ok_iff.1 h
    obtain ⟨_, -, h⟩ := bind_eq_ok_iff.1 h
    cases h
    simpa using (exprCode_cites test).1 ct hct
  unfold testCode at h
  split at h
  · split at h
    · obtain ⟨cmp, hcmp, h⟩ := bind_eq_ok_iff.1 h
      cases h
      exact compareCode_cites (exprCode_cites _).1 (exprCode_cites _).1 _ hcmp
    · exact hplain h
  · exact hplain h

variable {options : AssemblyOptions} {epilogue : Ir.Label}

/-- The code of a statement refers to the literals of the statement. -/
theorem actionCode_cites (a : Ir.Action) :
    p.CodeCites (p.actionCode epilogue a) a.literals.reverse := by
  intro code h
  cases a with
  | eval e => exact (exprCode_cites e).1 code h
  | assign target value => exact storeCode_cites code h
  | jump | label =>
    cases h
    exact .nil
  | branch test =>
    obtain ⟨⟨ct, c⟩, hct, h⟩ := bind_eq_ok_iff.1 h
    cases h
    have hjcc : ∀ c l, Item.references (.inst (.jcc c l)) = [] := fun _ _ => rfl
    simpa [hjcc, Ir.Action.literals] using testCode_cites hct
  | ret e =>
    cases e with
    | none =>
      cases h
      exact .nil
    | some e =>
      obtain ⟨ce, hce, h⟩ := bind_eq_ok_iff.1 h
      cases h
      simpa [Ir.Action.literals, Ir.Expr.literalsOfAll] using (exprCode_cites e).1 ce hce

/-- The code of a body refers to the literals of its statements, in order. -/
theorem bodyCode_cites (body : List Ir.Stmt) :
    p.CodeCites (p.bodyCode options epilogue body)
      (body.flatMap fun s => s.action.literals.reverse) := by
  induction body with
  | nil =>
    intro code h
    cases h
    exact .nil
  | cons s body ih =>
    intro code h
    obtain ⟨cs, hcs, h⟩ := bind_eq_ok_iff.1 h
    obtain ⟨cb, hcb, h⟩ := bind_eq_ok_iff.1 h
    cases h
    obtain ⟨ca, hca, hcs⟩ := bind_eq_ok_iff.1 hcs
    cases hcs
    have hcomment : Listing.references (s.comment options) = [] := by
      unfold Ir.Stmt.comment
      split
      · split <;> rfl
      · rfl
    simpa [hcomment] using (actionCode_cites s.action ca hca).append (ih cb hcb)

/-- The directive of an initial value refers to the literal that it is. -/
theorem dataDirective_cites {init : Ir.Expr} {size : Nat} {d : Directive}
    (h : p.dataDirective init size = .ok d) :
    p.Cites (Item.references (.directive d)) init.literals.reverse := by
  unfold dataDirective at h
  split at h
  case h_5 w id =>
    obtain ⟨s, hs, h⟩ := bind_eq_ok_iff.1 h
    cases h
    exact .single hs
  case h_6 w v =>
    obtain ⟨s, hs, h⟩ := bind_eq_ok_iff.1 h
    cases h
    obtain ⟨e, he, hs⟩ := bind_eq_ok_iff.1 hs
    cases hs
    exact .single_other ⟨v, e, he, .inl rfl⟩
  case h_7 => cases h
  all_goals
    cases h
    exact .nil

end Placement

end Backend386
