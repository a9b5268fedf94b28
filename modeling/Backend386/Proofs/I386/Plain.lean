import Backend386.Proofs.I386.Control
import Backend386.Proofs.I386.ExprCode
import Backend386.Proofs.Ir.Step

/-!
# Only statements place labels and jump

The code of an expression consists of a few forms of instructions, none of which is a jump to a
label. So the labels of a function body are those of its label statements, and what follows such a
label in the listing is the code of what follows it in the body.

* `Listing.Plain` — a listing without labels, directives and jumps to labels;
* `Listing.Solid` — one without comments, too;
* `Placement.Emits`, `Placement.exprCode_emits` — the forms of the instructions of an expression;
* `Placement.exprCode_solid` — the code of an expression has no jumps to labels;
* `Placement.after?_bodyCode` — the code that follows a label.
-/

namespace Backend386

/-- An item that is neither a label nor a directive nor a jump to a label. -/
def Item.isPlain : Item → Bool
  | .label _ | .directive _ => false
  | i => i.jumpTarget?.isNone

/-- A listing without labels, directives and jumps to labels. -/
def Listing.Plain (code : Listing) : Prop :=
  ∀ i ∈ code, i.isPlain = true

namespace Listing.Plain

variable {a b : Listing}

@[simp] theorem nil : Plain [] := fun _ h => absurd h List.not_mem_nil

@[simp] theorem cons_iff {i : Item} : Plain (i :: a) ↔ i.isPlain = true ∧ Plain a :=
  List.forall_mem_cons

@[simp] theorem append_iff : Plain (a ++ b) ↔ Plain a ∧ Plain b :=
  List.forall_mem_append

theorem append (ha : Plain a) (hb : Plain b) : Plain (a ++ b) :=
  append_iff.2 ⟨ha, hb⟩

theorem single {i : Item} (h : i.isPlain = true) : Plain [i] :=
  cons_iff.2 ⟨h, nil⟩

/-- Plain code is kept when jumps are dropped. -/
theorem kept (h : Plain a) : ∀ i ∈ a, i.Kept := by
  intro i hi
  have hplain := h i hi
  unfold Item.isPlain at hplain
  split at hplain
  · cases hplain
  · cases hplain
  · exact Option.isNone_iff_eq_none.1 hplain

theorem labels (h : Plain a) : a.labels = [] := by
  refine List.filterMap_eq_nil_iff.2 fun i hi => ?_
  have hplain := h i hi
  cases i <;> first | rfl | cases hplain

end Listing.Plain

/-- An instruction that is no jump to a label. -/
def Item.isSolid : Item → Bool
  | .inst i => (Item.inst i).jumpTarget?.isNone
  | _ => false

/-- A listing of instructions that are no jumps to labels. -/
def Listing.Solid (code : Listing) : Prop :=
  ∀ i ∈ code, i.isSolid = true

/-- What is neither a label nor a jump is plain. -/
theorem Listing.Solid.plain {code : Listing} (h : Solid code) : Plain code := by
  intro i hi
  have hsolid := h i hi
  cases i with
  | inst i => exact hsolid
  | _ => cases hsolid

open Listing

/-! ## What expressions consist of -/

/-- The shifts, whose count is an immediate or in `cl`. -/
def BinaryInst.isShift : BinaryInst → Bool
  | sal | sar | shr => true
  | _ => false

/-- The instructions that the code of expressions and stores consists of, where the variables that
are read are known. -/
inductive Placement.Emits (p : Placement) (reads : List Ir.Expr) : Item → Prop where
  /-- the value of a variable, from wherever it is kept -/
  | load {w : Width} {v : EntityId} {e : Entity} {st : Storage}
    {hw : RegisterClass.ax.hasView w = true} (hread : .var w v ∈ reads)
    (he : p.entities.get v = .ok e) (hst : e.getStorage = .ok st) :
    Emits p reads (.mov st.operand (.reg ⟨.ax, w, hw⟩))
  | literal (op : BinaryInst) (i : Immediate) (r : Register) :
    Emits p reads (.inst (.binary op (.imm i) (.reg r)))
  | registers {op : BinaryInst} {src dst : Register} (hop : op.isShift = false)
    (hsize : src.size = dst.size) : Emits p reads (.inst (.binary op (.reg src) (.reg dst)))
  /-- a shift by a count in `cl` -/
  | shift {op : BinaryInst} (hop : op.isShift = true) (dst : Register) :
    Emits p reads (.inst (.binary op (.reg .cl) (.reg dst)))
  | fetch (m : MemRef) (dst : Register) : Emits p reads (.mov (.mem m) (.reg dst))
  | store (src : Register) (m : MemRef) : Emits p reads (.mov (.reg src) (.mem m))
  | address (m : MemRef) : Emits p reads (.inst (.lea (.mem m) (.reg .eax)))
  | extend {c : RegisterClass} {narrow wide : Width} {hn : c.hasView narrow = true}
    {hw : c.hasView wide = true} (signed : Bool) (hlt : narrow.bytes < wide.bytes) :
    Emits p reads (.inst (.extend signed narrow (.reg ⟨c, narrow, hn⟩) (.reg ⟨c, wide, hw⟩)))
  | set (c : Condition) : Emits p reads (.inst (.set c (.reg .al)))
  | cltd : Emits p reads (.inst .cltd)
  | divide {op : UnaryInst} (hop : op = .idiv ∨ op = .div) :
    Emits p reads (.inst (.unary op (.reg .ecx)))
  | complement {op : UnaryInst} (hop : op = .neg ∨ op = .not) (r : Register) :
    Emits p reads (.inst (.unary op (.reg r)))
  | push : Emits p reads .pushEax
  | pop : Emits p reads .popEcx
  | callSymbol (f : String) : Emits p reads (.inst (.call (.target f)))
  | callAddress : Emits p reads (.inst (.call (.reg .eax)))

/-- Every item of a listing is such an instruction. -/
def Placement.EmitsAll (p : Placement) (reads : List Ir.Expr) (code : Listing) : Prop :=
  ∀ i ∈ code, p.Emits reads i

/-- The right operand of an operation of a width: a literal, or the view of `ecx`. -/
inductive Operand.IsRightOf (w : Width) : Operand → Prop where
  | literal (k : Int64) : IsRightOf w (.int k)
  | register (hw : RegisterClass.cx.hasView w = true) : IsRightOf w (.reg ⟨.cx, w, hw⟩)

namespace Placement

variable {p : Placement} {reads reads' : List Ir.Expr} {code : Listing} {w : Width}

/-- More may be read than is. -/
theorem Emits.mono {i : Item} (h : p.Emits reads i) (hr : ∀ x ∈ reads, x ∈ reads') :
    p.Emits reads' i := by
  cases h with
  | load hread he hst => exact .load (hr _ hread) he hst
  | literal => exact .literal ..
  | registers hop hsize => exact .registers hop hsize
  | shift hop => exact .shift hop _
  | extend signed hlt => exact .extend signed hlt
  | divide hop => exact .divide hop
  | complement hop => exact .complement hop _
  | _ => constructor

/-- What expressions consist of is no jump to a label. -/
theorem Emits.solid {i : Item} (h : p.Emits reads i) : i.isSolid = true := by
  cases h <;> rfl

namespace EmitsAll

theorem nil : p.EmitsAll reads [] := fun _ h => absurd h List.not_mem_nil

theorem single {i : Item} (h : p.Emits reads i) : p.EmitsAll reads [i] :=
  List.forall_mem_singleton.2 h

theorem cons {i : Item} (h : p.Emits reads i) (hcode : p.EmitsAll reads code) :
    p.EmitsAll reads (i :: code) :=
  List.forall_mem_cons.2 ⟨h, hcode⟩

theorem append {a b : Listing} (ha : p.EmitsAll reads a) (hb : p.EmitsAll reads b) :
    p.EmitsAll reads (a ++ b) :=
  List.forall_mem_append.2 ⟨ha, hb⟩

theorem mono (h : p.EmitsAll reads code) (hr : ∀ x ∈ reads, x ∈ reads') :
    p.EmitsAll reads' code :=
  fun i hi => (h i hi).mono hr

theorem solid (h : p.EmitsAll reads code) : code.Solid :=
  fun i hi => (h i hi).solid

end EmitsAll

/-! ## Pieces of code -/

/-- Extensions read registers only. -/
theorem emits_extendCode {c : RegisterClass} {narrow : Width} {signed : Bool}
    (h : extendCode c narrow w signed = .ok code) : p.EmitsAll reads code := by
  unfold extendCode at h
  split at h
  · cases h
    exact .nil
  · next hle =>
    obtain ⟨rn, hrn, h⟩ := bind_eq_ok_iff.1 h
    obtain ⟨rw, hrw, h⟩ := bind_eq_ok_iff.1 h
    obtain ⟨hn, rfl⟩ := RegisterClass.view_eq_ok_iff.1 hrn
    obtain ⟨hw, rfl⟩ := RegisterClass.view_eq_ok_iff.1 hrw
    cases h
    exact .single (.extend signed (Nat.lt_of_not_le hle))

theorem emits_setCode {c : Condition} (h : setCode c w = .ok code) : p.EmitsAll reads code := by
  obtain ⟨rest, hrest, h⟩ := bind_eq_ok_iff.1 h
  cases h
  exact .cons (.set c) (emits_extendCode hrest)

/-- Operands are read by their own code. -/
theorem emits_operandsCode {l r : Ir.Expr} {left right : Except Fault Listing} {signed : Bool}
    {rhs : Operand} (hl : ∀ code, left = .ok code → p.EmitsAll reads code)
    (hr : ∀ code, right = .ok code → p.EmitsAll reads code)
    (h : operandsCode l r left right w signed = .ok (code, rhs)) :
    p.EmitsAll reads code ∧ rhs.IsRightOf w := by
  unfold operandsCode at h
  split at h
  · obtain ⟨cl, hcl, h⟩ := bind_eq_ok_iff.1 h
    obtain ⟨el, hel, h⟩ := bind_eq_ok_iff.1 h
    cases h
    exact ⟨(hl cl hcl).append (emits_extendCode hel), .literal _⟩
  · obtain ⟨cr, hcr, h⟩ := bind_eq_ok_iff.1 h
    obtain ⟨er, her, h⟩ := bind_eq_ok_iff.1 h
    obtain ⟨cl, hcl, h⟩ := bind_eq_ok_iff.1 h
    obtain ⟨el, hel, h⟩ := bind_eq_ok_iff.1 h
    obtain ⟨rcx, hrcx, h⟩ := bind_eq_ok_iff.1 h
    obtain ⟨hw, rfl⟩ := RegisterClass.view_eq_ok_iff.1 hrcx
    cases h
    exact ⟨(((((hr cr hcr).append (emits_extendCode her)).append (.single .push)).append
      (hl cl hcl)).append (emits_extendCode hel)).append (.single .pop), .register hw⟩

/-- A division reads registers and its divisor. -/
theorem emits_divideCode {signed remainder : Bool} {rhs : Operand}
    (h : divideCode w signed remainder rhs = .ok code) : p.EmitsAll reads code := by
  obtain ⟨wl, hwl, h⟩ := bind_eq_ok_iff.1 h
  obtain ⟨wr, hwr, h⟩ := bind_eq_ok_iff.1 h
  cases h
  have hload : p.EmitsAll reads (loadDivisor rhs) := by
    cases rhs with
    | imm => exact .single (.literal ..)
    | _ => exact .nil
  refine (((hload.append (emits_extendCode hwl)).append (emits_extendCode hwr)).append ?_).append ?_
  · cases signed with
    | true => exact .cons .cltd (.single (.divide (.inl rfl)))
    | false => exact .cons (.registers rfl rfl) (.single (.divide (.inr rfl)))
  · cases remainder with
    | true => exact .single (.registers rfl rfl)
    | false => exact .nil

/-- An operation reads its right operand. -/
theorem emits_applyCode {op : Ir.Op} {rhs : Operand} (hrhs : rhs.IsRightOf w)
    (h : applyCode w op rhs = .ok code) : p.EmitsAll reads code := by
  obtain ⟨ax, hax, h⟩ := bind_eq_ok_iff.1 h
  obtain ⟨hw, rfl⟩ := RegisterClass.view_eq_ok_iff.1 hax
  cases op
  case sDiv | sMod | uDiv | uMod => exact emits_divideCode h
  case add | sub | bitAnd | bitOr | bitXor =>
    cases h
    cases hrhs with
    | literal k => exact .single (.literal ..)
    | register => exact .single (.registers rfl rfl)
  case mul =>
    cases h
    cases hrhs with
    | literal k => exact .single (.literal ..)
    | register => exact .single (.registers rfl rfl)
  case shl | shr | sar =>
    cases h
    cases hrhs with
    | literal k => exact .single (.literal ..)
    | register => exact .single (.shift rfl _)
  all_goals cases h

/-- A comparison reads what its operands read. -/
theorem emits_compareCode {op : Ir.Op} {l r : Ir.Expr} {left right : Except Fault Listing}
    (hl : ∀ code, left = .ok code → p.EmitsAll reads code)
    (hr : ∀ code, right = .ok code → p.EmitsAll reads code)
    (h : compareCode op l r left right = .ok code) : p.EmitsAll reads code := by
  obtain ⟨⟨operands, rhs⟩, hoperands, h⟩ := bind_eq_ok_iff.1 h
  obtain ⟨ax, hax, h⟩ := bind_eq_ok_iff.1 h
  obtain ⟨hw, rfl⟩ := RegisterClass.view_eq_ok_iff.1 hax
  cases h
  obtain ⟨hcode, hrhs⟩ := emits_operandsCode hl hr hoperands
  refine hcode.append (.single ?_)
  cases hrhs with
  | literal k => exact .literal ..
  | register => exact .registers rfl rfl

/-- So does any binary operation. -/
theorem emits_binaryCode {op : Ir.Op} {l r : Ir.Expr} {left right : Except Fault Listing}
    (hl : ∀ code, left = .ok code → p.EmitsAll reads code)
    (hr : ∀ code, right = .ok code → p.EmitsAll reads code)
    (h : binaryCode w op l r left right = .ok code) : p.EmitsAll reads code := by
  unfold binaryCode at h
  split at h
  · obtain ⟨cmp, hcmp, h⟩ := bind_eq_ok_iff.1 h
    obtain ⟨set, hset, h⟩ := bind_eq_ok_iff.1 h
    cases h
    exact (emits_compareCode hl hr hcmp).append (emits_setCode hset)
  · obtain ⟨⟨operands, rhs⟩, hoperands, h⟩ := bind_eq_ok_iff.1 h
    obtain ⟨apply, happly, h⟩ := bind_eq_ok_iff.1 h
    cases h
    obtain ⟨hcode, hrhs⟩ := emits_operandsCode hl hr hoperands
    exact hcode.append (emits_applyCode hrhs happly)

/-- So does a unary operation. -/
theorem emits_unaryCode {op : Ir.Op} {e : Ir.Expr} {operand : Except Fault Listing}
    (he : ∀ code, operand = .ok code → p.EmitsAll reads code)
    (h : unaryCode w op e operand = .ok code) : p.EmitsAll reads code := by
  obtain ⟨ce, hce, h⟩ := bind_eq_ok_iff.1 h
  obtain ⟨ax, -, h⟩ := bind_eq_ok_iff.1 h
  cases op
  case neg =>
    cases h
    exact (he ce hce).append (.single (.complement (.inl rfl) _))
  case bitNot =>
    cases h
    exact (he ce hce).append (.single (.complement (.inr rfl) _))
  case not =>
    obtain ⟨_, -, h⟩ := bind_eq_ok_iff.1 h
    obtain ⟨set, hset, h⟩ := bind_eq_ok_iff.1 h
    cases h
    exact ((he ce hce).append (.single (.literal ..))).append (emits_setCode hset)
  case sCast | uCast =>
    obtain ⟨ext, hext, h⟩ := bind_eq_ok_iff.1 h
    cases h
    exact (he ce hce).append (emits_extendCode hext)
  all_goals cases h

theorem emits_cleanUp {n : Nat} : p.EmitsAll reads (cleanUp n) := by
  unfold cleanUp
  split
  · exact .nil
  · exact .single (.literal ..)

/-- The address of an entity is an operand of its own. -/
theorem emits_entityAddressCode {v : EntityId} (h : p.entityAddressCode v = .ok code) :
    p.EmitsAll reads code := by
  obtain ⟨e, -, h⟩ := bind_eq_ok_iff.1 h
  obtain ⟨st, -, h⟩ := bind_eq_ok_iff.1 h
  obtain ⟨i?, -, h⟩ := bind_eq_ok_iff.1 h
  split at h
  · cases h
    exact .single (.literal ..)
  · cases h
    exact .single (.address _)
  · cases h

/-- A call goes to a symbol, or to an address that was computed. -/
theorem emits_transferCode {callee : Ir.Expr} {target : Except Fault Listing}
    (ht : ∀ code, target = .ok code → p.EmitsAll reads code)
    (h : p.transferCode callee target = .ok code) : p.EmitsAll reads code := by
  obtain ⟨f?, -, h⟩ := bind_eq_ok_iff.1 h
  cases f? with
  | some f =>
    obtain ⟨_, -, h⟩ := bind_eq_ok_iff.1 h
    cases h
    exact .single (.callSymbol _)
  | none =>
    obtain ⟨ct, hct, h⟩ := bind_eq_ok_iff.1 h
    cases h
    exact (ht ct hct).append (.single .callAddress)

/-! ## Expressions -/

/-- What the code of an expression consists of, in its two uses. -/
def EmitsFor (p : Placement) (reads : List Ir.Expr) (e : Ir.Expr) : Prop :=
  (∀ code, p.valueCode e = .ok code → p.EmitsAll reads code) ∧
    ∀ code m, p.addressCode e = .ok (code, m) → p.EmitsAll reads code

theorem EmitsFor.mono {e : Ir.Expr} (h : p.EmitsFor reads e) (hr : ∀ x ∈ reads, x ∈ reads') :
    p.EmitsFor reads' e :=
  ⟨fun code hcode => (h.1 code hcode).mono hr, fun code m hcode => (h.2 code m hcode).mono hr⟩

/-- Code for an address is code for a value, or code for the address that a constant is added to. -/
theorem emitsFor_of_value {e : Ir.Expr}
    (hv : ∀ code, p.valueCode e = .ok code → p.EmitsAll reads code)
    (hbase : ∀ {w w' a k}, e = .bin w .add a (.int w' k) → p.EmitsFor reads a) :
    p.EmitsFor reads e := by
  refine ⟨hv, fun code m h => ?_⟩
  rcases addressCode_eq_ok h with ⟨-, rfl⟩ | ⟨hc, -⟩ | ⟨w, w', a, k, m₀, rfl, hc, -⟩
  · exact .nil
  · exact hv code hc
  · exact (hbase rfl).2 code m₀ hc

mutual

/-- What the code of an expression consists of. -/
theorem exprCode_emits : (e : Ir.Expr) → p.EmitsFor e.reads e
  | .int w v => by
    refine emitsFor_of_value (fun code h => ?_) (fun h => nomatch h)
    obtain ⟨_, -, h⟩ := bind_eq_ok_iff.1 h
    cases h
    exact .single (.literal ..)
  | .str w i => by
    refine emitsFor_of_value (fun code h => ?_) (fun h => nomatch h)
    obtain ⟨_, -, h⟩ := bind_eq_ok_iff.1 h
    obtain ⟨_, -, h⟩ := bind_eq_ok_iff.1 h
    cases h
    exact .single (.literal ..)
  | .var w v => by
    refine emitsFor_of_value (fun code h => ?_) (fun h => nomatch h)
    obtain ⟨ax, hax, h⟩ := bind_eq_ok_iff.1 h
    obtain ⟨e, he, h⟩ := bind_eq_ok_iff.1 h
    obtain ⟨st, hst, h⟩ := bind_eq_ok_iff.1 h
    obtain ⟨hw, rfl⟩ := RegisterClass.view_eq_ok_iff.1 hax
    cases h
    exact .single (.load (List.mem_singleton_self _) he hst)
  | .addr w v => by
    refine emitsFor_of_value (fun code h => ?_) (fun h => nomatch h)
    obtain ⟨_, -, h⟩ := bind_eq_ok_iff.1 h
    exact emits_entityAddressCode h
  | .mem w a => by
    refine emitsFor_of_value (fun code h => ?_) (fun h => nomatch h)
    obtain ⟨_, -, h⟩ := bind_eq_ok_iff.1 h
    obtain ⟨⟨ca, m⟩, ha, h⟩ := bind_eq_ok_iff.1 h
    cases h
    -- what is read to find the address may be read for the value as well
    have hinner := (exprCode_emits a).mono fun x hx => List.mem_cons_of_mem (.mem w a) hx
    exact (hinner.2 ca m ha).append (.single (.fetch ..))
  | .uni w op e => by
    refine emitsFor_of_value (fun code h => ?_) (fun h => nomatch h)
    obtain ⟨_, -, h⟩ := bind_eq_ok_iff.1 h
    exact emits_unaryCode (exprCode_emits e).1 h
  | .bin w op l r => by
    have hl := (exprCode_emits l).mono fun x hx => List.mem_append_left r.reads hx
    have hr := (exprCode_emits r).mono fun x hx => List.mem_append_right l.reads hx
    refine emitsFor_of_value (fun code h => ?_) ?_
    · obtain ⟨_, -, h⟩ := bind_eq_ok_iff.1 h
      exact emits_binaryCode hl.1 hr.1 h
    -- only a sum with a constant continues the code of its base
    · rintro _ _ _ _ ⟨⟩
      exact hl
  | .call w f args => by
    have hf := (exprCode_emits f).mono
      fun x hx => List.mem_append_left (Ir.Expr.readsOfAll args) hx
    refine emitsFor_of_value (fun code h => ?_) (fun h => nomatch h)
    obtain ⟨_, -, h⟩ := bind_eq_ok_iff.1 h
    obtain ⟨ca, hca, h⟩ := bind_eq_ok_iff.1 h
    obtain ⟨ct, hct, h⟩ := bind_eq_ok_iff.1 h
    cases h
    have hargs := (argumentCode_emits args ca hca).mono
      fun x hx => List.mem_append_right f.reads hx
    exact (hargs.append (emits_transferCode hf.1 hct)).append emits_cleanUp

/-- Arguments are code of expressions and pushes. -/
theorem argumentCode_emits : (es : List Ir.Expr) →
    ∀ code, p.argumentCode es = .ok code → p.EmitsAll (Ir.Expr.readsOfAll es) code
  | [] => by
    intro code h
    cases h
    exact .nil
  | e :: es => by
    intro code h
    obtain ⟨later, hlater, h⟩ := bind_eq_ok_iff.1 h
    obtain ⟨ce, hce, h⟩ := bind_eq_ok_iff.1 h
    cases h
    have hlater := (argumentCode_emits es later hlater).mono
      fun x hx => List.mem_append_right e.reads hx
    have he := (exprCode_emits e).mono
      fun x hx => List.mem_append_left (Ir.Expr.readsOfAll es) hx
    exact (hlater.append (he.1 ce hce)).append (.single .push)

end

/-- The code of an expression consists of instructions that are no jumps to labels. -/
theorem exprCode_solid (e : Ir.Expr) :
    (∀ code, p.valueCode e = .ok code → code.Solid) ∧
      ∀ code m, p.addressCode e = .ok (code, m) → code.Solid :=
  ⟨fun code h => ((exprCode_emits e).1 code h).solid,
    fun code m h => ((exprCode_emits e).2 code m h).solid⟩

/-! ## Statements -/

/-- A store reads its target and its value. -/
theorem storeCode_emits {target value : Ir.Expr} (h : p.storeCode target value = .ok code) :
    p.EmitsAll (target.reads ++ value.reads) code := by
  have ht := (exprCode_emits (p := p) target).mono fun x hx => List.mem_append_left value.reads hx
  have hv := (exprCode_emits (p := p) value).mono fun x hx => List.mem_append_right target.reads hx
  obtain ⟨m?, -, h⟩ := bind_eq_ok_iff.1 h
  cases m? with
  | some m =>
    obtain ⟨cv, hcv, h⟩ := bind_eq_ok_iff.1 h
    obtain ⟨_, -, h⟩ := bind_eq_ok_iff.1 h
    cases h
    exact (hv.1 cv hcv).append (.single (.store ..))
  | none =>
    obtain ⟨cv, hcv, h⟩ := bind_eq_ok_iff.1 h
    obtain ⟨⟨ca, m⟩, hca, h⟩ := bind_eq_ok_iff.1 h
    obtain ⟨_, -, h⟩ := bind_eq_ok_iff.1 h
    cases h
    exact (((hv.1 cv hcv).append (.single .push)).append (ht.2 ca m hca)).append
      (.cons .pop (.single (.store ..)))

/-- A test reads the expression that is tested. -/
theorem testCode_emits {test : Ir.Expr} {c : Condition} (h : p.testCode test = .ok (code, c)) :
    p.EmitsAll test.reads code := by
  have hplain : ∀ {code c}, ((do
      let code ← p.valueCode test
      let ax ← RegisterClass.ax.view test.width
      return (code ++ [.inst (.binary .test (.reg ax) (.reg ax))], .ne)) :
        Except Fault (Listing × Condition)) = .ok (code, c) → p.EmitsAll test.reads code := by
    intro code c h
    obtain ⟨ct, hct, h⟩ := bind_eq_ok_iff.1 h
    obtain ⟨_, -, h⟩ := bind_eq_ok_iff.1 h
    cases h
    exact ((exprCode_emits test).1 ct hct).append (.single (.registers rfl rfl))
  unfold testCode at h
  split at h
  · next w op l r =>
    split at h
    · obtain ⟨cmp, hcmp, h⟩ := bind_eq_ok_iff.1 h
      cases h
      have hl := (exprCode_emits (p := p) l).mono fun x hx => List.mem_append_left r.reads hx
      have hr := (exprCode_emits (p := p) r).mono fun x hx => List.mem_append_right l.reads hx
      exact emits_compareCode hl.1 hr.1 hcmp
    · exact hplain h
  · exact hplain h

theorem storeCode_solid {target value : Ir.Expr} {code : Listing}
    (h : p.storeCode target value = .ok code) : code.Solid :=
  (storeCode_emits h).solid

theorem testCode_solid {test : Ir.Expr} {code : Listing} {c : Condition}
    (h : p.testCode test = .ok (code, c)) : code.Solid :=
  (testCode_emits h).solid

theorem exprCode_plain (e : Ir.Expr) :
    (∀ code, p.valueCode e = .ok code → code.Plain) ∧
      ∀ code m, p.addressCode e = .ok (code, m) → code.Plain :=
  ⟨fun code h => ((exprCode_solid e).1 code h).plain,
    fun code m h => ((exprCode_solid e).2 code m h).plain⟩

theorem storeCode_plain {target value : Ir.Expr} {code : Listing}
    (h : p.storeCode target value = .ok code) : code.Plain :=
  (storeCode_solid h).plain

theorem testCode_plain {test : Ir.Expr} {code : Listing} {c : Condition}
    (h : p.testCode test = .ok (code, c)) : code.Plain :=
  (testCode_solid h).plain

variable {options : AssemblyOptions} {epilogue : Ir.Label}

/-- Comments are plain. -/
theorem comment_plain {s : Ir.Stmt} : Plain (s.comment options) := by
  unfold Ir.Stmt.comment
  split
  · split
    · exact .single rfl
    · exact .nil
  · exact .nil

/-- Only a label statement places a label, and it is the label of that statement. -/
theorem labels_actionCode {a : Ir.Action} {code : Listing}
    (h : p.actionCode epilogue a = .ok code) :
    code.labels = (Ir.Stmt.placed? ⟨a, none⟩).toList.map (·.render) := by
  -- only placing a label defines one
  cases a with
  | eval e => exact ((exprCode_plain e).1 code h).labels
  | assign => exact (storeCode_plain h).labels
  | jump | label =>
    cases h
    rfl
  | branch =>
    obtain ⟨⟨ct, c⟩, hct, h⟩ := bind_eq_ok_iff.1 h
    cases h
    rw [Listing.labels_append, (testCode_plain hct).labels]
    rfl
  | ret e =>
    cases e with
    | none =>
      cases h
      rfl
    | some e =>
      obtain ⟨ce, hce, h⟩ := bind_eq_ok_iff.1 h
      cases h
      rw [Listing.labels_append, ((exprCode_plain e).1 ce hce).labels]
      rfl

/-- The only label in the code of a statement is the one that the statement places. -/
theorem labels_stmtCode {s : Ir.Stmt} {code : Listing}
    (h : p.stmtCode options epilogue s = .ok code) :
    code.labels = s.placed?.toList.map (·.render) := by
  obtain ⟨ca, hca, h⟩ := bind_eq_ok_iff.1 h
  cases h
  rw [Listing.labels_append, comment_plain.labels, labels_actionCode hca]
  rfl

/-- The labels of the code of a body are those that its statements place. -/
theorem labels_bodyCode {body : List Ir.Stmt} {code : Listing}
    (h : p.bodyCode options epilogue body = .ok code) :
    code.labels = (body.filterMap (·.placed?)).map (·.render) := by
  induction body generalizing code with
  | nil =>
    cases h
    rfl
  | cons s body ih =>
    obtain ⟨cs, hcs, h⟩ := bind_eq_ok_iff.1 h
    obtain ⟨cb, hcb, h⟩ := bind_eq_ok_iff.1 h
    cases h
    rw [Listing.labels_append, labels_stmtCode hcs, ih hcb]
    cases hp : s.placed? with
    | none => simp [hp]
    | some l => simp [hp]

end Placement

/-- Distinct labels have distinct names. -/
theorem Ir.Label.render_injective : Function.Injective Ir.Label.render := by
  intro a b h
  have hlist : Nat.toDigits 10 a.index = Nat.toDigits 10 b.index := by
    simpa [Ir.Label.render, ← String.toList_inj] using h
  have hindex := congrArg (Nat.ofDigitChars 10 · 0) hlist
  rw [Nat.ofDigitChars_ten_toDigits, Nat.ofDigitChars_ten_toDigits] at hindex
  cases a
  cases b
  exact congrArg _ hindex

namespace Placement

variable {p : Placement} {options : AssemblyOptions} {epilogue : Ir.Label}

/-- What follows a label in the code of a body is the code of what follows it in the body. -/
theorem after?_bodyCode {l : Ir.Label} {body rest : List Ir.Stmt} {code : Listing}
    (h : p.bodyCode options epilogue body = .ok code) (hrest : Ir.after? l body = some rest) :
    ∃ pre code', p.bodyCode options epilogue rest = .ok code' ∧
      code.after? l.render = some code' ∧ code = pre ++ code' := by
  -- by induction on the body: its statements stand in the code one after another
  induction body generalizing code with
  | nil => cases hrest
  | cons s body ih =>
    obtain ⟨cs, hcs, h⟩ := bind_eq_ok_iff.1 h
    obtain ⟨cb, hcb, h⟩ := bind_eq_ok_iff.1 h
    cases h
    rw [Ir.after?] at hrest
    split at hrest
    -- the label is placed by the first statement, whose code is nothing else
    · rename_i hplaced
      cases hrest
      refine ⟨cs, cb, hcb, ?_, rfl⟩
      obtain ⟨a, loc⟩ := s
      cases a <;> cases hplaced
      have hcode : cs = [.label l.render] := by
        obtain ⟨ca, hca, h⟩ := bind_eq_ok_iff.1 hcs
        cases h
        cases hca
        cases loc <;> simp [Ir.Stmt.comment, Ir.Stmt.placed?]
      rw [hcode, List.singleton_append, Listing.after?, if_pos rfl]
    -- it is placed later, and the code of the first statement defines another label at most
    · rename_i hplaced
      obtain ⟨pre, code', hcode', hafter, rfl⟩ := ih hcb hrest
      refine ⟨cs ++ pre, code', hcode', ?_, by simp⟩
      rw [Listing.after?_append_of_notMem, hafter]
      rw [labels_stmtCode hcs]
      simp only [List.mem_map, Option.mem_toList]
      rintro ⟨l', hl', hrender⟩
      exact hplaced (Ir.Label.render_injective hrender ▸ hl')

end Placement

end Backend386
