import Backend386.Proofs.I386.Jumps

/-!
# Emitted instructions are well formed

What an instruction may be is said by itself: how many of its operands are in memory, what it may
write, which operands have to be registers and of which size, and what stands in front of the width
letter of its mnemonic. Of all instructions that a module is assembled to, only the load of a
variable depends on where an entity is kept, and no pass of the generator keeps one in a register.

* `Instruction.WellFormed` — an instruction that the assembler takes for what is meant;
* `Placement.Emits.wellFormed` — each form of instruction in the code of an expression;
* `EntityTable.KeptAt` — a variable that is kept in a register is read at the width of the register;
* `Ir.Module.assemble_wellFormed` — every instruction of a module.
-/

namespace Backend386

/-! ## Well-formed instructions -/

namespace Operand

/-- A reference to memory. -/
def isMemory : Operand → Bool
  | mem _ => true
  | _ => false

/-- A register or a place in memory. -/
def Writable (o : Operand) : Prop :=
  (∃ r, o = .reg r) ∨ ∃ m, o = .mem m

/-- A register of 32 bits. -/
def IsWord (o : Operand) : Prop :=
  ∃ r, o = .reg r ∧ r.size = .w32

/-- What the number of bits to shift by may be. -/
def IsShiftCount (o : Operand) : Prop :=
  (∃ i, o = .imm i) ∨ o = .reg .cl

end Operand

namespace Instruction

/-- The operand that an instruction writes, or compares with its source. -/
def written? : Instruction → Option Operand
  | pop a | set _ a | unary .neg a | unary .not a => some a
  | lea _ a | extend _ _ _ a | binary _ _ a => some a
  | _ => none

/-- The operands are of the kinds and sizes that the instruction takes. -/
def OperandsFit : Instruction → Prop
  | jmp a | jcc _ a => ∃ l, a = .target l
  | call a => (∃ f, a = .target f) ∨ a.IsWord
  | push a | pop a | unary .idiv a | unary .div a => a.IsWord
  | lea src dst => (∃ m, src = .mem m) ∧ dst.IsWord
  | extend _ narrow src dst => ∃ s d : Register, src = .reg s ∧ dst = .reg d ∧ s.cls = d.cls ∧
      s.size = narrow ∧ s.size.bytes < d.size.bytes
  | set _ a => a = .reg .al
  | binary op src dst =>
    if op.isShift then src.IsShiftCount
    else ∀ s d : Register, src = .reg s → dst = .reg d → s.size = d.size
  | unary .neg _ | unary .not _ | ret | cltd => True

/-- What stands in front of the width letter of the mnemonic, where there is one. An extension also
has a letter for the width that it starts from. -/
def stem? : Instruction → Option String
  | push _ => some "push"
  | pop _ => some "pop"
  | lea .. => some "lea"
  | extend true narrow .. => some ("movs" ++ narrow.suffix)
  | extend false narrow .. => some ("movz" ++ narrow.suffix)
  | unary op _ => some op.render
  | binary op .. => some op.render
  | jmp _ | jcc .. | call _ | ret | cltd | set .. => none

/-- The width of the value that an instruction works on: that of the destination, or of the source
where the destination is in memory. -/
def valueWidth? : Instruction → Option Width
  | push (.reg r) | pop (.reg r) | unary _ (.reg r) => some r.size
  | lea _ (.reg r) | extend _ _ _ (.reg r) | binary _ _ (.reg r) => some r.size
  | binary _ (.reg r) (.mem _) => some r.size
  | _ => none

/-- The assembler takes the instruction, and for what is meant. -/
structure WellFormed (i : Instruction) : Prop where
  memory : i.operands.countP Operand.isMemory ≤ 1
  destination : ∀ o, i.written? = some o → o.Writable
  operands : i.OperandsFit
  mnemonic : ∀ stem, i.stem? = some stem →
    ∃ w, i.valueWidth? = some w ∧ i.mnemonic = stem ++ w.suffix

namespace WellFormed

/-- An instruction whose mnemonic has no width letter, and that writes no operand. -/
theorem of_plain {i : Instruction} (hstem : i.stem? = none) (hwritten : i.written? = none)
    (hmemory : i.operands.countP Operand.isMemory ≤ 1) (hfit : i.OperandsFit) : i.WellFormed where
  memory := hmemory
  destination := by simp [hwritten]
  operands := hfit
  mnemonic := by simp [hstem]

theorem jmp (l : String) : (Instruction.jmp (.target l)).WellFormed :=
  of_plain rfl rfl (Nat.zero_le _) ⟨l, rfl⟩

theorem jcc (c : Condition) (l : String) : (Instruction.jcc c (.target l)).WellFormed :=
  of_plain rfl rfl (Nat.zero_le _) ⟨l, rfl⟩

theorem ret : Instruction.ret.WellFormed :=
  of_plain rfl rfl (Nat.zero_le _) trivial

theorem cltd : Instruction.cltd.WellFormed :=
  of_plain rfl rfl (Nat.zero_le _) trivial

theorem callSymbol (f : String) : (Instruction.call (.target f)).WellFormed :=
  of_plain rfl rfl (Nat.zero_le _) (.inl ⟨f, rfl⟩)

theorem callAddress : (Instruction.call (.reg .eax)).WellFormed :=
  of_plain rfl rfl (Nat.zero_le _) (.inr ⟨.eax, rfl, rfl⟩)

/-- Whole registers are pushed. -/
theorem push {r : Register} (hr : r.size = .w32) : (Instruction.push (.reg r)).WellFormed where
  memory := Nat.zero_le _
  destination := by rintro _ ⟨⟩
  operands := ⟨r, rfl, hr⟩
  mnemonic := by
    rintro _ ⟨⟩
    exact ⟨r.size, rfl, by rw [hr]; rfl⟩

/-- So are they popped. -/
theorem pop {r : Register} (hr : r.size = .w32) : (Instruction.pop (.reg r)).WellFormed where
  memory := Nat.zero_le _
  destination := by
    rintro _ ⟨⟩
    exact .inl ⟨r, rfl⟩
  operands := ⟨r, rfl, hr⟩
  mnemonic := by
    rintro _ ⟨⟩
    exact ⟨r.size, rfl, by rw [hr]; rfl⟩

/-- An address is computed into a whole register. -/
theorem lea (m : MemRef) : (Instruction.lea (.mem m) (.reg .eax)).WellFormed where
  memory := le_rfl
  destination := by
    rintro _ ⟨⟩
    exact .inl ⟨.eax, rfl⟩
  operands := ⟨⟨m, rfl⟩, .eax, rfl, rfl⟩
  mnemonic := by
    rintro _ ⟨⟩
    exact ⟨.w32, rfl, rfl⟩

/-- A register is extended to a wider one of its class. -/
theorem extend {s d : Register} (signed : Bool) (hcls : s.cls = d.cls)
    (hlt : s.size.bytes < d.size.bytes) :
    (Instruction.extend signed s.size (.reg s) (.reg d)).WellFormed where
  memory := Nat.zero_le _
  destination := by
    rintro _ ⟨⟩
    exact .inl ⟨d, rfl⟩
  operands := ⟨s, d, rfl, rfl, hcls, rfl, hlt⟩
  mnemonic := by
    cases signed <;>
    · rintro _ ⟨⟩
      exact ⟨d.size, rfl, rfl⟩

/-- A condition sets a byte. -/
theorem set (c : Condition) : (Instruction.set c (.reg .al)).WellFormed where
  memory := Nat.zero_le _
  destination := by
    rintro _ ⟨⟩
    exact .inl ⟨.al, rfl⟩
  operands := rfl
  mnemonic := by rintro _ ⟨⟩

/-- An operation on one register. Divisors have 32 bits. -/
theorem unary {op : UnaryInst} {r : Register} (hsize : op = .idiv ∨ op = .div → r.size = .w32) :
    (Instruction.unary op (.reg r)).WellFormed where
  memory := Nat.zero_le _
  destination := by
    intro o ho
    cases op <;> cases ho <;> exact .inl ⟨r, rfl⟩
  operands := by
    cases op with
    | idiv => exact ⟨r, rfl, hsize (.inl rfl)⟩
    | div => exact ⟨r, rfl, hsize (.inr rfl)⟩
    | neg | not => trivial
  mnemonic := by
    rintro _ ⟨⟩
    exact ⟨r.size, rfl, rfl⟩

/-- An operation on a register: a shift has a count, and other registers have the same size. -/
theorem binary {op : BinaryInst} {src : Operand} {d : Register}
    (hcount : op.isShift = true → src.IsShiftCount)
    (hsize : op.isShift = false → ∀ s : Register, src = .reg s → s.size = d.size) :
    (Instruction.binary op src (.reg d)).WellFormed where
  memory := by cases src <;> simp [Instruction.operands, Operand.isMemory, List.countP_cons]
  destination := by
    rintro _ ⟨⟩
    exact .inl ⟨d, rfl⟩
  operands := by
    cases hop : op.isShift with
    | true =>
      rw [OperandsFit, if_pos hop]
      exact hcount hop
    | false =>
      rw [OperandsFit, hop, if_neg Bool.false_ne_true]
      rintro s _ hs ⟨⟩
      exact hsize hop s hs
  mnemonic := by
    rintro _ ⟨⟩
    exact ⟨d.size, rfl, rfl⟩

theorem literal (op : BinaryInst) (i : Immediate) (d : Register) :
    (Instruction.binary op (.imm i) (.reg d)).WellFormed :=
  binary (fun _ => .inl ⟨i, rfl⟩) nofun

theorem registers {op : BinaryInst} {s d : Register} (hop : op.isShift = false)
    (hsize : s.size = d.size) : (Instruction.binary op (.reg s) (.reg d)).WellFormed :=
  binary (fun hshift => by simp [hop] at hshift) fun _ _ hs => Operand.reg.inj hs ▸ hsize

/-- A register is stored to memory. -/
theorem store (r : Register) (m : MemRef) :
    (Instruction.binary .mov (.reg r) (.mem m)).WellFormed where
  memory := le_rfl
  destination := by
    rintro _ ⟨⟩
    exact .inr ⟨m, rfl⟩
  operands := by
    rintro _ _ _ ⟨⟩
  mnemonic := by
    rintro _ ⟨⟩
    exact ⟨r.size, rfl, rfl⟩

end WellFormed

end Instruction

/-! ## What is kept in registers -/

namespace EntityTable

variable {t t' t'' : EntityTable}

/-- If a variable is kept in a register, it is read at the width of the register. -/
def KeptAt (t : EntityTable) (w : Width) (v : EntityId) : Prop :=
  ∀ e r, t.get v = .ok e → e.storage = .settled (.register r) → r.size = w

theorem keptAt_of_forall_ne (h : ∀ e ∈ t.entries, ∀ r, e.storage ≠ .settled (.register r))
    (w : Width) (v : EntityId) : t.KeptAt w v :=
  fun e r he hst => (h e (mem_of_get he) r hst).elim

/-- Whatever is kept in a register was kept there before. -/
def RegistersFrom (t t' : EntityTable) : Prop :=
  ∀ id e r, t'.get id = .ok e → e.storage = .settled (.register r) →
    ∃ e₀, t.get id = .ok e₀ ∧ e₀.storage = .settled (.register r)

theorem KeptAt.later {w : Width} {v : EntityId} (h : t.KeptAt w v) (hr : RegistersFrom t t') :
    t'.KeptAt w v := by
  intro e r he hst
  obtain ⟨e₀, he₀, hst₀⟩ := hr v e r he hst
  exact h e₀ r he₀ hst₀

namespace RegistersFrom

theorem refl (t : EntityTable) : RegistersFrom t t :=
  fun _ e _ he hst => ⟨e, he, hst⟩

theorem trans (h : RegistersFrom t t') (h' : RegistersFrom t' t'') : RegistersFrom t t'' := by
  intro id e r he hst
  obtain ⟨e₁, he₁, hst₁⟩ := h' id e r he hst
  exact h id e₁ r he₁ hst₁

/-- Storage in memory puts no entity into a register. -/
theorem of_place {id : EntityId} {storage : Storage} (h : t.place id storage = .ok t')
    (hstorage : ∀ r, storage ≠ .register r) : RegistersFrom t t' := by
  obtain ⟨e, he, -, rfl⟩ := place_eq_ok h
  intro id' e' r he' hst
  by_cases heq : id' = id
  · subst heq
    rw [get_set_self (lt_of_get he)] at he'
    obtain rfl := Except.ok.inj he'
    exact (hstorage r (Deferred.settled.inj hst)).elim
  · rw [get_set_of_ne heq] at he'
    exact ⟨e', he', hst⟩

end RegistersFrom

end EntityTable

namespace Placement

variable {p p' : Placement} {types : TypeTable} {options : AssemblyOptions} {epilogue : Ir.Label}
  {code : Listing} {reads : List Ir.Expr}

open EntityTable (RegistersFrom)

/-- The same for a placement. -/
theorem registersFrom_place {id : EntityId} {storage : Storage}
    (h : p.place id storage = .ok p') (hstorage : ∀ r, storage ≠ .register r) :
    RegistersFrom p.entities p'.entities := by
  obtain ⟨t, ht, h⟩ := bind_eq_ok_iff.1 h
  cases h
  exact .of_place ht hstorage

/-- Nothing that has static storage is kept in a register. -/
theorem registersFrom_module {m : Ir.Module} (h : m.place = .ok p) :
    RegistersFrom m.entities p.entities := by
  obtain ⟨p₁, h₁, h⟩ := bind_eq_ok_iff.1 h
  obtain ⟨p₂, h₂, h₃⟩ := bind_eq_ok_iff.1 h
  have hloop {α : Type} {step : Placement → α → Except Fault Placement} {l : List α}
      {p p' : Placement} (hstep : ∀ {p a p'}, step p a = .ok p' →
        RegistersFrom p.entities p'.entities) (h : l.foldlM step p = .ok p') :
      RegistersFrom p.entities p'.entities :=
    foldlM_relates (R := fun p p' => RegistersFrom p.entities p'.entities) (fun _ => .refl _)
      .trans hstep h
  refine (hloop (fun hv => ?_) h₁).trans ((hloop (fun hid => ?_) h₂).trans
    (hloop (fun hc => ?_) h₃))
  · obtain ⟨symbol, -, hplace⟩ := bind_eq_ok_iff.1 hv
    exact registersFrom_place hplace nofun
  · obtain ⟨e, -, hplace⟩ := bind_eq_ok_iff.1 hid
    refine registersFrom_place hplace fun r => ?_
    split <;> exact nofun
  · obtain ⟨_, _, -, -, hplace⟩ := placeConstant_eq_ok hc
    exact registersFrom_place hplace nofun

/-- Nothing in a frame is kept in a register. -/
theorem registersFrom_functionCode {f : Ir.Function}
    (h : p.functionCode types options epilogue f = .ok (p', code)) :
    RegistersFrom p.entities p'.entities := by
  obtain ⟨e, he, h⟩ := bind_eq_ok_iff.1 h
  dsimp only at h
  split at h
  · cases h
  obtain ⟨frame, -, h⟩ := bind_eq_ok_iff.1 h
  obtain ⟨t, ht, h⟩ := bind_eq_ok_iff.1 h
  obtain ⟨body, -, h⟩ := bind_eq_ok_iff.1 h
  obtain ⟨rfl, -⟩ := Prod.mk.inj (Except.ok.inj h)
  exact foldlM_relates .refl .trans (fun hslot => .of_place hslot nofun) ht

end Placement

/-! ## Emitted instructions -/

/-- The instruction, if the item is one, is well formed. -/
def Item.WellFormed (x : Item) : Prop :=
  ∀ i, x = .inst i → i.WellFormed

theorem Item.WellFormed.inst {i : Instruction} (h : i.WellFormed) : (Item.inst i).WellFormed := by
  rintro _ ⟨⟩
  exact h

theorem Item.WellFormed.of_isData {x : Item} (h : x.isData = true) : x.WellFormed := by
  rintro _ rfl
  cases h

namespace Placement

variable {p p' : Placement} {types : TypeTable} {options : AssemblyOptions} {epilogue : Ir.Label}
  {code : Listing} {reads : List Ir.Expr}

/-- What expressions consist of is well formed. A variable may be kept anywhere, in a register of
the right size too. -/
theorem Emits.wellFormed {x : Item} (h : p.Emits reads x)
    (hreads : ∀ w v, .var w v ∈ reads → p.entities.KeptAt w v) : x.WellFormed := by
  -- one case per form of instruction that the generator emits
  cases h with
  -- only a load can have a register as its source: the one that a variable is kept in
  | @load w v e st hw hread he hst =>
    refine .inst (.binary nofun fun _ s hs => ?_)
    refine hreads w v hread e s he (Entity.getStorage_eq_ok_iff.1 hst |>.trans ?_)
    cases st with
    | register r =>
      obtain rfl := Operand.reg.inj hs
      rfl
    | _ => cases hs
  | literal op i r => exact .inst (.literal op i r)
  | registers hop hsize => exact .inst (.registers hop hsize)
  | shift hop dst =>
    exact .inst (.binary (fun _ => .inr rfl) fun hnot => by simp [hop] at hnot)
  | fetch m dst => exact .inst (.binary nofun nofun)
  | store src m => exact .inst (.store src m)
  | address m => exact .inst (.lea m)
  | @extend c narrow wide hn hw signed hlt =>
    exact .inst (.extend (s := ⟨c, narrow, hn⟩) (d := ⟨c, wide, hw⟩) signed rfl hlt)
  | set c => exact .inst (.set c)
  | cltd => exact .inst .cltd
  | divide => exact .inst (.unary fun _ => rfl)
  | complement hop r =>
    refine .inst (.unary fun hdiv => ?_)
    rcases hop with rfl | rfl <;> simp at hdiv
  | push => exact .inst (.push rfl)
  | pop => exact .inst (.pop rfl)
  | callSymbol f => exact .inst (.callSymbol f)
  | callAddress => exact .inst .callAddress

theorem EmitsAll.wellFormed (h : p.EmitsAll reads code)
    (hreads : ∀ w v, .var w v ∈ reads → p.entities.KeptAt w v) : ∀ x ∈ code, x.WellFormed :=
  fun x hx => (h x hx).wellFormed hreads

/-- A statement consists of such instructions if the variables that it reads are kept in memory. -/
theorem wellFormed_actionCode {a : Ir.Action} (h : p.actionCode epilogue a = .ok code)
    (hreads : ∀ w v, .var w v ∈ a.reads → p.entities.KeptAt w v) : ∀ x ∈ code, x.WellFormed := by
  -- expressions emit such instructions; what a statement adds are jumps and labels
  cases a with
  | eval e => exact ((exprCode_emits e).1 code h).wellFormed hreads
  | assign target value => exact (storeCode_emits h).wellFormed hreads
  | jump l =>
    cases h
    exact List.forall_mem_singleton.2 (.inst (.jmp _))
  | branch test yes no =>
    obtain ⟨⟨ct, c⟩, hct, h⟩ := bind_eq_ok_iff.1 h
    cases h
    refine List.forall_mem_append.2 ⟨(testCode_emits hct).wellFormed hreads, ?_⟩
    exact List.forall_mem_cons.2 ⟨.inst (.jcc ..), List.forall_mem_singleton.2 (.inst (.jmp _))⟩
  | label l =>
    cases h
    exact List.forall_mem_singleton.2 (.of_isData rfl)
  | ret e =>
    cases e with
    | none =>
      cases h
      exact List.forall_mem_singleton.2 (.inst (.jmp _))
    | some e =>
      obtain ⟨ce, hce, h⟩ := bind_eq_ok_iff.1 h
      cases h
      exact List.forall_mem_append.2 ⟨((exprCode_emits e).1 ce hce).wellFormed hreads,
        List.forall_mem_singleton.2 (.inst (.jmp _))⟩

/-- So does its code with a comment in front. -/
theorem wellFormed_stmtCode {s : Ir.Stmt} (h : p.stmtCode options epilogue s = .ok code)
    (hreads : ∀ w v, .var w v ∈ s.action.reads → p.entities.KeptAt w v) :
    ∀ x ∈ code, x.WellFormed := by
  obtain ⟨ca, hca, h⟩ := bind_eq_ok_iff.1 h
  cases h
  refine List.forall_mem_append.2 ⟨fun x hx => ?_, wellFormed_actionCode hca hreads⟩
  unfold Ir.Stmt.comment at hx
  rintro _ rfl
  split at hx
  · split at hx <;> simp at hx
  · cases hx

/-- So does a body. -/
theorem wellFormed_bodyCode {body : List Ir.Stmt} (h : p.bodyCode options epilogue body = .ok code)
    (hreads : ∀ s ∈ body, ∀ w v, .var w v ∈ s.action.reads → p.entities.KeptAt w v) :
    ∀ x ∈ code, x.WellFormed := by
  induction body generalizing code with
  | nil =>
    cases h
    exact List.forall_mem_nil _
  | cons s body ih =>
    obtain ⟨cs, hcs, h⟩ := bind_eq_ok_iff.1 h
    obtain ⟨cb, hcb, h⟩ := bind_eq_ok_iff.1 h
    cases h
    obtain ⟨hs, hbody⟩ := List.forall_mem_cons.1 hreads
    exact List.forall_mem_append.2 ⟨wellFormed_stmtCode hcs hs, ih hcb hbody⟩

/-- The frame is set up by such instructions. -/
theorem wellFormed_prologue (frame : Nat) : ∀ x ∈ prologue frame, x.WellFormed := by
  unfold prologue
  refine List.forall_mem_append.2 ⟨?_, ?_⟩
  · exact List.forall_mem_cons.2 ⟨.inst (.push rfl),
      List.forall_mem_singleton.2 (.inst (.registers rfl rfl))⟩
  · split
    · exact List.forall_mem_singleton.2 (.inst (.literal ..))
    · exact List.forall_mem_nil _

theorem wellFormed_epilogueCode (l : Ir.Label) : ∀ x ∈ epilogueCode l, x.WellFormed := by
  simp only [epilogueCode, List.forall_mem_cons]
  exact ⟨.of_isData rfl, .inst (.registers rfl rfl), .inst (.pop rfl), .inst .ret,
    List.forall_mem_nil _⟩

/-- Every instruction of a function is well formed. -/
theorem wellFormed_functionCode {f : Ir.Function}
    (h : p.functionCode types options epilogue f = .ok (p', code))
    (hreads : ∀ s ∈ f.body.toList, ∀ w v, .var w v ∈ s.action.reads → p.entities.KeptAt w v) :
    ∀ x ∈ code, x.WellFormed := by
  have hregisters := registersFrom_functionCode h
  obtain ⟨-, e, -, ⟨parts⟩⟩ := functionParts h
  have hbody := wellFormed_bodyCode parts.bodyCode
    fun s hs w v hv => (hreads s hs w v hv).later hregisters
  have hkept : ∀ x ∈ dropJumps epilogue.render parts.body, x.WellFormed :=
    fun x hx => hbody x ((dropJumps_sublist ..).mem hx)
  rw [parts.code_eq]
  simp only [List.forall_mem_append, List.forall_mem_cons]
  refine ⟨⟨⟨⟨⟨⟨⟨.of_isData rfl, List.forall_mem_nil _⟩, ?_⟩,
    .of_isData rfl, .of_isData rfl, List.forall_mem_nil _⟩, wellFormed_prologue _⟩, hkept⟩,
    wellFormed_epilogueCode _⟩, .of_isData rfl, List.forall_mem_nil _⟩
  split
  · exact List.forall_mem_nil _
  · exact List.forall_mem_singleton.2 (.of_isData rfl)

/-- All functions of a unit consist of them. -/
theorem wellFormed_functionsCode {labels : Ir.LabelSupply} {fs : List Ir.Function}
    (h : p.functionsCode types options labels fs = .ok code)
    (hreads : ∀ f ∈ fs, ∀ s ∈ f.body.toList, ∀ w v, .var w v ∈ s.action.reads →
      p.entities.KeptAt w v) : ∀ x ∈ code, x.WellFormed := by
  induction fs generalizing p labels code with
  | nil =>
    cases h
    exact List.forall_mem_nil _
  | cons f fs ih =>
    obtain ⟨⟨p₁, cf⟩, hf, h⟩ := bind_eq_ok_iff.1 h
    obtain ⟨rest, hrest, h⟩ := bind_eq_ok_iff.1 h
    cases h
    obtain ⟨hfirst, hlater⟩ := List.forall_mem_cons.1 hreads
    have hregisters := registersFrom_functionCode hf
    refine List.forall_mem_append.2 ⟨wellFormed_functionCode hf hfirst, ih hrest ?_⟩
    exact fun g hg s hs w v hv => (hlater g hg s hs w v hv).later hregisters

end Placement

/-- Every instruction of a module that is assembled is well formed, whatever its functions are: of
its operands at most one is in memory, its destination is a register or memory, its operands are of
the kinds and sizes that it takes, and its width letter is that of the value it works on. The
generator keeps no variable in a register; one that was kept in a register before has to be read at
the width of the register. -/
theorem Ir.Module.assemble_wellFormed {m : Ir.Module} {types : TypeTable}
    {options : AssemblyOptions} {code : Listing} (h : m.assemble types options = .ok code)
    (hreads : ∀ f ∈ m.functions, ∀ s ∈ f.body.toList, ∀ w v, .var w v ∈ s.action.reads →
      m.entities.KeptAt w v) : ∀ i, .inst i ∈ code → i.WellFormed := by
  obtain ⟨p, vars, strings, functions, hp, hvars, hstrings, hfunctions, rfl⟩ := assemble_eq_ok h
  have hregisters := Placement.registersFrom_module hp
  have hdata {data : Listing} (hd : ∀ x ∈ data, x.isData = true) : ∀ x ∈ data, x.WellFormed :=
    fun x hx => .of_isData (hd x hx)
  have hall : ∀ x ∈ fileCode options ++ vars ++ strings ++ functions, x.WellFormed := by
    simp only [List.forall_mem_append]
    exact ⟨⟨⟨hdata (isData_fileCode options), hdata (Placement.isData_variableData hvars)⟩,
      hdata (Placement.isData_stringData hstrings)⟩, Placement.wellFormed_functionsCode hfunctions
        fun f hf s hs w v hv => (hreads f hf s hs w v hv).later hregisters⟩
  exact fun i hi => hall _ hi i rfl

/-- The unit of `nestedCaller`, where a word is narrowed to a byte and one is written as a byte. -/
def nestedUnit : Ir.Module where
  entities := Placement.callerEntities .pending
  functions := [Placement.nestedCaller]

/-- The unit with nested calls is assembled. -/
theorem Ir.Module.assemble_wellFormed_nestedUnit :
    ∃ code, nestedUnit.assemble Placement.wordTypes {} = .ok code ∧
      ∀ i, .inst i ∈ code → i.WellFormed := by
  obtain ⟨code, hcode⟩ : ∃ code, nestedUnit.assemble Placement.wordTypes {} = .ok code := ⟨_, rfl⟩
  refine ⟨code, hcode, assemble_wellFormed hcode fun _ _ _ _ w v _ => ?_⟩
  refine EntityTable.keptAt_of_forall_ne ?_ w v
  simp [nestedUnit, Placement.callerEntities]

end Backend386
