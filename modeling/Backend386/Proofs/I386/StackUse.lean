import Backend386.Proofs.I386.Plain

/-!
# How generated code uses the stack

Code for expressions puts values aside and takes them back, and pushes the arguments of calls, which
are removed once the call has returned. Everything else that it does is done in `eax`, `ecx` and
`edx`. So its shape is that of words in brackets, and how many words are on the stack at once can be
read off the expression.

* `Item.isQuiet` — the instructions that only compute;
* `Listing.Stacked` — the shape of the code of expressions;
* `Ir.Expr.words` — how many words an expression has on the stack at once, calls included;
* `Placement.exprCode_stacked` — the code of every expression has this shape.
-/

namespace Backend386

/-! ## Code that only computes -/

/-- The registers that code for expressions may change. -/
def RegisterClass.isScratch : RegisterClass → Bool
  | ax | cx | dx => true
  | _ => false

/-- A view of one of these registers. -/
def Operand.isScratch : Operand → Bool
  | reg r => r.cls.isScratch
  | _ => false

/-- An instruction that goes on with the next one and changes only `eax`, `ecx`, `edx` and the
flags. -/
def Instruction.isQuiet : Instruction → Bool
  | jmp _ | jcc .. | call _ | ret | push _ | pop _ => false
  | cltd => true
  | lea _ dst | extend _ _ _ dst | unary _ dst | binary _ _ dst | set _ dst => dst.isScratch

/-- An item that is such an instruction, or a comment. -/
def Item.isQuiet : Item → Bool
  | comment _ => true
  | inst i => i.isQuiet
  | _ => false

/-- Code that only computes. -/
def Listing.Quiet (code : Listing) : Prop :=
  ∀ i ∈ code, i.isQuiet = true

namespace Listing.Quiet

variable {a b : Listing}

@[simp] theorem nil : Quiet [] := fun _ h => absurd h List.not_mem_nil

@[simp] theorem cons_iff {i : Item} : Quiet (i :: a) ↔ i.isQuiet = true ∧ Quiet a :=
  List.forall_mem_cons

theorem append (ha : Quiet a) (hb : Quiet b) : Quiet (a ++ b) :=
  List.forall_mem_append.2 ⟨ha, hb⟩

theorem single {i : Item} (h : i.isQuiet = true) : Quiet [i] :=
  cons_iff.2 ⟨h, nil⟩

end Listing.Quiet

open Listing

/-- The view of a scratch register is one of it. -/
theorem RegisterClass.isScratch_of_view {c : RegisterClass} {w : Width} {r : Register}
    (h : c.view w = .ok r) (hc : c.isScratch = true) : (Operand.reg r).isScratch = true := by
  obtain ⟨_, rfl⟩ := RegisterClass.view_eq_ok_iff.1 h
  exact hc

/-- An extension only computes. -/
theorem extendCode_quiet {c : RegisterClass} {narrow w : Width} {signed : Bool} {code : Listing}
    (h : extendCode c narrow w signed = .ok code) (hc : c.isScratch = true) : code.Quiet := by
  unfold extendCode at h
  split at h
  · cases h
    exact .nil
  · obtain ⟨_, -, h⟩ := bind_eq_ok_iff.1 h
    obtain ⟨r, hr, h⟩ := bind_eq_ok_iff.1 h
    cases h
    exact .single (RegisterClass.isScratch_of_view hr hc)

theorem setCode_quiet {c : Condition} {w : Width} {code : Listing} (h : setCode c w = .ok code) :
    code.Quiet := by
  obtain ⟨rest, hrest, h⟩ := bind_eq_ok_iff.1 h
  cases h
  exact Quiet.append (.single rfl) (extendCode_quiet hrest rfl)

/-- So does a division. -/
theorem divideCode_quiet {w : Width} {signed remainder : Bool} {rhs : Operand} {code : Listing}
    (h : divideCode w signed remainder rhs = .ok code) : code.Quiet := by
  obtain ⟨wl, hwl, h⟩ := bind_eq_ok_iff.1 h
  obtain ⟨wr, hwr, h⟩ := bind_eq_ok_iff.1 h
  cases h
  have hload : Quiet (loadDivisor rhs) := by
    cases rhs with
    | imm => exact .single rfl
    | _ => exact .nil
  have hdivide : Quiet (if signed then [.inst .cltd, .inst (.unary .idiv (.reg .ecx))]
      else [.inst (.binary .xor (.reg .edx) (.reg .edx)), .inst (.unary .div (.reg .ecx))]) := by
    cases signed <;> exact Quiet.cons_iff.2 ⟨rfl, .single rfl⟩
  have hpick : Quiet (if remainder then [.mov (.reg .edx) (.reg .eax)] else []) := by
    cases remainder
    · exact .nil
    · exact .single rfl
  exact (((hload.append (extendCode_quiet hwl rfl)).append (extendCode_quiet hwr rfl)).append
    hdivide).append hpick

/-- So does any other operation. -/
theorem applyCode_quiet {w : Width} {op : Ir.Op} {rhs : Operand} {code : Listing}
    (h : applyCode w op rhs = .ok code) : code.Quiet := by
  obtain ⟨ax, hax, h⟩ := bind_eq_ok_iff.1 h
  have hscratch := RegisterClass.isScratch_of_view hax rfl
  cases op
  case sDiv | sMod | uDiv | uMod => exact divideCode_quiet h
  case mul =>
    cases h
    exact .single rfl
  all_goals
    cases h
    try exact .single hscratch

/-- So does the code of an address. -/
theorem entityAddressCode_quiet {p : Placement} {v : EntityId} {code : Listing}
    (h : p.entityAddressCode v = .ok code) : code.Quiet := by
  obtain ⟨e, -, h⟩ := bind_eq_ok_iff.1 h
  obtain ⟨st, -, h⟩ := bind_eq_ok_iff.1 h
  obtain ⟨i?, -, h⟩ := bind_eq_ok_iff.1 h
  split at h
  · cases h
    exact .single rfl
  · cases h
    exact .single rfl
  · cases h

/-- Comments do nothing either. -/
theorem comment_quiet {options : AssemblyOptions} {s : Ir.Stmt} : Quiet (s.comment options) := by
  unfold Ir.Stmt.comment
  split
  · split
    · exact .single rfl
    · exact .nil
  · exact .nil

/-! ## Words in brackets -/

/-- `Stacked m k code`: the code leaves `k` words on the stack and has at most `m` there at once.
Words are pushed from `eax` and taken back into `ecx`, and a call removes the words in front of it,
which are its arguments. -/
inductive Listing.Stacked : Nat → Nat → Listing → Prop where
  | quiet {m : Nat} {code : Listing} (h : code.Quiet) : Stacked m 0 code
  | append {m m' k l : Nat} {a b : Listing} (ha : Stacked m k a) (hb : Stacked m' l b)
    (hm : k + m' ≤ m) : Stacked m (k + l) (a ++ b)
  | push {m : Nat} (hm : 1 ≤ m) : Stacked m 1 [.pushEax]
  | pop {m k : Nat} {code : Listing} (h : Stacked m (k + 1) code) :
    Stacked m k (code ++ [.popEcx])
  /-- the return address is one more word -/
  | call {m n : Nat} {code : Listing} {o : Operand} (h : Stacked m n code) (hn : n + 1 ≤ m) :
    Stacked m 0 (code ++ [.inst (.call o)] ++ cleanUp n)

namespace Listing.Stacked

variable {m m' k : Nat} {a b : Listing}

/-- A bound on the depth may be larger. -/
theorem mono (h : Stacked m k a) (hm : m ≤ m') : Stacked m' k a := by
  induction h generalizing m' with
  | quiet h => exact .quiet h
  | append _ hb hle iha _ => exact .append (iha hm) hb (hle.trans hm)
  | push h => exact .push (h.trans hm)
  | pop _ ih => exact .pop (ih hm)
  | call _ hn ih => exact .call (ih hm) (hn.trans hm)

theorem nil : Stacked m 0 [] := .quiet .nil

/-- Code that leaves nothing, and then more code. -/
theorem seq (ha : Stacked m 0 a) (hb : Stacked m k b) : Stacked m k (a ++ b) := by
  have h := Stacked.append ha hb (Nat.zero_add m).le
  rwa [Nat.zero_add] at h

theorem thenQuiet (ha : Stacked m k a) (hk : k ≤ m) (hb : Quiet b) : Stacked m k (a ++ b) :=
  .append ha (.quiet (m := 0) hb) hk

/-- A value waits on the stack while more code runs. -/
theorem aside {c : Listing} (ha : Stacked m 0 a) (hb : Stacked m' 0 b) (hc : Quiet c)
    (hm : m' + 1 ≤ m) : Stacked m 0 (a ++ [.pushEax] ++ b ++ c ++ [.popEcx]) := by
  have hpush : Stacked m 1 (a ++ [.pushEax]) := ha.seq (.push (by omega))
  have hcode : Stacked m 1 (a ++ [.pushEax] ++ b) := .append hpush hb (by omega)
  exact .pop (hcode.thenQuiet (by omega) hc)

end Listing.Stacked

/-! ## Words of an expression -/

namespace Ir

mutual

/-- How many words the code of an expression has on the stack at once. A call takes one for each
argument and one for the return address. -/
def Expr.words : Expr → Nat
  | .mem _ a => a.words
  | .uni _ _ e => e.words
  | .bin _ _ l r => if r.isLiteral then l.words else max r.words (l.words + 1)
  | .call _ f args => max (argumentWords args) (args.length + f.words + 1)
  | _ => 0

/-- How many words are on the stack at once while the arguments of a call are put there. -/
def Expr.argumentWords : List Expr → Nat
  | [] => 0
  | e :: es => max (argumentWords es) (es.length + e.words + 1)

end

/-- How many words the code of a statement has on the stack at once. -/
def Action.words : Action → Nat
  | eval e => e.words
  | assign target value => max value.words (target.words + 1)
  | branch test _ _ => test.words
  | ret (some e) => e.words
  | _ => 0

/-- Where no calls are nested, the words are those that are put aside. -/
theorem Expr.Consistent.words_eq {e : Expr} (h : e.Consistent) : e.words = e.depth := by
  induction h with
  | int | str | var | addr => simp [words, depth]
  | mem _ _ _ ih | sign _ _ _ _ ih | not _ _ ih | cast _ _ _ ih => simp [words, depth, ih]
  | compare _ _ _ _ _ ihl ihr | arithmetic _ _ _ _ _ _ _ ihl ihr => simp [words, depth, ihl, ihr]

/-- Arguments that are read in their own widths need a word each besides what their code needs. -/
theorem Expr.argumentWords_eq {es : List Expr} (h : ∀ e ∈ es, e.Consistent) :
    argumentWords es = argumentDepth es := by
  induction es with
  | nil => rw [argumentWords, argumentDepth]
  | cons e es ih =>
    obtain ⟨he, hes⟩ := List.forall_mem_cons.1 h
    rw [argumentWords, argumentDepth, ih hes, he.words_eq]

/-- What the code of one argument has on the stack while the later ones are there. -/
theorem Expr.words_le_argumentWords {es : List Expr} {i : Nat} {e : Expr} (h : es[i]? = some e) :
    es.length - (i + 1) + e.words + 1 ≤ argumentWords es := by
  induction es generalizing i with
  | nil => cases h
  | cons e' es ih =>
    rw [argumentWords, List.length_cons]
    cases i with
    | zero =>
      obtain rfl := Option.some.inj h
      omega
    | succ i =>
      have := ih (List.getElem?_cons_succ.symm.trans h)
      omega

end Ir

/-! ## Expressions -/

section Pieces

variable {l r : Ir.Expr} {left right : Except Fault Listing} {w : Width} {op : Ir.Op}
  {code : Listing}

/-- The right operand waits on the stack while the left one is computed. -/
theorem operandsCode_stacked {signed : Bool} {rhs : Operand} {w' : Width}
    (hl : ∀ code, left = .ok code → Stacked l.words 0 code)
    (hr : ∀ code, right = .ok code → Stacked r.words 0 code)
    (h : operandsCode l r left right w signed = .ok (code, rhs)) :
    Stacked (Ir.Expr.bin w' op l r).words 0 code := by
  unfold operandsCode at h
  -- a literal on the right is no code at all
  split at h
  · obtain ⟨cl, hcl, h⟩ := bind_eq_ok_iff.1 h
    obtain ⟨el, hel, h⟩ := bind_eq_ok_iff.1 h
    cases h
    simpa [Ir.Expr.words, Ir.Expr.isLiteral] using
      (hl cl hcl).thenQuiet (Nat.zero_le _) (extendCode_quiet hel rfl)
  · rename_i hlit
    obtain ⟨cr, hcr, h⟩ := bind_eq_ok_iff.1 h
    obtain ⟨er, her, h⟩ := bind_eq_ok_iff.1 h
    obtain ⟨cl, hcl, h⟩ := bind_eq_ok_iff.1 h
    obtain ⟨el, hel, h⟩ := bind_eq_ok_iff.1 h
    obtain ⟨_, -, h⟩ := bind_eq_ok_iff.1 h
    cases h
    -- otherwise the right operand is pushed while the left one is computed
    have hlit' : r.isLiteral = false := by
      cases r <;> first | rfl | exact absurd rfl (hlit _ _)
    have hwords : (Ir.Expr.bin w' op l r).words = max r.words (l.words + 1) := by
      simp [Ir.Expr.words, hlit']
    rw [hwords]
    have hfirst := ((hr cr hcr).mono (le_max_left _ (l.words + 1))).thenQuiet (Nat.zero_le _)
      (extendCode_quiet her rfl)
    exact hfirst.aside (hl cl hcl) (extendCode_quiet hel rfl) (le_max_right _ _)

/-- A comparison needs no more of the stack than its operands. -/
theorem compareCode_stacked {w' : Width}
    (hl : ∀ code, left = .ok code → Stacked l.words 0 code)
    (hr : ∀ code, right = .ok code → Stacked r.words 0 code)
    (h : compareCode op l r left right = .ok code) :
    Stacked (Ir.Expr.bin w' op l r).words 0 code := by
  obtain ⟨⟨operands, rhs⟩, hoperands, h⟩ := bind_eq_ok_iff.1 h
  obtain ⟨ax, hax, h⟩ := bind_eq_ok_iff.1 h
  cases h
  exact (operandsCode_stacked hl hr hoperands).thenQuiet (Nat.zero_le _)
    (.single (RegisterClass.isScratch_of_view hax rfl))

/-- Nor does any other binary operation. -/
theorem binaryCode_stacked (hl : ∀ code, left = .ok code → Stacked l.words 0 code)
    (hr : ∀ code, right = .ok code → Stacked r.words 0 code)
    (h : binaryCode w op l r left right = .ok code) :
    Stacked (Ir.Expr.bin w op l r).words 0 code := by
  unfold binaryCode at h
  split at h
  · obtain ⟨cmp, hcmp, h⟩ := bind_eq_ok_iff.1 h
    obtain ⟨set, hset, h⟩ := bind_eq_ok_iff.1 h
    cases h
    exact (compareCode_stacked hl hr hcmp).thenQuiet (Nat.zero_le _) (setCode_quiet hset)
  · obtain ⟨⟨operands, rhs⟩, hoperands, h⟩ := bind_eq_ok_iff.1 h
    obtain ⟨apply, happly, h⟩ := bind_eq_ok_iff.1 h
    cases h
    exact (operandsCode_stacked hl hr hoperands).thenQuiet (Nat.zero_le _)
      (applyCode_quiet happly)

/-- A unary operation needs what its operand needs. -/
theorem unaryCode_stacked {m : Nat} {e : Ir.Expr} {operand : Except Fault Listing}
    (he : ∀ code, operand = .ok code → Stacked m 0 code)
    (h : unaryCode w op e operand = .ok code) : Stacked m 0 code := by
  obtain ⟨ce, hce, h⟩ := bind_eq_ok_iff.1 h
  obtain ⟨ax, hax, h⟩ := bind_eq_ok_iff.1 h
  have hce := he ce hce
  have hscratch := RegisterClass.isScratch_of_view hax rfl
  cases op
  case neg | bitNot =>
    cases h
    exact hce.thenQuiet (Nat.zero_le _) (.single hscratch)
  case not =>
    obtain ⟨ax', hax', h⟩ := bind_eq_ok_iff.1 h
    obtain ⟨set, hset, h⟩ := bind_eq_ok_iff.1 h
    cases h
    have htest : Quiet [.inst (.binary .cmp (.int 0) (.reg ax'))] :=
      .single (RegisterClass.isScratch_of_view hax' rfl)
    exact (hce.thenQuiet (Nat.zero_le _) htest).thenQuiet (Nat.zero_le _) (setCode_quiet hset)
  case sCast | uCast =>
    obtain ⟨ext, hext, h⟩ := bind_eq_ok_iff.1 h
    cases h
    exact hce.thenQuiet (Nat.zero_le _) (extendCode_quiet hext rfl)
  all_goals cases h

end Pieces

namespace Placement

variable {p : Placement}

/-- The call itself, and in front of it the code that finds the callee, if it is not named. -/
theorem transferCode_eq_ok {callee : Ir.Expr} {target : Except Fault Listing} {code : Listing}
    (h : p.transferCode callee target = .ok code) :
    ∃ first o, code = first ++ [.inst (.call o)] ∧ (first = [] ∨ target = .ok first) := by
  obtain ⟨f?, -, h⟩ := bind_eq_ok_iff.1 h
  cases f? with
  | some f =>
    obtain ⟨l, -, h⟩ := bind_eq_ok_iff.1 h
    cases h
    exact ⟨[], .target l, rfl, .inl rfl⟩
  | none =>
    obtain ⟨first, hfirst, h⟩ := bind_eq_ok_iff.1 h
    cases h
    exact ⟨first, .reg .eax, rfl, .inr hfirst⟩

/-- The arguments of a call, and the code that finds the callee. -/
theorem stacked_call {m n k : Nat} {arguments first : Listing} {target : Except Fault Listing}
    (ha : Stacked m n arguments) (ht : ∀ code, target = .ok code → Stacked k 0 code)
    (hm : n + k ≤ m) (hfirst : first = [] ∨ target = .ok first) :
    Stacked m n (arguments ++ first) := by
  rcases hfirst with rfl | hfirst
  · rwa [List.append_nil]
  · exact .append ha (ht first hfirst) hm

/-- Code for an address is code for a value, or code for the address that a constant is added to. -/
theorem stacked_of_value {e : Ir.Expr}
    (hv : ∀ code, p.valueCode e = .ok code → Stacked e.words 0 code)
    (hbase : ∀ {w w' a k}, e = .bin w .add a (.int w' k) →
      ∀ code m, p.addressCode a = .ok (code, m) → Stacked a.words 0 code) :
    (∀ code, p.valueCode e = .ok code → Stacked e.words 0 code) ∧
      ∀ code m, p.addressCode e = .ok (code, m) → Stacked e.words 0 code := by
  refine ⟨hv, fun code m h => ?_⟩
  rcases addressCode_eq_ok h with ⟨-, rfl⟩ | ⟨hc, -⟩ | ⟨w, w', a, k, m₀, rfl, hc, -⟩
  · exact .nil
  · exact hv code hc
  · simpa [Ir.Expr.words, Ir.Expr.isLiteral] using hbase rfl code m₀ hc

mutual

/-- The code of an expression leaves nothing on the stack. -/
theorem exprCode_stacked : (e : Ir.Expr) →
    (∀ code, p.valueCode e = .ok code → Stacked e.words 0 code) ∧
      ∀ code m, p.addressCode e = .ok (code, m) → Stacked e.words 0 code
  | .int w v => by
    -- by recursion on the expression: the value is computed level, and so is the address
    refine stacked_of_value (fun code h => ?_) (fun h => nomatch h)
    obtain ⟨_, -, h⟩ := bind_eq_ok_iff.1 h
    cases h
    exact .quiet (.single rfl)
  | .str w i => by
    refine stacked_of_value (fun code h => ?_) (fun h => nomatch h)
    obtain ⟨_, -, h⟩ := bind_eq_ok_iff.1 h
    obtain ⟨_, -, h⟩ := bind_eq_ok_iff.1 h
    cases h
    exact .quiet (.single rfl)
  | .var w v => by
    refine stacked_of_value (fun code h => ?_) (fun h => nomatch h)
    obtain ⟨ax, hax, h⟩ := bind_eq_ok_iff.1 h
    obtain ⟨_, -, h⟩ := bind_eq_ok_iff.1 h
    obtain ⟨_, -, h⟩ := bind_eq_ok_iff.1 h
    cases h
    exact .quiet (.single (RegisterClass.isScratch_of_view hax rfl))
  | .addr w v => by
    refine stacked_of_value (fun code h => ?_) (fun h => nomatch h)
    obtain ⟨_, -, h⟩ := bind_eq_ok_iff.1 h
    exact .quiet (entityAddressCode_quiet h)
  | .mem w a => by
    refine stacked_of_value (fun code h => ?_) (fun h => nomatch h)
    obtain ⟨ax, hax, h⟩ := bind_eq_ok_iff.1 h
    obtain ⟨⟨ca, m⟩, ha, h⟩ := bind_eq_ok_iff.1 h
    cases h
    rw [Ir.Expr.words]
    exact ((exprCode_stacked a).2 ca m ha).thenQuiet (Nat.zero_le _)
      (.single (RegisterClass.isScratch_of_view hax rfl))
  | .uni w op e => by
    refine stacked_of_value (fun code h => ?_) (fun h => nomatch h)
    obtain ⟨_, -, h⟩ := bind_eq_ok_iff.1 h
    rw [Ir.Expr.words]
    exact unaryCode_stacked (exprCode_stacked e).1 h
  | .bin w op l r => by
    refine stacked_of_value (fun code h => ?_) ?_
    · obtain ⟨_, -, h⟩ := bind_eq_ok_iff.1 h
      exact binaryCode_stacked (exprCode_stacked l).1 (exprCode_stacked r).1 h
    · rintro _ _ _ _ ⟨⟩
      exact (exprCode_stacked l).2
  | .call w f args => by
    refine stacked_of_value (fun code h => ?_) (fun h => nomatch h)
    obtain ⟨_, -, h⟩ := bind_eq_ok_iff.1 h
    obtain ⟨ca, hca, h⟩ := bind_eq_ok_iff.1 h
    obtain ⟨ct, hct, h⟩ := bind_eq_ok_iff.1 h
    cases h
    obtain ⟨first, o, rfl, hfirst⟩ := transferCode_eq_ok hct
    rw [Ir.Expr.words, ← List.append_assoc]
    -- the arguments stay on the stack while the callee is computed
    have harguments := (argumentCode_stacked args ca hca).mono
      (le_max_left _ (args.length + f.words + 1))
    exact .call (stacked_call harguments (exprCode_stacked f).1 (by omega) hfirst) (by omega)

/-- The code of arguments leaves a word for each of them. -/
theorem argumentCode_stacked : (es : List Ir.Expr) → ∀ code, p.argumentCode es = .ok code →
    Stacked (Ir.Expr.argumentWords es) es.length code
  | [] => by
    intro code h
    cases h
    exact .nil
  | e :: es => by
    intro code h
    obtain ⟨later, hlater, h⟩ := bind_eq_ok_iff.1 h
    obtain ⟨ce, hce, h⟩ := bind_eq_ok_iff.1 h
    cases h
    rw [Ir.Expr.argumentWords]
    -- one word is left for each argument, above those of the arguments behind it
    have hpush : Stacked (e.words + 1) 1 (ce ++ [.pushEax]) :=
      (((exprCode_stacked e).1 ce hce).mono (Nat.le_succ _)).seq (.push (Nat.le_add_left 1 _))
    rw [List.append_assoc]
    exact .append ((argumentCode_stacked es later hlater).mono (le_max_left _ _)) hpush
      (le_max_right _ _)

end

end Placement

end Backend386
