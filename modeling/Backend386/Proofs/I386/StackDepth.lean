import Mathlib.Logic.Relation
import Backend386.Proofs.I386.FunctionCode
import Backend386.Proofs.I386.StackUse

/-!
# Generated code keeps the stack balanced

The depth of the stack is counted in bytes from the start of a piece of code: up for each push, and
down for each pop and for the arguments that are removed after a call. Other code must not touch the
stack pointer, and nothing may be taken that was not put there.

* `Listing.depth?` — the depth that a piece of code ends at;
* `Listing.Balanced` — code that gives back what it takes and is at depth zero wherever control may
  leave it or enter it;
* `Listing.Flow` — the paths through a listing, with the depth along them;
* `Placement.functionCode_balanced` — the code of every statement is balanced, so the depth at a
  point of a function does not depend on the path.
-/

namespace Backend386

/-! ## Counting -/

/-- A view of the register `c`. -/
def Operand.isView (c : RegisterClass) : Operand → Bool
  | reg r => r.cls = c
  | _ => false

/-- Whether an instruction may change the register `c` before control is at the next one. What a
call changes is up to the callee, which hands back the stack pointer and the frame base. -/
def Instruction.sets (c : RegisterClass) : Instruction → Bool
  | jmp _ | jcc .. | call _ => false
  | ret | push _ => c = .sp
  | pop a => c = .sp || a.isView c
  | cltd => c = .dx
  | unary .idiv _ | unary .div _ => c = .ax || c = .dx
  | unary _ dst | lea _ dst | extend _ _ _ dst | binary _ _ dst | set _ dst => dst.isView c

/-- The depth after an instruction. There is none if the instruction takes more than there is, or
changes the stack pointer in another way than by pushes, pops and the removal of arguments. -/
def Instruction.depth? (d : Nat) : Instruction → Option Nat
  | push _ => some (d + 4)
  | pop a => if 4 ≤ d ∧ a.isView .sp = false then some (d - 4) else none
  | binary .add (.imm (.int k)) (.reg r) =>
    if r = .esp then
      if 0 ≤ k.toInt ∧ k.toInt ≤ d then some (d - k.toInt.toNat) else none
    else if r.cls = .sp then none else some d
  | i => if i.sets .sp then none else some d

/-- The depth after an item. -/
def Item.depth? (d : Nat) : Item → Option Nat
  | inst i => i.depth? d
  | _ => some d

/-- The depth after a piece of code. -/
def Listing.depth? (d : Nat) : Listing → Option Nat
  | [] => some d
  | i :: rest => (i.depth? d).bind fun d' => Listing.depth? d' rest

/-- Where control may leave a piece of code or enter it: labels and jumps. -/
def Item.isJoint : Item → Bool
  | label _ | inst (.jmp _) | inst (.jcc ..) => true
  | _ => false

/-- Code that gives back what it takes from the stack. -/
structure Listing.Balanced (code : Listing) : Prop where
  /-- the net effect is zero -/
  net : code.depth? 0 = some 0
  /-- no more is taken than was put there -/
  covered : ∀ a, a <+: code → ∃ d, Listing.depth? 0 a = some d
  /-- labels and jumps are at depth zero -/
  joints : ∀ a i, a ++ [i] <+: code → i.isJoint = true → Listing.depth? 0 a = some 0

/-- Where an item may jump to. -/
def Item.target? : Item → Option String
  | inst (.jmp (.target l)) | inst (.jcc _ (.target l)) => some l
  | _ => none

/-- One item of a path through a listing. A point of the listing is what is left of it there, and it
comes with the depth. Jumps are taken or not, whatever the flags are. -/
inductive Listing.Flow (code : Listing) : Listing × Nat → Listing × Nat → Prop where
  | next {i : Item} {rest : Listing} {d d' : Nat} (hi : i.jumpTarget? = none)
    (h : i.depth? d = some d') : Flow code (i :: rest, d) (rest, d')
  | jump {i : Item} {l : String} {rest rest' : Listing} {d : Nat} (hi : i.target? = some l)
    (h : code.after? l = some rest') : Flow code (i :: rest, d) (rest', d)

/-- A path through a listing. -/
abbrev Listing.Flows (code : Listing) : Listing × Nat → Listing × Nat → Prop :=
  Relation.ReflTransGen code.Flow

namespace Listing

/-- The depth is counted on from where the code before ends. -/
theorem depth?_append {d : Nat} {a b : Listing} :
    depth? d (a ++ b) = (depth? d a).bind fun d' => depth? d' b := by
  induction a generalizing d with
  | nil => rfl
  | cons i a ih =>
    rw [List.cons_append, depth?, depth?, Option.bind_assoc]
    exact congrArg _ (funext fun _ => ih)

theorem depth?_append_of {d d' : Nat} {a b : Listing} (h : depth? d a = some d') :
    depth? d (a ++ b) = depth? d' b := by
  rw [depth?_append, h, Option.bind_some]

/-- Code that has a depth has one everywhere. -/
theorem exists_depth?_of_prefix {d d' : Nat} {a code : Listing} (h : depth? d code = some d')
    (ha : a <+: code) : ∃ d₁, depth? d a = some d₁ := by
  obtain ⟨b, rfl⟩ := ha
  rw [depth?_append] at h
  obtain ⟨d₁, hd₁, -⟩ := Option.bind_eq_some_iff.1 h
  exact ⟨d₁, hd₁⟩

end Listing

/-! ## Code that does not touch the stack -/

/-- An item that changes neither the stack pointer nor the frame base. -/
def Item.isSteady : Item → Bool
  | inst i => !i.sets .sp && !i.sets .bp
  | _ => true

/-- An instruction that does not write the stack pointer keeps the depth. -/
theorem Instruction.depth?_of_sets {i : Instruction} {d : Nat} (h : i.sets .sp = false) :
    i.depth? d = some d := by
  unfold depth?
  split
  · cases h
  · cases h
  · rename_i r
    have hcls : r.cls ≠ .sp := by simpa [sets, Operand.isView] using h
    rw [if_neg (fun heq => hcls (congrArg Register.cls heq)), if_neg hcls]
  · rw [h]
    rfl

/-- So does an item that keeps the stack steady. -/
theorem Item.depth?_of_steady {i : Item} {d : Nat} (h : i.isSteady = true) :
    i.depth? d = some d := by
  cases i with
  | inst i =>
    rw [isSteady, Bool.and_eq_true, Bool.not_eq_true'] at h
    exact Instruction.depth?_of_sets h.1
  | _ => rfl

/-- What only computes changes no other registers. -/
theorem Instruction.sets_of_quiet {i : Instruction} {c : RegisterClass} (h : i.isQuiet = true)
    (hc : c.isScratch = false) : i.sets c = false := by
  have hview {o : Operand} (ho : o.isScratch = true) : o.isView c = false := by
    cases o with
    | reg r =>
      refine decide_eq_false ?_
      rintro rfl
      exact absurd (hc.symm.trans ho) (by decide)
    | _ => rfl
  cases i with
  | jmp | jcc | call | ret | push | pop => cases h
  | cltd => cases c <;> first | rfl | cases hc
  | lea | extend | binary | set => exact hview h
  | unary op =>
    cases op with
    | idiv | div => cases c <;> first | rfl | cases hc
    | neg | not => exact hview h

/-- Code that only computes keeps the stack steady. -/
theorem Item.steady_of_quiet {i : Item} (h : i.isQuiet = true) : i.isSteady = true := by
  cases i with
  | inst i =>
    rw [isSteady, Instruction.sets_of_quiet h rfl, Instruction.sets_of_quiet h rfl]
    rfl
  | _ => rfl

theorem Item.not_joint_of_quiet {i : Item} (h : i.isQuiet = true) : i.isJoint = false := by
  cases i with
  | inst i => cases i <;> first | rfl | cases h
  | label => cases h
  | _ => rfl

/-! ## Words in brackets -/

namespace Listing

variable {m k : Nat} {code : Listing}

/-- The depth stays as it is along steady code. -/
theorem depth?_of_steady {d : Nat} (h : ∀ i ∈ code, i.isSteady = true) :
    depth? d code = some d := by
  induction code with
  | nil => rfl
  | cons i code ih =>
    obtain ⟨hi, hcode⟩ := List.forall_mem_cons.1 h
    rw [depth?, Item.depth?_of_steady hi, Option.bind_some]
    exact ih hcode

theorem depth?_popEcx {d : Nat} : depth? (d + 4) [.popEcx] = some d := by
  simp [Item.popEcx, depth?, Item.depth?, Instruction.depth?, Operand.isView, Register.ecx]

/-- The arguments of a call are removed, unless there are too many for the constant. -/
theorem depth?_cleanUp {d n : Nat} (hn : 4 * n < 2 ^ 63) :
    depth? (d + 4 * n) (cleanUp n) = some d := by
  unfold cleanUp
  split
  · rename_i hzero
    subst hzero
    rfl
  · have hk : (Int64.ofNat (n * 4)).toInt = ((n * 4 : Nat) : Int) :=
      Int64.toInt_ofNat_of_lt (by omega)
    have hinst : (Instruction.binary .add (.int (Int64.ofNat (n * 4))) (.reg .esp)).depth?
        (d + 4 * n) = some d := by
      have hrange : (0 : Int) ≤ (n * 4 : Nat) ∧ ((n * 4 : Nat) : Int) ≤ (d + 4 * n : Nat) := by
        omega
      simp only [Operand.int, Instruction.depth?, hk, if_pos hrange, if_true, Int.toNat_natCast]
      exact congrArg some (by omega)
    exact (congrArg (Option.bind · _) hinst).trans rfl

/-- The count says how many words the code leaves. -/
theorem Stacked.depth? (h : Stacked m k code) (hm : 4 * m < 2 ^ 63) (d : Nat) :
    Listing.depth? d code = some (d + 4 * k) := by
  induction h generalizing d with
  | quiet h => exact depth?_of_steady fun i hi => Item.steady_of_quiet (h i hi)
  | append _ _ hle iha ihb =>
    rw [depth?_append_of (iha hm d), ihb (by omega)]
    exact congrArg some (by omega)
  | push => rfl
  | pop _ ih =>
    rw [depth?_append_of (ih hm d)]
    exact depth?_popEcx
  | call _ hn ih =>
    rw [List.append_assoc, depth?_append_of (ih hm d), List.singleton_append]
    exact depth?_cleanUp (by omega)

/-- No labels and no jumps stand between the brackets. -/
theorem Stacked.not_joint (h : Stacked m k code) : ∀ i ∈ code, i.isJoint = false := by
  induction h with
  | quiet h => exact fun i hi => Item.not_joint_of_quiet (h i hi)
  | append _ _ _ iha ihb => exact List.forall_mem_append.2 ⟨iha, ihb⟩
  | push => exact List.forall_mem_singleton.2 rfl
  | pop _ ih => exact List.forall_mem_append.2 ⟨ih, List.forall_mem_singleton.2 rfl⟩
  | @call _ n _ _ _ _ ih =>
    refine List.forall_mem_append.2 ⟨List.forall_mem_append.2 ⟨ih, ?_⟩, ?_⟩
    · exact List.forall_mem_singleton.2 rfl
    · unfold cleanUp
      split
      · exact List.forall_mem_nil _
      · exact List.forall_mem_singleton.2 rfl

end Listing

/-! ## Statements -/

/-- Code of statements: pieces of code for expressions, and between them items that do not touch the
stack. -/
inductive Listing.Level (m : Nat) : Listing → Prop where
  | nil : Level m []
  | piece {a b : Listing} (ha : Listing.Stacked m 0 a) (hb : Level m b) : Level m (a ++ b)
  | item {i : Item} {b : Listing} (hi : i.isSteady = true) (hb : Level m b) : Level m (i :: b)

namespace Listing.Level

variable {m m' : Nat} {a b code : Listing}

theorem append (ha : Level m a) (hb : Level m b) : Level m (a ++ b) := by
  induction ha with
  | nil => exact hb
  | piece ha _ ih => exact List.append_assoc .. ▸ .piece ha ih
  | item hi _ ih => exact .item hi ih

theorem mono (h : Level m code) (hm : m ≤ m') : Level m' code := by
  induction h with
  | nil => exact .nil
  | piece ha _ ih => exact .piece (ha.mono hm) ih
  | item hi _ ih => exact .item hi ih

theorem of_stacked (h : Stacked m 0 code) : Level m code :=
  List.append_nil code ▸ .piece h .nil

theorem net (h : Level m code) (hm : 4 * m < 2 ^ 63) : code.depth? 0 = some 0 := by
  induction h with
  | nil => rfl
  | piece ha _ ih => rw [depth?_append_of (ha.depth? hm 0), ih]
  | item hi _ ih => rw [depth?, Item.depth?_of_steady hi, Option.bind_some, ih]

/-- Labels and jumps stand between the pieces. -/
theorem joints (h : Level m code) (hm : 4 * m < 2 ^ 63) {a : Listing} {i : Item}
    (ha : a ++ [i] <+: code) (hi : i.isJoint = true) : Listing.depth? 0 a = some 0 := by
  obtain ⟨c, hc⟩ := ha
  induction h generalizing a with
  | nil => simp at hc
  | @piece a' b' ha' _ ih =>
    rw [List.append_assoc] at hc
    rcases List.append_eq_append_iff.1 hc with ⟨e, rfl, hrest⟩ | ⟨e, rfl, hrest⟩
    · cases e with
      | nil => exact List.append_nil a ▸ ha'.depth? hm 0
      | cons j e =>
        -- a joint inside a piece
        obtain rfl : i = j := by
          injection hrest
        have hnot := ha'.not_joint i (List.mem_append_right _ List.mem_cons_self)
        exact absurd (hi.symm.trans hnot) (by decide)
    · rw [depth?_append_of (ha'.depth? hm 0)]
      exact ih (by rw [List.append_assoc, hrest])
  | @item j b' hj _ ih =>
    cases a with
    | nil => rfl
    | cons j' a =>
      injection hc with hhead htail
      subst hhead
      rw [depth?, Item.depth?_of_steady hj, Option.bind_some]
      exact ih htail

theorem balanced (h : Level m code) (hm : 4 * m < 2 ^ 63) : code.Balanced where
  net := h.net hm
  covered _ ha := exists_depth?_of_prefix (h.net hm) ha
  joints _ _ ha hi := h.joints hm ha hi

/-- Dropping jumps that fall through anyway changes no depth. -/
theorem dropJumps (epilogue : String) (h : Level m code) : Level m (dropJumps epilogue code) := by
  induction h with
  | nil => exact .nil
  | @piece a _ ha _ ih =>
    have hkept : ∀ i ∈ a, i.Kept := by
      intro i hi
      have hnot := ha.not_joint i hi
      unfold Item.Kept Item.jumpTarget?
      split
      · cases hnot
      · rfl
    rw [dropJumps_append_of_kept hkept]
    exact .piece ha ih
  | item hi _ ih =>
    rw [Backend386.dropJumps]
    split
    · exact ih
    · exact .item hi ih

end Listing.Level

open Listing

namespace Placement

variable {p : Placement} {options : AssemblyOptions} {epilogue : Ir.Label}

/-- A store pops all that it has pushed. -/
theorem storeCode_level {target value : Ir.Expr} {code : Listing}
    (h : p.storeCode target value = .ok code) :
    Level (max value.words (target.words + 1)) code := by
  obtain ⟨m?, -, h⟩ := bind_eq_ok_iff.1 h
  cases m? with
  | some m =>
    obtain ⟨cv, hcv, h⟩ := bind_eq_ok_iff.1 h
    obtain ⟨_, -, h⟩ := bind_eq_ok_iff.1 h
    cases h
    exact .piece (((exprCode_stacked value).1 cv hcv).mono (le_max_left _ _)) (.item rfl .nil)
  | none =>
    obtain ⟨cv, hcv, h⟩ := bind_eq_ok_iff.1 h
    obtain ⟨⟨ca, m⟩, hca, h⟩ := bind_eq_ok_iff.1 h
    obtain ⟨cx, -, h⟩ := bind_eq_ok_iff.1 h
    cases h
    have hfirst := ((exprCode_stacked value).1 cv hcv).mono (le_max_left _ (target.words + 1))
    have hpiece := hfirst.aside ((exprCode_stacked target).2 ca m hca) .nil (le_max_right _ _)
    have hcode := Level.piece hpiece (.item (i := .mov (.reg cx) (.mem m)) rfl .nil)
    simpa using hcode

/-- A test pops all that it has pushed. -/
theorem testCode_stacked {test : Ir.Expr} {code : Listing} {c : Condition}
    (h : p.testCode test = .ok (code, c)) : Stacked test.words 0 code := by
  have hplain : ∀ {code c}, ((do
      let code ← p.valueCode test
      let ax ← RegisterClass.ax.view test.width
      return (code ++ [.inst (.binary .test (.reg ax) (.reg ax))], .ne)) :
        Except Fault (Listing × Condition)) = .ok (code, c) → Stacked test.words 0 code := by
    intro code c h
    obtain ⟨ct, hct, h⟩ := bind_eq_ok_iff.1 h
    obtain ⟨ax, hax, h⟩ := bind_eq_ok_iff.1 h
    cases h
    exact ((exprCode_stacked test).1 ct hct).thenQuiet (Nat.zero_le _)
      (.single (RegisterClass.isScratch_of_view hax rfl))
  unfold testCode at h
  split at h
  · split at h
    · obtain ⟨cmp, hcmp, h⟩ := bind_eq_ok_iff.1 h
      cases h
      exact compareCode_stacked (exprCode_stacked _).1 (exprCode_stacked _).1 hcmp
    · exact hplain h
  · exact hplain h

/-- The stack is level again behind each statement. -/
theorem actionCode_level {a : Ir.Action} {code : Listing}
    (h : p.actionCode epilogue a = .ok code) : Level a.words code := by
  cases a with
  | eval e => exact .of_stacked ((exprCode_stacked e).1 code h)
  | assign => exact storeCode_level h
  | jump | label =>
    cases h
    exact .item rfl .nil
  | branch test yes no =>
    obtain ⟨⟨ct, c⟩, hct, h⟩ := bind_eq_ok_iff.1 h
    cases h
    exact .piece (testCode_stacked hct) (.item rfl (.item rfl .nil))
  | ret e =>
    cases e with
    | none =>
      cases h
      exact .item rfl .nil
    | some e =>
      obtain ⟨ce, hce, h⟩ := bind_eq_ok_iff.1 h
      cases h
      exact .piece ((exprCode_stacked e).1 ce hce) (.item rfl .nil)

theorem stmtCode_level {s : Ir.Stmt} {code : Listing}
    (h : p.stmtCode options epilogue s = .ok code) : Level s.action.words code := by
  obtain ⟨ca, hca, h⟩ := bind_eq_ok_iff.1 h
  cases h
  exact .piece (.quiet comment_quiet) (actionCode_level hca)

/-- So it is behind a body. -/
theorem bodyCode_level {m : Nat} {body : List Ir.Stmt} {code : Listing}
    (hm : ∀ s ∈ body, s.action.words ≤ m) (h : p.bodyCode options epilogue body = .ok code) :
    Level m code := by
  induction body generalizing code with
  | nil =>
    cases h
    exact .nil
  | cons s body ih =>
    obtain ⟨hs, hbody⟩ := List.forall_mem_cons.1 hm
    obtain ⟨cs, hcs, h⟩ := bind_eq_ok_iff.1 h
    obtain ⟨cb, hcb, h⟩ := bind_eq_ok_iff.1 h
    cases h
    exact ((stmtCode_level hcs).mono hs).append (ih hbody hcb)

/-- The code of a body has the code of each of its statements. -/
theorem stmtCode_of_bodyCode {body : List Ir.Stmt} {code : Listing}
    (h : p.bodyCode options epilogue body = .ok code) :
    ∀ s ∈ body, ∃ c, p.stmtCode options epilogue s = .ok c := by
  induction body generalizing code with
  | nil => exact fun s hs => absurd hs List.not_mem_nil
  | cons s body ih =>
    obtain ⟨cs, hcs, h⟩ := bind_eq_ok_iff.1 h
    obtain ⟨cb, hcb, -⟩ := bind_eq_ok_iff.1 h
    exact List.forall_mem_cons.2 ⟨⟨cs, hcs⟩, ih hcb⟩

end Placement

/-! ## Paths -/

namespace Listing

/-- A label that is found stands in front of what follows it. -/
theorem exists_of_after? {l : String} {code rest : Listing} (h : code.after? l = some rest) :
    ∃ pre, code = pre ++ .label l :: rest := by
  induction code with
  | nil => cases h
  | cons i code ih =>
    rw [after?] at h
    split at h
    · rename_i hi
      cases h
      exact ⟨[], hi ▸ rfl⟩
    · obtain ⟨pre, rfl⟩ := ih h
      exact ⟨i :: pre, rfl⟩

/-- The depths have to agree where code is jumped to. -/
theorem joint_of_target? {i : Item} {l : String} (h : i.target? = some l) : i.isJoint = true := by
  unfold Item.target? at h
  split at h
  · rfl
  · rfl
  · cases h

/-- Where labels and jumps are at depth zero, every path has the depth that is counted from the
start of the listing. -/
theorem Flows.depth? {code rest : Listing} {d : Nat}
    (hj : ∀ a i, a ++ [i] <+: code → i.isJoint = true → Listing.depth? 0 a = some 0)
    (h : code.Flows (code, 0) (rest, d)) :
    ∃ pre, code = pre ++ rest ∧ Listing.depth? 0 pre = some d := by
  generalize hx : (rest, d) = x at h
  -- by induction on the way that control goes: behind each item the depth is counted from the start
  induction h generalizing rest d with
  | refl =>
    cases hx
    exact ⟨[], rfl, rfl⟩
  | tail _ hstep ih =>
    subst hx
    cases hstep with
    | @next i _ d₁ _ _ hd =>
      obtain ⟨pre, hpre, hdepth⟩ := ih rfl
      refine ⟨pre ++ [i], by simpa using hpre, ?_⟩
      rw [depth?_append_of hdepth, Listing.depth?, hd]
      rfl
    -- a jump starts and ends where the depth is zero
    | @jump i l rest₁ _ _ hi hl =>
      obtain ⟨pre, hpre, hdepth⟩ := ih rfl
      have hzero := hj pre i ⟨rest₁, by rw [hpre, List.append_assoc]; rfl⟩ (joint_of_target? hi)
      obtain rfl : 0 = d := Option.some.inj (hzero.symm.trans hdepth)
      obtain ⟨pre', hpre'⟩ := exists_of_after? hl
      refine ⟨pre' ++ [.label l], by simpa using hpre', ?_⟩
      rw [depth?_append_of (hj pre' (.label l) ⟨rest, by rw [hpre', List.append_assoc]; rfl⟩ rfl)]
      rfl

/-- So the depth at a point is the same on all paths. -/
theorem Flows.unique {code rest : Listing} {d d' : Nat}
    (hj : ∀ a i, a ++ [i] <+: code → i.isJoint = true → Listing.depth? 0 a = some 0)
    (h : code.Flows (code, 0) (rest, d)) (h' : code.Flows (code, 0) (rest, d')) : d = d' := by
  obtain ⟨pre, hpre, hd⟩ := h.depth? hj
  obtain ⟨pre', hpre', hd'⟩ := h'.depth? hj
  obtain rfl := List.append_cancel_right (hpre.symm.trans hpre')
  exact Option.some.inj (hd.symm.trans hd')

/-- Code without labels and jumps may follow. -/
theorem joints_append {a b : Listing}
    (ha : ∀ c i, c ++ [i] <+: a → i.isJoint = true → Listing.depth? 0 c = some 0)
    (hb : ∀ i ∈ b, i.isJoint = false) {c : Listing} {i : Item} (hc : c ++ [i] <+: a ++ b)
    (hi : i.isJoint = true) : Listing.depth? 0 c = some 0 := by
  obtain ⟨rest, hrest⟩ := hc
  -- the joint is in the first part, or it is the first of the second one, where there are none
  rcases List.append_eq_append_iff.1 hrest with ⟨e, hea, heb⟩ | ⟨e, hea, heb⟩
  · exact ha c i ⟨e, hea.symm⟩ hi
  · cases e using List.reverseRecOn with
    | nil => exact ha c i ⟨[], by rw [List.append_nil, hea, List.append_nil]⟩ hi
    | append_singleton e j =>
      have hij : i = j := by
        rw [← List.append_assoc] at hea
        exact List.singleton_inj.1 (List.append_inj' hea rfl).2
      have hmem : i ∈ b := by
        rw [heb, hij]
        simp
      exact absurd (hi.symm.trans (hb i hmem)) (by decide)

end Listing

/-! ## Functions -/

namespace Placement

/-- **Generated code keeps the stack balanced.** The code of every statement of a function gives
back what it takes from the stack, never takes more than it put there, and is at depth zero at each
of its labels and jumps. So wherever two paths from the start of the body meet, in the body or in
the epilogue, they have the same depth. The words that a statement has on the stack at once are as
many as a constant of the assembler can count. -/
theorem functionCode_balanced {p p' : Placement} {types : TypeTable} {options : AssemblyOptions}
    {epilogue : Ir.Label} {f : Ir.Function} {code : Listing} {entity : Entity} {frame : Frame}
    (hcode : p.functionCode types options epilogue f = .ok (p', code))
    (hentity : p.entities.get f.entity = .ok entity)
    (hframe : Frame.compute f p.entities types = .ok frame)
    (hwords : ∀ st ∈ f.body.toList, 4 * st.action.words < 2 ^ 63) :
    (∀ st ∈ f.body.toList, ∃ c, p'.stmtCode options epilogue st = .ok c ∧ c.Balanced) ∧
    ∃ body, p'.bodyCode options epilogue f.body.toList = .ok body ∧
      let inner := dropJumps epilogue.render body ++ epilogueCode epilogue
      code.after? entity.symbol = some (prologue frame.size ++ inner ++
        [.directive (.size entity.symbol (".-" ++ entity.symbol))]) ∧
      ∀ {rest d d'}, inner.Flows (inner, 0) (rest, d) → inner.Flows (inner, 0) (rest, d') →
        d = d' := by
  obtain ⟨-, body, hbody, hafter⟩ := functionCode_eq_ok hcode hentity hframe
  -- each statement is level, the whole body as well, and its joints are where the depth is zero
  refine ⟨fun st hst => ?_, body, hbody, ?_, fun h h' => ?_⟩
  · obtain ⟨c, hc⟩ := stmtCode_of_bodyCode hbody st hst
    exact ⟨c, hc, (stmtCode_level hc).balanced (hwords st hst)⟩
  · simpa using hafter
  · have hlevel : Level (2 ^ 61 - 1)
        (dropJumps epilogue.render body ++ [.label epilogue.render]) := by
      refine .append (.dropJumps _ (bodyCode_level (fun st hst => ?_) hbody)) (.item rfl .nil)
      have := hwords st hst
      omega
    -- behind the label of the epilogue nothing is jumped to
    have hsplit : dropJumps epilogue.render body ++ epilogueCode epilogue =
        (dropJumps epilogue.render body ++ [.label epilogue.render]) ++
          [.mov (.reg .ebp) (.reg .esp), .inst (.pop (.reg .ebp)), .inst .ret] := by
      simp [epilogueCode]
    refine Flows.unique (fun a i ha hi => ?_) h h'
    rw [hsplit] at ha
    refine joints_append (fun _ _ => hlevel.joints (by omega)) ?_ ha hi
    decide

/-! ### Calls inside calls -/

/-- The body `x = g(g((char)x) + x, 2); if (x < g()) *(char *)x = 1; return x;`, with the entities
of `callerEntities`. -/
def nestedCaller : Ir.Function where
  entity := ⟨0⟩
  scope := { vars := [⟨1⟩] }
  body :=
    let x : Ir.Expr := .var .w32 ⟨1⟩
    let g (args : List Ir.Expr) : Ir.Expr := .call .w32 (.addr .w32 ⟨2⟩) args
    #[{ action := .assign (.addr .w32 ⟨1⟩)
          (g [.bin .w32 .add (g [.uni .w8 .uCast x]) x, .int .w32 2]) },
      { action := .branch (.bin .w32 .sLt x (g [])) ⟨0⟩ ⟨1⟩ },
      { action := .label ⟨0⟩ },
      { action := .assign x (.int .w8 1) },
      { action := .label ⟨1⟩ },
      { action := .ret (some x) }]

/-- The arguments of the inner call stand above those of the outer one, and all are popped. -/
theorem functionCode_balanced_nestedCaller :
    ∃ p' code, functionCode ⟨callerEntities .pending, ⟨[]⟩⟩ wordTypes {} ⟨7⟩ nestedCaller =
        .ok (p', code) ∧
      ∀ st ∈ nestedCaller.body.toList, ∃ c, p'.stmtCode {} ⟨7⟩ st = .ok c ∧ c.Balanced := by
  have hframe : Frame.compute nestedCaller (callerEntities .pending) wordTypes =
      .ok ⟨4, [], [⟨⟨1⟩, -4⟩]⟩ := rfl
  have hwords : ∀ st ∈ nestedCaller.body.toList, 4 * st.action.words < 2 ^ 63 := by decide
  obtain ⟨p', code, hcode⟩ :
      ∃ p' code, functionCode ⟨callerEntities .pending, ⟨[]⟩⟩ wordTypes {} ⟨7⟩ nestedCaller =
        .ok (p', code) := ⟨_, _, rfl⟩
  exact ⟨p', code, hcode, (functionCode_balanced hcode rfl hframe hwords).1⟩

end Placement

end Backend386
