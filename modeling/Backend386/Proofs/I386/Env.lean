import Backend386.I386.Placement
import Backend386.Proofs.I386.Machine
import Backend386.Proofs.Ir.Eval

/-!
# What generated code sees and keeps

The code of an expression uses `eax`, `ecx`, `edx` and the bytes under the stack pointer, and
nothing else. So an expression has the same value before and after any such piece of code, as long
as it reads no memory under the stack pointer.

* `Spot` — where a placed entity lives: in a slot of the frame, at a symbol, or as code at a symbol;
* `Placement.seen` — what an expression can see of a memory of which some bytes are hidden;
* `Placement.env` — what it can see in a state of the machine: the `n` bytes under the stack pointer
  are hidden;
* `Machine.Keeps` — the changes that the code of an expression may make.
-/

namespace Backend386

/-- Where a placed entity lives. -/
inductive Spot where
  /-- so many bytes from the frame base -/
  | slot (offset : Int64)
  /-- at a symbol -/
  | data (symbol : String)
  /-- a function, whose value is the address of its symbol -/
  | code (symbol : String)
deriving DecidableEq

theorem Entity.getStorage_eq_ok_iff {e : Entity} {storage : Storage} :
    e.getStorage = .ok storage ↔ e.storage = .settled storage := by
  unfold getStorage
  cases e.storage <;> simp

/-- A literal is in memory where its label is. -/
theorem StringTable.memory_eq_ok_iff {t : StringTable} {i : StringId} {m : MemRef} :
    t.memory i = .ok m ↔
      ∃ e l, t.entries[i.index]? = some e ∧ e.symbol = some l ∧ m = .labelled l := by
  unfold memory get
  rcases t.entries[i.index]? with _ | e
  · simp [bind, Except.bind]
  · rcases hl : e.symbol with _ | l <;> simp [bind, Except.bind, StringEntry.memory, hl, eq_comm]

/-- Where an entity lives, if it is placed in a slot of the frame or at a symbol. -/
def Entity.spot? (e : Entity) : Option Spot :=
  match e.storage with
  | .settled (.memory m) =>
    if m = .based .ebp m.offset then some (.slot m.offset)
    else m.symbol.bind fun l => if m = .labelled l then some (.data l) else none
  | .settled (.immediate (.symbol f)) => if e.isFunction then some (.code f) else none
  | _ => none

namespace Entity

variable {e : Entity}

/-- A slot is found relative to the frame. -/
theorem storage_of_slot {k : Int64} (h : e.spot? = some (.slot k)) :
    e.storage = .settled (.memory (.based .ebp k)) := by
  unfold spot? at h
  split at h
  · rename_i m hm
    split at h
    · rename_i hbased
      cases h
      rw [hm, ← hbased]
    · obtain ⟨l, -, hl⟩ := Option.bind_eq_some_iff.1 h
      split at hl <;> cases hl
  · split at h <;> cases h
  · cases h

/-- Data are found at their label. -/
theorem storage_of_data {l : String} (h : e.spot? = some (.data l)) :
    e.storage = .settled (.memory (.labelled l)) := by
  unfold spot? at h
  split at h
  · rename_i m hm
    split at h
    · cases h
    · obtain ⟨l', -, hl⟩ := Option.bind_eq_some_iff.1 h
      split at hl
      · rename_i hlabelled
        cases hl
        rw [hm, hlabelled]
      · cases hl
  · split at h <;> cases h
  · cases h

/-- The address of a function is its symbol. -/
theorem storage_of_code {f : String} (h : e.spot? = some (.code f)) :
    e.storage = .settled (.immediate (.symbol f)) ∧ e.isFunction = true := by
  unfold spot? at h
  split at h
  · split at h
    · cases h
    · obtain ⟨l, -, hl⟩ := Option.bind_eq_some_iff.1 h
      split at hl <;> cases hl
  · split at h
    · rename_i hs hf
      cases h
      exact ⟨hs, hf⟩
    · cases h
  · cases h

end Entity

/-- The address of a spot, given the frame base. -/
def Spot.address (σ : Symbols) (bp : Address) : Spot → Address
  | slot k => bp + k.toBitVec.setWidth 32
  | data l => σ l
  | code f => σ f

theorem Machine.address_based {σ : Symbols} {s : Machine} {r : Register} {k : Int64} :
    s.address σ (.based r k) = s.regs r.cls + k.toBitVec.setWidth 32 := by
  simp [address, MemRef.based]

theorem Machine.address_labelled {σ : Symbols} {s : Machine} {l : String} :
    s.address σ (.labelled l) = σ l := by
  simp [address, MemRef.labelled]

/-- The reference to an entity in memory reaches the spot where it lives. -/
theorem Entity.address_of_spot {e : Entity} {spot : Spot} {m : MemRef} {σ : Symbols} {s : Machine}
    (h : e.spot? = some spot) (hm : e.storage = .settled (.memory m)) :
    s.address σ m = spot.address σ (s.regs .bp) := by
  cases spot with
  | slot k =>
    rw [storage_of_slot h] at hm
    cases hm
    exact Machine.address_based
  | data l =>
    rw [storage_of_data h] at hm
    cases hm
    exact Machine.address_labelled
  | code f =>
    rw [(storage_of_code h).1] at hm
    cases hm

/-- A reference that at most depends on `eax` and the frame base. -/
def MemRef.Steady (m : MemRef) : Prop :=
  m.index = none ∧ ∀ r, m.base = some r → r.cls = .ax ∨ r.cls = .bp

namespace MemRef.Steady

variable {m m' : MemRef} {s s' : Machine} {σ : Symbols} {k : Int64} {r : Register}

/-- The address is the same as long as the registers are that it is computed from. -/
theorem address (h : m.Steady) (hax : s'.regs .ax = s.regs .ax) (hbp : s'.regs .bp = s.regs .bp) :
    s'.address σ m = s.address σ m := by
  obtain ⟨hindex, hbase⟩ := h
  have hregs : m.base.elim 0 (fun r => s'.regs r.cls) = m.base.elim 0 (fun r => s.regs r.cls) := by
    cases hb : m.base with
    | none => rfl
    | some r =>
      rcases hbase r hb with hr | hr
      · simp only [Option.elim, hr, hax]
      · simp only [Option.elim, hr, hbp]
  simp only [Machine.address, hindex, hregs, Option.elim_none]

theorem moveBy (h : m.Steady) (hm : m.moveBy k = .ok m') : m'.Steady := by
  obtain ⟨offset, -, hm⟩ := bind_eq_ok_iff.1 hm
  cases hm
  exact h

theorem labelled {l : String} : (MemRef.labelled l).Steady :=
  ⟨rfl, fun _ h => nomatch h⟩

theorem based (hr : r.cls = .ax ∨ r.cls = .bp) : (MemRef.based r k).Steady :=
  ⟨rfl, fun _ h => Option.some.inj h ▸ hr⟩

/-- Where an entity is kept does not depend on what code computes. -/
theorem of_spot {e : Entity} {spot : Spot} (h : e.spot? = some spot)
    (hm : e.storage = .settled (.memory m)) : m.Steady := by
  cases spot with
  | slot =>
    rw [Entity.storage_of_slot h] at hm
    cases hm
    exact based (.inr rfl)
  | data =>
    rw [Entity.storage_of_data h] at hm
    cases hm
    exact labelled
  | code =>
    rw [(Entity.storage_of_code h).1] at hm
    cases hm

end MemRef.Steady

namespace Memory

/-- The value at an address, unless one of its bytes is hidden. -/
def load? (m : Memory) (hidden : Address → Prop) [DecidablePred hidden] (a : Address) (w : Width) :
    Option (BitVec w.bits) :=
  if ∀ i < w.bytes, ¬ hidden (a + BitVec.ofNat 32 i) then some (m.load a w.bytes) else none

variable {m m' : Memory} {hidden hidden' : Address → Prop} [DecidablePred hidden]
  [DecidablePred hidden'] {a : Address} {w : Width} {v : BitVec w.bits}

theorem load_of_load? (h : m.load? hidden a w = some v) : m.load a w.bytes = v :=
  Option.some.inj (Option.ite_none_right_eq_some.1 h).2

/-- A value that can be read stays readable as long as nothing is written to it. -/
theorem load?_mono (h : ∀ a, ¬ hidden a → ¬ hidden' a ∧ m' a = m a)
    (hv : m.load? hidden a w = some v) : m'.load? hidden' a w = some v := by
  obtain ⟨hclear, hv⟩ := Option.ite_none_right_eq_some.1 hv
  rw [load?, if_pos fun i hi => (h _ (hclear i hi)).1,
    load_congr fun i hi => (h _ (hclear i hi)).2, hv]

end Memory

namespace Machine

/-- `s'` is `s` but for `eax`, `ecx`, `edx`, the flags and the `n` bytes under the stack pointer. -/
structure Keeps (s : Machine) (n : Nat) (s' : Machine) : Prop where
  regs : ∀ {c}, c ≠ .ax → c ≠ .cx → c ≠ .dx → s'.regs c = s.regs c
  memory : ∀ {a}, ¬ Below (s.regs .sp) n a → s'.memory a = s.memory a

namespace Keeps

variable {s s₁ s₂ : Machine} {m n : Nat}

theorem refl : s.Keeps n s := ⟨fun _ _ _ => rfl, fun _ => rfl⟩

theorem sp (h : s.Keeps n s₁) : s₁.regs .sp = s.regs .sp :=
  h.regs (by decide) (by decide) (by decide)

theorem bp (h : s.Keeps n s₁) : s₁.regs .bp = s.regs .bp :=
  h.regs (by decide) (by decide) (by decide)

theorem trans (h₁ : s.Keeps n s₁) (h₂ : s₁.Keeps n s₂) : s.Keeps n s₂ where
  regs ha hc hd := (h₂.regs ha hc hd).trans (h₁.regs ha hc hd)
  memory ha := (h₂.memory (by rwa [h₁.sp])).trans (h₁.memory ha)

theorem mono (h : s.Keeps m s₁) (hmn : m ≤ n) : s.Keeps n s₁ where
  regs := h.regs
  memory ha := h.memory fun hb => ha (hb.mono hmn)

/-- Writing to one of the three registers keeps all else. -/
theorem setView {c : RegisterClass} {w : Width} {v : BitVec w.bits}
    (hc : c = .ax ∨ c = .cx ∨ c = .dx) : s.Keeps n (s.setView c w v) where
  regs ha hcx hd := regs_setView_ne (by rintro rfl; tauto)
  memory _ := rfl

theorem setFlags {f : Option Flags} : s.Keeps n { s with flags := f } :=
  ⟨fun _ _ _ => rfl, fun _ => rfl⟩

theorem setQuotient {q r : Int} : s.Keeps n (s.setQuotient q r) where
  regs ha _ hd := (if_neg ha).trans (if_neg hd)
  memory _ := rfl

end Keeps

/-- A word that was pushed is still on top after code that keeps what is above the stack pointer. -/
theorem top_of_push {s s' : Machine} {v : Address} {n : Nat} (hn : 4 + n ≤ 2 ^ 32)
    (h : (s.push v).Keeps n s') : s'.top = v := by
  have hsp : s'.regs .sp = s.regs .sp - 4 := h.sp
  have hsame : s'.memory.load (s.regs .sp - 4) 4 = (s.push v).memory.load (s.regs .sp - 4) 4 := by
    refine Memory.load_congr fun i hi => h.memory (Below.not_pushed (k := 4) hn ?_)
    have hoff : s.regs .sp - 4 + BitVec.ofNat 32 i - (s.regs .sp - BitVec.ofNat 32 4) =
        BitVec.ofNat 32 i := by
      rw [BitVec.add_comm]
      exact BitVec.add_sub_cancel _ _
    rw [hoff, BitVec.toNat_ofNat]
    omega
  rw [top, hsp, hsame]
  exact Memory.load_store_same (by decide)

/-- Code between a push and a pop, seen from outside. -/
theorem Keeps.of_push {s s' : Machine} {v : Address} {n : Nat} (hn : 4 + n ≤ 2 ^ 32)
    (h : (s.push v).Keeps n s') : s.Keeps (4 + n) s'.drop where
  regs {c} ha hc hd := by
    by_cases hsp : c = .sp
    · subst hsp
      have hs' : s'.regs .sp = s.regs .sp - 4 := h.sp
      have hdrop : s'.drop.regs .sp = s'.regs .sp + 4 := rfl
      rw [hdrop, hs', BitVec.sub_add_cancel]
    · have hdrop : s'.drop.regs c = s'.regs c := if_neg hsp
      have hpush : (s.push v).regs c = s.regs c := if_neg hsp
      rw [hdrop, h.regs ha hc hd, hpush]
  memory {a} ha := by
    have hkept : s'.memory a = (s.push v).memory a :=
      h.memory fun hb => ha (Below.of_sub hn hb)
    exact hkept.trans (Memory.store_other fun hlt => ha (Below.of_pushed (k := 4) (by omega) hlt))

end Machine

/-! ## What an expression can see -/

namespace Placement

/-- Where an entity lives. -/
def spot? (p : Placement) (v : EntityId) : Option Spot := do
  (← p.entities.entries[v.index]?).spot?

/-- What an expression can see of a memory, given the frame base. Some bytes are hidden. -/
def seen (p : Placement) (σ : Symbols) (bp : Address) (m : Memory) (hidden : Address → Prop)
    [DecidablePred hidden] : Ir.Env where
  var v w := do
    match ← p.spot? v with
    | .code f => some ((σ f).setWidth w.bits)
    | spot => m.load? hidden (spot.address σ bp) w
  address v := (p.spot? v).map fun spot => (spot.address σ bp).setWidth 64
  literal i := do
    let e ← p.strings.entries[i.index]?
    e.symbol.map fun l => (σ l).setWidth 64
  load a w := m.load? hidden (a.setWidth 32) w

/-- What an expression can see in a state of the machine: the `n` bytes under the stack pointer are
no part of it. -/
def env (p : Placement) (σ : Symbols) (s : Machine) (n : Nat) : Ir.Env :=
  p.seen σ (s.regs .bp) s.memory (Below (s.regs .sp) n)

variable {p : Placement} {σ : Symbols} {s s' : Machine} {n n' : Nat}

theorem spot?_eq_some_iff {v : EntityId} {spot : Spot} :
    p.spot? v = some spot ↔ ∃ e, p.entities.get v = .ok e ∧ e.spot? = some spot := by
  unfold spot? EntityTable.get
  cases p.entities.entries[v.index]? <;> simp

/-- What is visible in memory stays visible if it is neither hidden nor overwritten. -/
theorem seen_mono {bp : Address} {m m' : Memory} {hidden hidden' : Address → Prop}
    [DecidablePred hidden] [DecidablePred hidden']
    (h : ∀ a, ¬ hidden a → ¬ hidden' a ∧ m' a = m a) :
    (p.seen σ bp m hidden).Le (p.seen σ bp m' hidden') where
  var {v w x} hx := by
    obtain ⟨spot, hspot, hx⟩ := Option.bind_eq_some_iff.1 hx
    refine Option.bind_eq_some_iff.2 ⟨spot, hspot, ?_⟩
    cases spot with
    | slot | data => exact Memory.load?_mono h hx
    | code => exact hx
  address hx := hx
  literal hx := hx
  load hx := Memory.load?_mono h hx

/-- What is above the stack and the scratch area below it can be read as before. -/
theorem env_mono (hbp : s'.regs .bp = s.regs .bp)
    (h : ∀ a, ¬ Below (s.regs .sp) n a →
      ¬ Below (s'.regs .sp) n' a ∧ s'.memory a = s.memory a) :
    (p.env σ s n).Le (p.env σ s' n') := by
  unfold env
  rw [hbp]
  exact seen_mono h

/-- What the code of an expression keeps is all that another expression can see. -/
theorem env_le_of_keeps (h : s.Keeps n s') : (p.env σ s n).Le (p.env σ s' n) :=
  env_mono h.bp fun _ ha => ⟨by rwa [h.sp], h.memory ha⟩

/-- A push leaves alone what an expression can see above the area that includes the new word. -/
theorem env_le_push {v : Address} (hn : 4 + n ≤ 2 ^ 32) :
    (p.env σ s (4 + n)).Le (p.env σ (s.push v) n) := by
  refine env_mono rfl fun a ha => ⟨fun hb => ha (Below.of_sub hn hb), ?_⟩
  exact Memory.store_other fun hlt => ha (Below.of_pushed (k := 4) (by omega) hlt)

end Placement

end Backend386
