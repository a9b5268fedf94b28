import Backend386.Proofs.Ir.Bytes
import Backend386.Proofs.Lowering.Pointers

/-!
# Objects that are stored piece by piece

The address of an object that is stored piece by piece is held: it is used again for each piece, so
one that is computed is kept in a temporary first.

* `Lower.forM_push` — loops that append a statement for each piece;
* `Ir.Expr.HeldIn`, `Lower.stable_ok` — how an address is held;
* `Ir.Places.holder`, `Ir.Places.slots` — the variables that hold addresses, in memory;
* `Ir.Expr.HeldIn.steps` — what holds an address has it as its value.
-/

namespace Backend386

namespace LowerState

variable {s : LowerState} {code : List Ir.Stmt}

/-- The state with more statements. -/
def pushes (s : LowerState) (code : List Ir.Stmt) : LowerState :=
  code.foldl push s

theorem pushes_induction {P : LowerState → Prop} (hs : P s) (h : ∀ s st, P s → P (s.push st)) :
    P (s.pushes code) := by
  induction code generalizing s with
  | nil => exact hs
  | cons st code ih => exact ih (h s st hs)

@[simp] theorem pushes_types : (s.pushes code).types = s.types :=
  pushes_induction (P := (·.types = s.types)) rfl fun _ _ h => h

@[simp] theorem pushes_entities : (s.pushes code).entities = s.entities :=
  pushes_induction (P := (·.entities = s.entities)) rfl fun _ _ h => h

@[simp] theorem pushes_strings : (s.pushes code).strings = s.strings :=
  pushes_induction (P := (·.strings = s.strings)) rfl fun _ _ h => h

@[simp] theorem pushes_diagnostics : (s.pushes code).diagnostics = s.diagnostics :=
  pushes_induction (P := (·.diagnostics = s.diagnostics)) rfl fun _ _ h => h

/-- The statements stand behind the code. -/
@[simp] theorem pushes_body :
    (s.pushes code).function.body.toList = s.function.body.toList ++ code := by
  induction code generalizing s with
  | nil => exact (List.append_nil _).symm
  | cons st code ih => rw [pushes, List.foldl_cons, ← pushes, ih, push_body, List.append_assoc,
      List.singleton_append]

end LowerState

open Ir (Places Bytes Steps span addresses)

/-! ## Addresses that are held -/

namespace Ir.Expr

/-- Whether an address can be evaluated repeatedly: it is named, not computed. -/
def isStable : Expr → Bool
  | addr .. | str .. | var .. => true
  | _ => false

/-- What holds the address `x` once `code` has run: `x` itself, or a variable in which one statement
stores it. -/
inductive HeldIn (ptr : Width) (loc : Option Location) (x : Expr) :
    List EntityId → List Stmt → Expr → Prop where
  | named (h : x.isStable = true) : HeldIn ptr loc x [] [] x
  | kept (h : x.isStable = false) (v : EntityId) :
    HeldIn ptr loc x [v] [⟨.assign (addr ptr v) x, loc⟩] (var ptr v)

end Ir.Expr

namespace Lower

variable {s : LowerState} {ptr : Width}

/-- A loop that appends a statement for each element of a list. -/
theorem forM_push {α : Type} {l : List α} {f : α → Lower Unit} {st : α → Ir.Stmt}
    (h : ∀ a ∈ l, ∀ s' : LowerState, s'.types = s.types → f a s' = .ok ((), s'.push (st a))) :
    l.forM f s = .ok ((), s.pushes (l.map st)) := by
  induction l generalizing s with
  | nil => rfl
  | cons a l ih =>
    have hcons : (a :: l).forM f = f a >>= fun _ => l.forM f := rfl
    rw [hcons, bind_ok (h a List.mem_cons_self s rfl)]
    exact ih fun b hb s' hs' => h b (List.mem_cons_of_mem _ hb) s' hs'

/-- An address that is computed is kept in a new temporary. -/
theorem stable_ok {void : TypeId} (hvoid : s.types.lookup? .void = some void)
    (hptr : s.types.pointerWidth = .ok ptr) (loc : Option Location) (x : Ir.Expr) :
    ∃ y s' vs code, stable loc x s = .ok (y, s') ∧ x.HeldIn ptr loc vs code y ∧
      s.types.Extends s'.types ∧ s'.diagnostics = s.diagnostics ∧
      s'.function.body.toList = s.function.body.toList ++ code ∧
      s.entities.size ≤ s'.entities.size ∧ vs.Nodup ∧
      ∀ v ∈ vs, s.entities.size ≤ v.index ∧ v.index < s'.entities.size := by
  -- what is computed is kept in a new temporary; the type of its contents may be new as well
  have hkept : ∃ s',
      (do
        let type ← pointerTo (← ask (·.void))
        let tmp ← storeTemporary loc type x
        return Ir.Expr.var (← pointerWidth) tmp) s = .ok (.var ptr ⟨s.entities.size⟩, s') ∧
      s.types.Extends s'.types ∧ s'.diagnostics = s.diagnostics ∧
      s'.function.body.toList =
        s.function.body.toList ++ [⟨.assign (.addr ptr ⟨s.entities.size⟩) x, loc⟩] ∧
      s'.entities.size = s.entities.size + 1 := by
    have hask : ask (·.void) s = .ok (void, s) := ask_ok (by rw [TypeTable.void, hvoid])
    obtain ⟨types, id, hpointer, hext, href⟩ := exists_pointerTo hvoid
    have hptr' := hext.lasts TypeTable.pointerWidth hptr
    refine ⟨(({ s with types }).takeTemporary id (.pointer .void)).push
      ⟨.assign (.addr ptr ⟨s.entities.size⟩) x, loc⟩, ?_, hext, rfl, by simp, by simp⟩
    rw [bind_ok hask, bind_ok hpointer,
      bind_ok (storeTemporary_ok (s := { s with types }) href hptr'),
      bind_ok (pointerWidth_of hptr')]
    rfl
  cases x with
  -- names need no temporary, as they are worth the same later on
  | addr | str | var =>
    exact ⟨_, s, [], [], rfl, .named rfl, .refl, rfl, (List.append_nil _).symm, le_rfl, .nil,
      List.forall_mem_nil _⟩
  | _ =>
    obtain ⟨s', hrun, hext, hdiagnostics, hbody, hsize⟩ := hkept
    exact ⟨_, s', [⟨s.entities.size⟩], _, hrun, .kept rfl _, hext, hdiagnostics, hbody,
      hsize.ge.trans' (Nat.le_succ _), List.nodup_singleton _,
      List.forall_mem_singleton.2 ⟨le_rfl, hsize ▸ Nat.lt_succ_self _⟩⟩

end Lower

/-! ## Memory -/

namespace Ir

namespace Places

variable {ptr : Width}

/-- The bytes of the variable that an expression names. -/
def holder (p : Places ptr) : Expr → Set (BitVec ptr.bits)
  | .var w v => {x | ∃ b, p.entity v = some b ∧ x ∈ span b w.bytes}
  | _ => ∅

/-- The bytes of variables that hold addresses. -/
def slots (p : Places ptr) (vs : List EntityId) : Set (BitVec ptr.bits) :=
  {x | ∃ v ∈ vs, x ∈ p.holder (.var ptr v)}

variable {p : Places ptr} {seen seen' : Set (BitVec ptr.bits)} {m m' : Bytes ptr} {x : Expr}
  {r : Value} {us vs : List EntityId}

@[simp] theorem slots_nil : p.slots [] = ∅ := by
  simp [slots]

@[simp] theorem slots_singleton {v : EntityId} : p.slots [v] = p.holder (.var ptr v) := by
  simp [slots]

@[simp] theorem slots_append : p.slots (us ++ vs) = p.slots us ∪ p.slots vs := by
  ext x
  simp [slots, or_and_right, exists_or]

theorem holder_var {v : EntityId} {w : Width} {b : BitVec ptr.bits} (h : p.entity v = some b) :
    p.holder (.var w v) = span b w.bytes := by
  simp [holder, h]

/-- An address that is named has its value as long as the variable that it names does. -/
theorem result?_holder (hx : x.isStable = true)
    (h : ∀ z ∈ p.holder x, z ∈ seen → z ∈ seen' ∧ m' z = m z)
    (hr : x.result? (p.env seen m) = some r) : x.result? (p.env seen' m') = some r := by
  cases x with
  | addr | str => exact hr
  | var w v =>
    obtain ⟨c, hc, rfl⟩ := Expr.result?_eq_some_iff.1 hr
    obtain ⟨b, hb, hc⟩ := Option.bind_eq_some_iff.1 hc
    rw [holder_var hb] at h
    rw [result?_var hb, Bytes.load?_mono h hc]
    rfl
  | _ => cases hx

end Places

variable {ptr : Width} {p : Places ptr} {m : Bytes ptr} {a : BitVec ptr.bits} {x y : Expr}
  {vs : List EntityId} {code : List Stmt} {loc : Option Location}

theorem Expr.HeldIn.isStable (h : x.HeldIn ptr loc vs code y) : y.isStable = true := by
  cases h with
  | named h => exact h
  | kept => rfl

/-- The code that holds an address evaluates it once, and writes the temporary in which it is kept.
The bytes in `S` are not looked at from then on. -/
theorem Expr.HeldIn.steps (h : x.HeldIn ptr loc vs code y) {S : Set (BitVec ptr.bits)}
    (hplaced : ∀ v ∈ vs, ∃ b, p.entity v = some b) (hS : Disjoint (p.slots vs) S)
    (hx : x.result? (p.env (p.slots vs ∪ S)ᶜ m) = some ⟨ptr, a⟩) :
    ∃ m' kept, (∀ body rest log,
        Steps (p.world .univ) body (code ++ rest, ⟨m, log⟩) (rest, ⟨m', log ++ kept⟩)) ∧
      (∀ z ∉ p.slots vs, m' z = m z) ∧ (∀ z ∈ kept, z ∈ p.slots vs) ∧
      y.result? (p.env Sᶜ m') = some ⟨ptr, a⟩ := by
  cases h with
  | named h =>
    refine ⟨m, [], fun body rest log => ?_, fun _ _ => rfl, List.forall_mem_nil _, ?_⟩
    · rw [List.append_nil]
      exact .refl
    · rwa [Places.slots_nil, Set.empty_union] at hx
  -- the temporary is its own slot, so the address that it holds is read from there afterwards
  | kept h v =>
    obtain ⟨b, hb⟩ := hplaced v (List.mem_singleton_self v)
    have hx' : x.result? (p.env .univ m) = some ⟨ptr, a⟩ :=
      Places.result?_mono (fun _ _ => ⟨trivial, rfl⟩) hx
    rw [Places.slots_singleton, Places.holder_var hb] at hS ⊢
    refine ⟨m.store b ⟨ptr, a⟩, addresses b ptr.bytes,
      fun body rest log => Places.steps_assign (s := ⟨m, log⟩) (Places.result?_addr hb) hx',
      fun z hz => Bytes.store_of_notMem hz, fun z hz => mem_addresses.1 hz, ?_⟩
    have hseen : span b ptr.bytes ⊆ Sᶜ := Set.subset_compl_iff_disjoint_right.2 hS
    rw [Places.result?_var hb, Bytes.load?_store hseen (by cases ptr <;> decide)]
    rfl

end Ir

end Backend386
