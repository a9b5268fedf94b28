import Mathlib.Data.Set.BooleanAlgebra
import Mathlib.Order.CompletePartialOrder
import Backend386.Proofs.Ir.Step

/-!
# Intermediate code on memory

Here intermediate code runs on a byte at each address, for pointers of any width. Everything has a
place in memory, variables as well. The bytes that can be seen are given, so that a run says what it
reads, and the state lists the bytes that are written, in order.

* `Ir.word` — a value of several bytes, the low byte first;
* `Ir.span` — the addresses from one on;
* `Ir.Places` — where everything stands, and `Ir.Places.env`, `Ir.Places.world` — memory as what
  expressions see and statements act on;
* `Ir.Places.steps_assigns` — runs that write memory piece by piece.
-/

namespace Backend386.Ir

/-! ## Bytes of values -/

/-- The value of `n` bytes, the low byte first. -/
def word (f : Nat → BitVec 8) : (n : Nat) → BitVec (8 * n)
  | 0 => 0#0
  | n + 1 => word (fun i => f (i + 1)) n ++ f 0

/-- A byte of a value, from the low one on. -/
def Value.byte (v : Value) (i : Nat) : BitVec 8 :=
  v.2.extractLsb' (8 * i) 8

section

variable {f g : Nat → BitVec 8} {n : Nat}

theorem word_congr (h : ∀ i < n, f i = g i) : word f n = word g n := by
  induction n generalizing f g with
  | zero => rfl
  | succ n ih =>
    rw [word, word, h 0 (Nat.succ_pos n), ih fun i hi => h (i + 1) (Nat.succ_lt_succ hi)]

/-- A bit of a word is one of the byte that it lies in. -/
theorem getLsbD_word {i : Nat} (hi : i < 8 * n) :
    (word f n).getLsbD i = (f (i / 8)).getLsbD (i % 8) := by
  induction n generalizing f i with
  | zero => omega
  | succ n ih =>
    rw [word, BitVec.getLsbD_append]
    by_cases h8 : i < 8
    · simp [h8, Nat.div_eq_of_lt h8, Nat.mod_eq_of_lt h8]
    · have hdiv : (i - 8) / 8 + 1 = i / 8 := by omega
      have hmod : (i - 8) % 8 = i % 8 := by omega
      rw [if_neg h8, ih (by omega), hdiv, hmod]

/-- The bytes of a value are the ones it was made of. -/
theorem extractLsb'_word {i : Nat} (hi : i < n) : (word f n).extractLsb' (8 * i) 8 = f i := by
  refine BitVec.eq_of_getLsbD_eq fun j hj => ?_
  have hdiv : (8 * i + j) / 8 = i := by omega
  have hmod : (8 * i + j) % 8 = j := by omega
  rw [BitVec.getLsbD_extractLsb', getLsbD_word (by omega), hdiv, hmod]
  simp [hj]

/-- A value is made of its bytes. -/
theorem word_extractLsb' (v : BitVec (8 * n)) : word (fun i => v.extractLsb' (8 * i) 8) n = v := by
  refine BitVec.eq_of_getLsbD_eq fun i hi => ?_
  rw [getLsbD_word hi, BitVec.getLsbD_extractLsb', Nat.div_add_mod]
  simp [Nat.mod_lt]

end

/-! ## Addresses -/

/-- The `n` addresses from `a` on, wrapping round. -/
def span {k : Nat} (a : BitVec k) (n : Nat) : Set (BitVec k) :=
  {x | (x - a).toNat < n}

section

variable {k m n : Nat} {a x : BitVec k}

instance : DecidablePred (· ∈ span a n) :=
  fun x => inferInstanceAs (Decidable ((x - a).toNat < n))

theorem mem_span : x ∈ span a n ↔ (x - a).toNat < n :=
  Iff.rfl

@[simp] theorem add_sub_base (a x : BitVec k) : a + x - a = x := by
  rw [BitVec.add_comm, BitVec.add_sub_cancel]

theorem add_mem_span {i : Nat} (hi : i < n) : a + BitVec.ofNat k i ∈ span a n := by
  rw [mem_span, add_sub_base, BitVec.toNat_ofNat]
  exact Nat.lt_of_le_of_lt (Nat.mod_le ..) hi

theorem span_mono (h : m ≤ n) : span a m ⊆ span a n :=
  fun _ hx => Nat.lt_of_lt_of_le hx h

/-- Parts of memory that do not reach each other. -/
theorem disjoint_span {a b : BitVec k} (hm : m ≤ (b - a).toNat) (hn : n ≤ (a - b).toNat) :
    Disjoint (span a m) (span b n) := by
  refine Set.disjoint_left.2 fun x hx hx' => ?_
  have hsub (a b : BitVec k) : b - a = (x - a) - (x - b) := by
    rw [sub_sub_sub_cancel_left]
  rw [mem_span] at hx hx'
  rcases Nat.le_total (x - a).toNat (x - b).toNat with h | h
  · rw [hsub b a, BitVec.toNat_sub_of_le (BitVec.le_def.2 h)] at hn
    omega
  · rw [hsub a b, BitVec.toNat_sub_of_le (BitVec.le_def.2 h)] at hm
    omega

/-- An address in a span has an offset that is less than its length. -/
theorem mem_span_iff_exists : x ∈ span a n ↔ ∃ i < n, x = a + BitVec.ofNat k i := by
  constructor
  · intro h
    refine ⟨(x - a).toNat, h, ?_⟩
    rw [BitVec.ofNat_toNat, BitVec.setWidth_eq, BitVec.add_comm, BitVec.sub_add_cancel]
  · rintro ⟨i, hi, rfl⟩
    exact add_mem_span hi

theorem span_one : span a 1 = {a} := by
  ext x
  simp [mem_span_iff_exists]

end

/-- The addresses of `n` bytes from `a` on, in order. -/
def addresses {k : Nat} (a : BitVec k) (n : Nat) : List (BitVec k) :=
  (List.range n).map fun i => a + BitVec.ofNat k i

section

variable {k m n : Nat} {a x : BitVec k}

theorem mem_addresses : x ∈ addresses a n ↔ x ∈ span a n := by
  rw [mem_span_iff_exists, addresses, List.mem_map]
  exact exists_congr fun i => and_congr List.mem_range eq_comm

theorem addresses_add :
    addresses a (m + n) = addresses a m ++ addresses (a + BitVec.ofNat k m) n := by
  simp [addresses, List.range_add, BitVec.ofNat_add, BitVec.add_assoc]

/-- Where there is room for all of them, no address is repeated. -/
theorem nodup_addresses (h : n ≤ 2 ^ k) : (addresses a n).Nodup := by
  refine List.Nodup.map_on (fun i hi j hj hij => ?_) List.nodup_range
  have hi := Nat.lt_of_lt_of_le (List.mem_range.1 hi) h
  have hj := Nat.lt_of_lt_of_le (List.mem_range.1 hj) h
  have hsame := congrArg BitVec.toNat ((BitVec.add_right_inj a).1 hij)
  rwa [BitVec.toNat_ofNat, BitVec.toNat_ofNat, Nat.mod_eq_of_lt hi, Nat.mod_eq_of_lt hj] at hsame

end

/-! ## Memory -/

/-- A byte at each address that a pointer can hold. -/
abbrev Bytes (ptr : Width) := BitVec ptr.bits → BitVec 8

namespace Bytes

variable {ptr : Width}

/-- The memory once a value is stored at an address. -/
def store (m : Bytes ptr) (a : BitVec ptr.bits) (v : Value) : Bytes ptr := fun x =>
  if x ∈ span a v.1.bytes then v.byte (x - a).toNat else m x

/-- The memory once `n` bytes from an address on are given by their distance from it. -/
def filled (m : Bytes ptr) (a : BitVec ptr.bits) (n : Nat) (g : BitVec ptr.bits → BitVec 8) :
    Bytes ptr := fun x =>
  if x ∈ span a n then g (x - a) else m x

open Classical in
/-- The value at an address, if its bytes can be seen. -/
noncomputable def load? (m : Bytes ptr) (seen : Set (BitVec ptr.bits)) (a : BitVec ptr.bits)
    (w : Width) : Option (BitVec w.bits) :=
  if span a w.bytes ⊆ seen then some (word (fun i => m (a + BitVec.ofNat ptr.bits i)) w.bytes)
  else none

variable {m m' : Bytes ptr} {seen seen' : Set (BitVec ptr.bits)} {a x : BitVec ptr.bits} {w : Width}
  {v : Value} {n k : Nat} {g : BitVec ptr.bits → BitVec 8}

theorem store_of_notMem (h : x ∉ span a v.1.bytes) : m.store a v x = m x :=
  if_neg h

theorem filled_of_notMem (h : x ∉ span a n) : m.filled a n g x = m x :=
  if_neg h

theorem filled_add {i : Nat} (hi : i < n) :
    m.filled a n g (a + BitVec.ofNat ptr.bits i) = g (BitVec.ofNat ptr.bits i) := by
  rw [filled, if_pos (add_mem_span hi), add_sub_base]

/-- Bytes that are as they should be already. -/
theorem filled_eq_self (h : ∀ x ∈ span a n, m x = g (x - a)) : m.filled a n g = m := by
  funext x
  by_cases hx : x ∈ span a n
  · exact (if_pos hx).trans (h x hx).symm
  · exact if_neg hx

theorem load?_eq_some (h : span a w.bytes ⊆ seen) : m.load? seen a w =
    some (word (fun i => m (a + BitVec.ofNat ptr.bits i)) w.bytes) :=
  if_pos h

/-- What can be seen stays as long as its bytes do. -/
theorem load?_mono (h : ∀ x ∈ span a w.bytes, x ∈ seen → x ∈ seen' ∧ m' x = m x)
    {b : BitVec w.bits} (hb : m.load? seen a w = some b) : m'.load? seen' a w = some b := by
  obtain ⟨hseen, hb⟩ := Option.ite_none_right_eq_some.1 hb
  rw [load?_eq_some fun x hx => (h x hx (hseen hx)).1, ← hb]
  exact congrArg some (word_congr fun i hi =>
    (h _ (add_mem_span hi) (hseen (add_mem_span hi))).2)

/-- What was stored is read back. -/
theorem load?_store {b : BitVec w.bits} (h : span a w.bytes ⊆ seen) (hw : w.bytes ≤ 2 ^ ptr.bits) :
    (m.store a ⟨w, b⟩).load? seen a w = some b := by
  rw [load?_eq_some h]
  refine congrArg some (Eq.trans (word_congr fun i hi => ?_) (word_extractLsb' b))
  rw [store, if_pos (add_mem_span hi), add_sub_base, BitVec.toNat_ofNat,
    Nat.mod_eq_of_lt (Nat.lt_of_lt_of_le hi hw)]
  rfl

/-- A piece that is stored behind the bytes that are filled. -/
theorem store_filled (hg : ∀ j < v.1.bytes, v.byte j = g (BitVec.ofNat ptr.bits (k + j))) :
    (m.filled a k g).store (a + BitVec.ofNat ptr.bits k) v = m.filled a (k + v.1.bytes) g := by
  funext x
  -- each byte is reached from the base by some distance, which may wrap round
  obtain ⟨d, rfl⟩ : ∃ d, x = a + d := ⟨x - a, by rw [BitVec.add_comm, BitVec.sub_add_cancel]⟩
  have hdistance : a + d - (a + BitVec.ofNat ptr.bits k) = d - BitVec.ofNat ptr.bits k := by
    rw [← BitVec.sub_sub, add_sub_base]
  simp only [store, filled, mem_span, add_sub_base, hdistance]
  by_cases hlast : (d - BitVec.ofNat ptr.bits k).toNat < v.1.bytes
  · -- the byte is one of the piece, wherever the distance wraps round
    have hd : BitVec.ofNat ptr.bits (k + (d - BitVec.ofNat ptr.bits k).toNat) = d := by
      rw [BitVec.ofNat_add, BitVec.ofNat_toNat, BitVec.setWidth_eq, BitVec.add_comm,
        BitVec.sub_add_cancel]
    have hlt : d.toNat < k + v.1.bytes := by
      rw [← hd, BitVec.toNat_ofNat]
      exact Nat.lt_of_le_of_lt (Nat.mod_le ..) (by omega)
    rw [if_pos hlast, if_pos hlt, hg _ hlast, hd]
  -- any other byte is as it was: it is among the first ones before and afterwards, or not at all
  · have hsame : d.toNat < k + v.1.bytes ↔ d.toNat < k := by
      refine ⟨fun h => by_contra fun hk => hlast ?_, fun h => by omega⟩
      have hle : (BitVec.ofNat ptr.bits k).toNat = k := by
        rw [BitVec.toNat_ofNat]
        exact Nat.mod_eq_of_lt (by omega)
      rw [BitVec.toNat_sub_of_le (BitVec.le_def.2 (by omega)), hle]
      omega
    simp only [if_neg hlast, hsame]

end Bytes

/-! ## Where everything stands -/

/-- Where variables and string literals stand in memory. -/
structure Places (ptr : Width) where
  entity : EntityId → Option (BitVec ptr.bits)
  literal : StringId → Option (BitVec ptr.bits)

/-- Memory, and the bytes that were written, in order. -/
structure Written (ptr : Width) where
  memory : Bytes ptr
  writes : List (BitVec ptr.bits)

/-- A value is stored at an address. -/
def Written.store {ptr : Width} (s : Written ptr) (a : BitVec ptr.bits) (v : Value) :
    Written ptr where
  memory := s.memory.store a v
  writes := s.writes ++ addresses a v.1.bytes

namespace Places

variable {ptr : Width}

/-- What expressions see of a memory of which some bytes can be seen. -/
noncomputable def env (p : Places ptr) (seen : Set (BitVec ptr.bits)) (m : Bytes ptr) : Env where
  var v w := (p.entity v).bind fun a => m.load? seen a w
  address v := (p.entity v).map (·.setWidth 64)
  literal s := (p.literal s).map (·.setWidth 64)
  load a w := m.load? seen (a.setWidth ptr.bits) w

/-- Memory as what statements act on. Nothing is called. -/
noncomputable def world (p : Places ptr) (seen : Set (BitVec ptr.bits)) : World (Written ptr) where
  env s := p.env seen s.memory
  assign s target v :=
    (target.eval (p.env seen s.memory)).map fun a => s.store (a.setWidth ptr.bits) v
  call _ _ _ _ _ := False

variable {p : Places ptr} {seen seen' : Set (BitVec ptr.bits)} {m m' : Bytes ptr}
  {a d : BitVec ptr.bits} {w : Width} {e target : Expr} {v : Value} {body rest : List Stmt}
  {loc : Option Location}

/-- More that is seen can be read, as long as it is the same. -/
theorem env_mono (h : ∀ x ∈ seen, x ∈ seen' ∧ m' x = m x) : (p.env seen m).Le (p.env seen' m') where
  var hx := by
    obtain ⟨a, ha, hx⟩ := Option.bind_eq_some_iff.1 hx
    exact Option.bind_eq_some_iff.2 ⟨a, ha, Bytes.load?_mono (fun x _ => h x) hx⟩
  address := id
  literal := id
  load := Bytes.load?_mono fun x _ => h x

/-- A value stays as long as the bytes do that are seen. -/
theorem result?_mono (h : ∀ x ∈ seen, x ∈ seen' ∧ m' x = m x)
    (hv : e.result? (p.env seen m) = some v) : e.result? (p.env seen' m') = some v := by
  obtain ⟨b, hb, rfl⟩ := Expr.result?_eq_some_iff.1 hv
  exact Expr.result?_eq_some_iff.2 ⟨b, Expr.eval_mono (env_mono h) e hb, rfl⟩

theorem setWidth_setWidth_pointer (a : BitVec ptr.bits) :
    (a.setWidth 64).setWidth ptr.bits = a := by
  rw [BitVec.setWidth_setWidth_of_le _ (by cases ptr <;> decide), BitVec.setWidth_eq]

theorem result?_addr {u : EntityId} (h : p.entity u = some a) :
    (Expr.addr ptr u).result? (p.env seen m) = some ⟨ptr, a⟩ :=
  Expr.result?_addr (congrArg (Option.map (BitVec.setWidth 64)) h)

/-- The address of a literal is a value of a pointer. -/
theorem result?_str {s : StringId} (h : p.literal s = some a) :
    (Expr.str ptr s).result? (p.env seen m) = some ⟨ptr, a⟩ := by
  have hword : (Expr.str ptr s).eval (p.env seen m) = some ((a.setWidth 64).setWidth ptr.bits) :=
    congrArg (fun r => (r.map (·.setWidth 64)).map (·.setWidth ptr.bits)) h
  rw [Expr.result?, hword, setWidth_setWidth_pointer]
  rfl

/-- A variable is read at its address. -/
theorem result?_var {u : EntityId} (h : p.entity u = some a) :
    (Expr.var w u).result? (p.env seen m) = (m.load? seen a w).map (⟨w, ·⟩) := by
  have hload : (Expr.var w u).eval (p.env seen m) = m.load? seen a w :=
    congrArg (Option.bind · fun a => m.load? seen a w) h
  rw [Expr.result?, hload]
  rfl

theorem result?_mem (h : e.result? (p.env seen m) = some ⟨ptr, a⟩) :
    (Expr.mem w e).result? (p.env seen m) = (m.load? seen a w).map (⟨w, ·⟩) := by
  have hload : (p.env seen m).load (a.setWidth 64) w = m.load? seen a w :=
    congrArg (m.load? seen · w) (setWidth_setWidth_pointer a)
  rw [Expr.result?_mem w h, hload]

/-! ### Runs -/

/-- An assignment stores the value at the address of its target. -/
theorem steps_assign {s : Written ptr} (ha : target.result? (p.env seen s.memory) = some ⟨ptr, a⟩)
    (hv : e.result? (p.env seen s.memory) = some v) :
    Steps (p.world seen) body (⟨.assign target e, loc⟩ :: rest, s) (rest, s.store a v) := by
  obtain ⟨b, hb, rfl⟩ := Expr.result?_eq_some_iff.1 hv
  obtain ⟨c, hc, hword⟩ := Expr.exists_eval_of_result? ha
  refine .single (.assign (.value hb) ?_)
  have hassign : (p.world seen).assign s target ⟨e.width, b⟩ =
      some (s.store (c.setWidth ptr.bits) ⟨e.width, b⟩) :=
    congrArg (Option.map _) hc
  rw [hassign, ← hword, BitVec.setWidth_eq]

/-- Stores one after another. -/
def assigns (loc : Option Location) (target value : Nat → Expr) (n : Nat) : List Stmt :=
  (List.range n).map fun i => ⟨.assign (target i) (value i), loc⟩

/-- Stores of pieces of `b` bytes one after another fill memory with the bytes that `g` gives. Every
byte is written once, in order. -/
theorem steps_assigns {target value : Nat → Expr} {g : BitVec ptr.bits → BitVec 8} {b n : Nat}
    {log : List (BitVec ptr.bits)}
    (ht : ∀ i < n, (target i).result? (p.env seen (m.filled d (i * b) g)) =
      some ⟨ptr, d + BitVec.ofNat ptr.bits (i * b)⟩)
    (hv : ∀ i < n, ∃ v : Value, (value i).result? (p.env seen (m.filled d (i * b) g)) = some v ∧
      v.1.bytes = b ∧ ∀ j < b, v.byte j = g (BitVec.ofNat ptr.bits (i * b + j))) :
    Steps (p.world seen) body (assigns loc target value n ++ rest, ⟨m, log⟩)
      (rest, ⟨m.filled d (n * b) g, log ++ addresses d (n * b)⟩) := by
  -- by induction on the number of pieces: the last one is written where the others have stopped
  induction n generalizing rest with
  | zero =>
    have hnone : m.filled d 0 g = m :=
      Bytes.filled_eq_self fun x hx => absurd hx (Nat.not_lt_zero _)
    rw [Nat.zero_mul, hnone, show addresses d 0 = [] from rfl, List.append_nil]
    exact .refl
  | succ n ih =>
    obtain ⟨v, hvalue, rfl, hbytes⟩ := hv n (Nat.lt_succ_self n)
    have hcode : assigns loc target value (n + 1) ++ rest =
        assigns loc target value n ++ ⟨.assign (target n) (value n), loc⟩ :: rest := by
      simp [assigns, List.range_succ]
    rw [hcode, Nat.succ_mul, addresses_add, ← List.append_assoc, ← Bytes.store_filled hbytes]
    refine (ih (fun i hi => ht i (Nat.lt_succ_of_lt hi)) fun i hi =>
      hv i (Nat.lt_succ_of_lt hi)).trans ?_
    exact steps_assign (s := ⟨m.filled d (n * v.1.bytes) g, log ++ addresses d (n * v.1.bytes)⟩)
      (ht n (Nat.lt_succ_self n)) hvalue

end Places

end Backend386.Ir
