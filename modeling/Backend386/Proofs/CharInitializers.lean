import Backend386.Text.Escapes
import Backend386.Proofs.Lowering.Stores
import Backend386.Proofs.Strings.Table

/-!
# Arrays that are initialized with string literals

An array on the stack that is initialized with a string literal is filled byte by byte: with the
bytes of the literal and its terminator as far as the array reaches, and with zeros behind them. The
terminator may be missing, but the bytes have to fit.

* `AssemblerString.byte` — the bytes of a literal, with zeros behind them;
* `Lower.charStores` — the stores;
* `Ir.Places.steps_chars` — what they do;
* `Lower.enterVariable_chars` — what becomes of the declaration of the array.
-/

namespace Backend386

open Ir (Places Bytes span addresses)

/-! ## Bytes of literals -/

/-- A byte of a text, or zero behind its end. -/
def AssemblerString.byte (s : String) (k : Nat) : BitVec 8 :=
  ((bytes s)[k]?.getD 0).toBitVec

theorem AssemblerString.byte_of_le {s : String} {k : Nat} (h : s.utf8ByteSize ≤ k) :
    byte s k = 0 := by
  have hlength : (bytes s).length = s.utf8ByteSize := rfl
  rw [byte, List.getElem?_eq_none (hlength ▸ h)]
  rfl

/-! ## Code -/

namespace Lower

/-- The stores that fill an array of `size` bytes with a literal of `length` bytes. -/
def charStores (ptr : Width) (loc : Option Location) (array literal : Ir.Expr) (size length : Nat) :
    List Ir.Stmt :=
  Places.assigns loc (fun k => .offsetBy ptr array k)
    (fun k => if k ≤ length then .mem .w8 (.offsetBy ptr literal k) else .int .w8 0) size

variable {s : LowerState} {types : TypeTable} {type id : TypeId} {ptr : Width} {size : Nat}
  {loc : Option Location} {n : Source.Note} {value : String} {v : EntityId}

/-- Evaluating a string literal interns it, and does nothing else. -/
theorem lowerValue_str (hn : s.types.intern n.type = .ok (types, id))
    (hptr : s.types.pointerWidth = .ok ptr) :
    (Source.Expr.str n value).lowerValue s = .ok (.str ptr (s.strings.intern value).2,
      { s with types, strings := (s.strings.intern value).1 }) := by
  have hptr' := (TypeTable.intern_extends hn).1.lasts TypeTable.pointerWidth hptr
  set s' : LowerState := { s with types, strings := (s.strings.intern value).1 } with hs'
  have htype : typeId n.type s = .ok (id, { s with types }) := by
    rw [typeId, bind_ok (ask_ok hn)]
    rfl
  have hstring : stringId value { s with types } = .ok ((s.strings.intern value).2, s') := rfl
  -- a literal is no constant, so the depth at which constants are opened does not matter
  have hnode (inline : Entity → Source.Expr → Lower Ir.Expr) :
      Source.Expr.lowerUsing inline .value (.str n value) s =
        .ok (some (.str ptr (s.strings.intern value).2), s') := by
    rw [Source.Expr.lowerUsing, bind_ok htype, bind_ok hstring,
      bind_ok (pointerWidth_of (s := s') hptr')]
    rfl
  have hwithin (depth : Nat) : Source.Expr.lowerWithin depth .value (.str n value) s =
      .ok (some (.str ptr (s.strings.intern value).2), s') := by
    cases depth <;> exact hnode _
  rw [Source.Expr.lowerValue, Source.Expr.lower]
  exact bind_ok (hwithin s.entities.size)

/-- The chars of a literal that is not too long are stored one after another, with zeros behind
them. -/
theorem storeInitialChars_ok (hsize : s.types.sizeOf type = .ok size)
    (hn : s.types.intern n.type = .ok (types, id)) (hptr : s.types.pointerWidth = .ok ptr)
    {length : Nat} (hlength : length ≤ size) :
    storeInitialChars loc type (.addr ptr v) (.str n value) length s = .ok ((),
      ({ s with types, strings := (s.strings.intern value).1 } : LowerState).pushes
        (charStores ptr loc (.addr ptr v) (.str ptr (s.strings.intern value).2) size length)) := by
  have hask : ask (·.sizeOf type) s = .ok (size, s) := ask_ok hsize
  have hptr' := (TypeTable.intern_extends hn).1.lasts TypeTable.pointerWidth hptr
  rw [storeInitialChars, bind_ok hask, if_neg (Nat.not_lt.2 hlength),
    bind_ok (show stable loc (.addr ptr v) s = .ok (.addr ptr v, s) from rfl),
    bind_ok (lowerValue_str hn hptr)]
  refine forM_push fun k _ s' hs' => ?_
  have hptr'' : s'.types.pointerWidth = .ok ptr := hs' ▸ hptr'
  rw [bind_ok (offsetAddress_ok hptr'')]
  dsimp only
  by_cases hk : k ≤ length
  · rw [if_pos hk, if_pos hk, bind_ok (offsetAddress_ok hptr'')]
    rfl
  · rw [if_neg hk, if_neg hk]
    rfl

end Lower

/-! ## Memory -/

/-- The stores give each byte of the array its value once. The literal is only looked at where the
array reaches, and up to its terminator. -/
theorem Ir.Places.steps_chars {ptr : Width} {p : Places ptr} {m : Bytes ptr} {v : EntityId}
    {id : StringId} {a l : BitVec ptr.bits} {size : Nat} {value : String} {loc : Option Location}
    {body rest : List Ir.Stmt} (ha : p.entity v = some a) (hl : p.literal id = some l)
    (hdata : ∀ k ≤ value.utf8ByteSize, m (l + BitVec.ofNat _ k) = AssemblerString.byte value k)
    (hapart : Disjoint (span l (min size (value.utf8ByteSize + 1))) (span a size))
    (hfits : size ≤ 2 ^ ptr.bits) :
    Steps (p.world (span l (min size (value.utf8ByteSize + 1)))) body
      (Lower.charStores ptr loc (.addr ptr v) (.str ptr id) size value.utf8ByteSize ++ rest,
        ⟨m, []⟩)
      (rest, ⟨m.filled a size fun k => AssemblerString.byte value k.toNat, addresses a size⟩) := by
  have hbyte {i j : Nat} (hi : i < size) (hj : j < 1) : AssemblerString.byte value
      (BitVec.ofNat ptr.bits (i + j)).toNat = AssemblerString.byte value i := by
    obtain rfl := Nat.lt_one_iff.1 hj
    rw [Nat.add_zero, BitVec.toNat_ofNat, Nat.mod_eq_of_lt (Nat.lt_of_lt_of_le hi hfits)]
  have hrun : Steps (p.world (span l (min size (value.utf8ByteSize + 1)))) body
      (Lower.charStores ptr loc (.addr ptr v) (.str ptr id) size value.utf8ByteSize ++ rest,
        ⟨m, []⟩)
      (rest, ⟨m.filled a (size * 1) fun k => AssemblerString.byte value k.toNat,
        [] ++ addresses a (size * 1)⟩) := by
    refine Places.steps_assigns (fun i _ => ?_) fun i hi => ?_ <;> rw [Nat.mul_one]
    · exact Expr.result?_offsetBy (Places.result?_addr ha)
    by_cases hk : i ≤ value.utf8ByteSize
    · -- a byte of the literal, which the stores before it have left alone
      have hread : l + BitVec.ofNat ptr.bits i ∈ span l (min size (value.utf8ByteSize + 1)) :=
        add_mem_span (Nat.lt_min.2 ⟨hi, Nat.lt_succ_of_le hk⟩)
      have hkept := Bytes.filled_of_notMem (m := m)
        (g := fun k => AssemblerString.byte value k.toNat)
        fun h => Set.disjoint_left.1 hapart hread (span_mono hi.le h)
      have hseen : span (l + BitVec.ofNat ptr.bits i) Width.w8.bytes ⊆
          span l (min size (value.utf8ByteSize + 1)) := by
        rw [Width.bytes, span_one]
        exact Set.singleton_subset_iff.2 hread
      rw [if_pos hk]
      refine ⟨_, (Places.result?_mem (Expr.result?_offsetBy (Places.result?_str hl))).trans
        (congrArg _ (Bytes.load?_eq_some hseen)), rfl, fun j hj => ?_⟩
      rw [hbyte hi hj, ← hdata i hk, ← hkept]
      refine (extractLsb'_word hj).trans ?_
      obtain rfl := Nat.lt_one_iff.1 hj
      rw [BitVec.add_zero]
    -- behind the literal, zeros are stored
    · rw [if_neg hk]
      refine ⟨⟨.w8, 0⟩, rfl, rfl, fun j hj => ?_⟩
      rw [hbyte hi hj, AssemblerString.byte_of_le (Nat.le_of_not_le hk)]
      obtain rfl := Nat.lt_one_iff.1 hj
      rfl
  rwa [Nat.mul_one] at hrun

/-! ## Declarations -/

namespace Lower

variable {s : LowerState} {types : TypeTable} {type id : TypeId} {ptr : Width} {size : Nat}
  {n : Source.Note} {value : String} {v : EntityId} {e : Entity}

/-- The declaration of an array with a string literal stores the literal. -/
theorem enterVariable_str (he : s.entities.get v = .ok e) (hauto : e.isPrivate = false)
    (hinit : e.initializer? = some (.str n value)) (htype : e.typeId = .ok type)
    (harray : s.types.isArray type = .ok true) (hptr : s.types.pointerWidth = .ok ptr) :
    enterVariable v s = storeInitialChars (n.location.or e.location) type (.addr ptr v)
      (.str n value) value.utf8ByteSize s := by
  have hentity : entity v s = .ok (e, s) := by
    rw [entity, bind_ok (x := s) rfl, he]
    rfl
  have hask : ask (·.isArray type) s = .ok (true, s) := ask_ok harray
  rw [enterVariable, bind_ok hentity, hauto, if_neg Bool.false_ne_true, hinit]
  dsimp only
  rw [bind_ok (lift_ok htype), bind_ok (pointerWidth_of hptr), storeInitial]
  dsimp only
  rw [bind_ok hask, if_pos rfl]
  rfl

/-- **String initializers fill the array exactly.** The declaration of an array of `size` bytes on
the stack, which is initialized with a string literal, is lowered to nothing but an error if the
literal is longer than the array. Otherwise, as long as the table knows what the type of the literal
is made of, nothing is reported, and the statements run where the literal stands in memory with a
zero behind it, apart from the array, and where no byte can be seen but those of the literal and its
terminator as far as the array reaches. They write each byte of the array once, and nothing else,
and leave the bytes of the literal there, with zeros behind them. -/
theorem enterVariable_chars (he : s.entities.get v = .ok e) (hauto : e.isPrivate = false)
    (hinit : e.initializer? = some (.str n value)) (htype : e.typeId = .ok type)
    (harray : s.types.isArray type = .ok true) (hsize : s.types.sizeOf type = .ok size)
    (hptr : s.types.pointerWidth = .ok ptr) :
    (size < value.utf8ByteSize → enterVariable v s = .ok ((), { s with
      diagnostics := s.diagnostics.error (n.location.or e.location)
        (LoweringProblem.initializerTooLong size).message })) ∧
    (value.utf8ByteSize ≤ size → ∀ types id, s.types.intern n.type = .ok (types, id) →
      ∃ s' literal code, enterVariable v s = .ok ((), s') ∧ s'.diagnostics = s.diagnostics ∧
      s'.strings.value? literal = some value ∧
      s'.function.body.toList = s.function.body.toList ++ code ∧
      ∀ (p : Places ptr) (m : Bytes ptr) (a l : BitVec ptr.bits),
        p.entity v = some a → p.literal literal = some l →
        (∀ k ≤ value.utf8ByteSize, m (l + BitVec.ofNat _ k) = AssemblerString.byte value k) →
        Disjoint (span l (min size (value.utf8ByteSize + 1))) (span a size) →
        (addresses a size).Nodup ∧ ∃ m',
          (∀ body rest, Ir.Steps (p.world (span l (min size (value.utf8ByteSize + 1)))) body
            (code ++ rest, ⟨m, []⟩) (rest, ⟨m', addresses a size⟩)) ∧
          (∀ k < size, m' (a + BitVec.ofNat _ k) = AssemblerString.byte value k) ∧
          ∀ z ∉ span a size, m' z = m z) := by
  have hrun := enterVariable_str he hauto hinit htype harray hptr
  refine ⟨fun hlong => ?_, fun hlength types id hn => ?_⟩
  · have hask : ask (·.sizeOf type) s = .ok (size, s) := ask_ok hsize
    rw [hrun, storeInitialChars, bind_ok hask, if_pos hlong]
    rfl
  refine ⟨_, (s.strings.intern value).2, _, hrun.trans (storeInitialChars_ok hsize hn hptr hlength),
    LowerState.pushes_diagnostics, ?_, LowerState.pushes_body, fun p m a l ha hl hdata hapart => ?_⟩
  · rw [LowerState.pushes_strings]
    exact StringTable.value?_intern
  -- an array that covers all of memory leaves no room for the literal
  have hfits : size ≤ 2 ^ ptr.bits := by
    by_contra hlarge
    have hread : l + BitVec.ofNat ptr.bits 0 ∈ span l (min size (value.utf8ByteSize + 1)) :=
      Ir.add_mem_span (Nat.lt_min.2 ⟨Nat.zero_lt_of_lt (Nat.lt_of_not_le hlarge), Nat.succ_pos _⟩)
    refine Set.disjoint_left.1 hapart hread ?_
    exact (BitVec.isLt _).trans (Nat.lt_of_not_le hlarge)
  refine ⟨Ir.nodup_addresses hfits, _, fun body rest => Places.steps_chars ha hl hdata hapart hfits,
    fun k hk => ?_, fun z hz => Bytes.filled_of_notMem hz⟩
  rw [Bytes.filled_add hk, BitVec.toNat_ofNat, Nat.mod_eq_of_lt (Nat.lt_of_lt_of_le hk hfits)]

/-- An annotation with the type of pointers to characters. -/
def charPointer : Source.Note where
  type := .pointer (.integer .char true)

/-- Arrays of six and of two characters. -/
def textTypes : TypeTable where
  profile := .ilp32
  entries := TypeTable.basicEntries .ilp32 ++ [
    ⟨.array (.integer .char true) (some 6), .array ⟨1⟩ (some 6)⟩,
    ⟨.array (.integer .char true) (some 2), .array ⟨1⟩ (some 2)⟩]

/-- Variables `char text[6] = "hé"` and `char tag[2] = "hé"`. -/
def textState : LowerState where
  types := textTypes
  entities := {
    entries := [
      { name := "text", ref := .array (.integer .char true) (some 6), type := .settled ⟨9⟩,
        kind := .definedVariable (some (.str charPointer "hé")) },
      { name := "tag", ref := .array (.integer .char true) (some 2), type := .settled ⟨10⟩,
        kind := .definedVariable (some (.str charPointer "hé")) }] }

/-- The variables stand at 8192, and the literal at 4096. -/
def textPlaces : Places .w32 where
  entity _ := some 8192
  literal _ := some 4096

/-- The data of the literal at 4096, and other bytes elsewhere. -/
def textBytes : Bytes .w32 := fun a =>
  if a = 4096 then 0x68 else if a = 4097 then 0xc3 else if a = 4098 then 0xa9
  else if a = 4099 then 0 else 0xff

/-- The three bytes of `"hé"` fill half of `text`, and do not fit `tag`. -/
theorem enterVariable_chars_text :
    (∃ s' code, enterVariable ⟨0⟩ textState = .ok ((), s') ∧ s'.diagnostics = [] ∧
      s'.function.body.toList = code ∧ ∃ m',
        (∀ body rest, Ir.Steps (textPlaces.world (span 4096 4)) body (code ++ rest, ⟨textBytes, []⟩)
          (rest, ⟨m', addresses 8192 6⟩)) ∧
        m' 8192 = 0x68 ∧ m' 8194 = 0xa9 ∧ m' 8195 = 0 ∧ m' 8197 = 0 ∧ m' 8198 = 0xff) ∧
    enterVariable ⟨1⟩ textState = .ok ((), { textState with
      diagnostics :=
        [⟨.error, "string initializer is too long for an array of 2 bytes", none⟩] }) := by
  have hpointer : textTypes.pointerWidth = .ok .w32 := by decide
  obtain ⟨t, id, hn⟩ : ∃ t id, textTypes.intern charPointer.type = .ok (t, id) := ⟨_, _, rfl⟩
  have hsix : textTypes.sizeOf ⟨9⟩ = .ok 6 := by decide
  have htwo : textTypes.sizeOf ⟨10⟩ = .ok 2 := by decide
  have harray : textTypes.isArray ⟨9⟩ = .ok true := by decide
  have harray' : textTypes.isArray ⟨10⟩ = .ok true := by decide
  -- both variables are cases of the theorem: one literal fits, the other one does not
  obtain ⟨-, hfits⟩ :=
    enterVariable_chars (s := textState) (v := ⟨0⟩) rfl rfl rfl rfl harray hsix hpointer
  obtain ⟨hlong, -⟩ :=
    enterVariable_chars (s := textState) (v := ⟨1⟩) rfl rfl rfl rfl harray' htwo hpointer
  refine ⟨?_, hlong (by decide)⟩
  obtain ⟨s', literal, code, hrun, hdiagnostics, -, hbody, hsteps⟩ := hfits (by decide) t id hn
  have hdata : ∀ k ≤ 3, textBytes (4096 + BitVec.ofNat _ k) = AssemblerString.byte "hé" k := by
    decide
  obtain ⟨-, m', hrun', hbytes, hothers⟩ := hsteps textPlaces textBytes 8192 4096 rfl rfl hdata
    (Ir.disjoint_span (by decide) (by decide))
  exact ⟨s', code, hrun, hdiagnostics, hbody, m', hrun', hbytes 0 (by decide), hbytes 2 (by decide),
    hbytes 3 (by decide), hbytes 5 (by decide), hothers 8198 (by decide)⟩

end Lower

end Backend386
