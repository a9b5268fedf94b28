import Backend386.Proofs.Lowering.Stores
import Backend386.Proofs.ObjectPaths
import Backend386.Proofs.Types.Circles

/-!
# Copies of objects

An object is copied in pieces of the size that its alignment allows. The addresses of the
destination and of the source are held while the pieces are stored, and nothing but the bytes of the
destination is written, each of them once.

* `Ir.Copies` — the code that copies an object;
* `Ir.Places.Roomy` — memory in which it can be copied;
* `Ir.Copies.steps` — what the code does;
* `Lower.copyAggregate_copies` — objects of the types of a table that passed the check are copied.
-/

namespace Backend386

open Ir (Places Bytes Steps Value span addresses)
open Relation (ReflTransGen)
open TypeTable (Interns)

namespace Ir

/-- The code that copies `size` bytes from the address `src` to the address `dst`, and the
expression that holds the destination. The addresses are held first, that of the destination before
that of the source, in temporaries if they are computed. Then the pieces follow one another. -/
inductive Copies (ptr : Width) (loc : Option Location) (dst src : Expr) (size : Nat) :
    List EntityId → List Stmt → Expr → Prop where
  | pieces {us vs : List EntityId} {before before' : List Stmt} {dst' src' : Expr} {w : Width}
    {count : Nat} (hdst : dst.HeldIn ptr loc us before dst')
    (hsrc : src.HeldIn ptr loc vs before' src') (hsize : count * w.bytes = size) :
    Copies ptr loc dst src size (us ++ vs) (before ++ before' ++
      Places.assigns loc (fun i => .offsetBy ptr dst' (i * w.bytes))
        (fun i => .mem w (.offsetBy ptr src' (i * w.bytes))) count) dst'

/-- Memory in which `size` bytes can be copied from `a` to `d`, through temporaries. -/
structure Places.Roomy {ptr : Width} (p : Places ptr) (m : Bytes ptr) (tmps : List EntityId)
    (dst src : Expr) (size : Nat) (d a : BitVec ptr.bits) : Prop where
  /-- neither address depends on what is in the temporaries -/
  dst_value : dst.result? (p.env (p.slots tmps)ᶜ m) = some ⟨ptr, d⟩
  src_value : src.result? (p.env (p.slots tmps)ᶜ m) = some ⟨ptr, a⟩
  ranges : a = d ∨ Disjoint (span a size) (span d size)
  /-- no variable that holds an address is in the destination -/
  dst_holder : Disjoint (p.holder dst) (span d size)
  src_holder : Disjoint (p.holder src) (span d size)
  /-- the temporaries have places of their own -/
  placed : ∀ v ∈ tmps, ∃ b, p.entity v = some b
  apart : tmps.Pairwise fun u v => Disjoint (p.slots [u]) (p.slots [v])
  tmps_dst : Disjoint (p.slots tmps) (span d size)
  tmps_src : Disjoint (p.slots tmps) (span a size)

section

variable {ptr : Width} {p : Places ptr} {m : Bytes ptr} {tmps us vs : List EntityId}
  {dst src x y : Expr} {size : Nat} {d a : BitVec ptr.bits} {loc : Option Location}
  {code : List Stmt}

/-- Lists of variables that are apart have no byte in common. -/
theorem Places.disjoint_slots
    (h : (us ++ vs).Pairwise fun u v => Disjoint (p.slots [u]) (p.slots [v])) :
    Disjoint (p.slots us) (p.slots vs) := by
  obtain ⟨-, -, hacross⟩ := List.pairwise_append.1 h
  refine Set.disjoint_left.2 fun z ⟨u, hu, hz⟩ ⟨v, hv, hz'⟩ => ?_
  have hapart := hacross u hu v hv
  rw [Places.slots_singleton, Places.slots_singleton] at hapart
  exact Set.disjoint_left.1 hapart hz hz'

/-- What holds an address is outside of a part of memory if the address and the temporaries are. -/
theorem Expr.HeldIn.disjoint_holder (h : x.HeldIn ptr loc vs code y) {S : Set (BitVec ptr.bits)}
    (hx : Disjoint (p.holder x) S) (hvs : Disjoint (p.slots vs) S) : Disjoint (p.holder y) S := by
  cases h with
  | named => exact hx
  | kept => rwa [Places.slots_singleton] at hvs

/-- While the destination is filled with bytes of the source, the source keeps its bytes. -/
theorem Bytes.filled_source {n o : Nat} {z : BitVec ptr.bits}
    (h : a = d ∨ Disjoint (span a n) (span d n)) (ho : o ≤ n) (hz : z ∈ span a n) :
    m.filled d o (fun k => m (a + k)) z = m z := by
  rcases h with rfl | h
  · have hsame : m.filled a o (fun k => m (a + k)) = m := Bytes.filled_eq_self fun y _ => by
      rw [BitVec.add_comm, BitVec.sub_add_cancel]
    rw [hsame]
  · exact Bytes.filled_of_notMem fun h' => Set.disjoint_left.1 h hz (span_mono ho h')

/-- While the destination is filled, a named address that is not held there keeps its value. -/
theorem Places.result?_filled {n o : Nat} {g : BitVec ptr.bits → BitVec 8} {r : Value}
    (hx : x.isStable = true) (h : Disjoint (p.holder x) (span d n)) (ho : o ≤ n)
    (hr : x.result? (p.env .univ m) = some r) :
    x.result? (p.env .univ (m.filled d o g)) = some r := by
  refine Places.result?_holder hx (fun z hz _ => ⟨trivial, Bytes.filled_of_notMem fun h' => ?_⟩) hr
  exact Set.disjoint_left.1 h hz (span_mono ho h')

/-- Pieces are copied from one named address to another. -/
theorem Places.steps_pieces {w : Width} {count : Nat} {log : List (BitVec ptr.bits)}
    (hx : x.isStable = true) (hy : y.isStable = true)
    (hd : x.result? (p.env .univ m) = some ⟨ptr, d⟩)
    (ha : y.result? (p.env .univ m) = some ⟨ptr, a⟩)
    (h : a = d ∨ Disjoint (span a (count * w.bytes)) (span d (count * w.bytes)))
    (hxd : Disjoint (p.holder x) (span d (count * w.bytes)))
    (hyd : Disjoint (p.holder y) (span d (count * w.bytes))) {body rest : List Stmt} :
    Steps (p.world .univ) body
      (Places.assigns loc (fun i => .offsetBy ptr x (i * w.bytes))
        (fun i => .mem w (.offsetBy ptr y (i * w.bytes))) count ++ rest, ⟨m, log⟩)
      (rest, ⟨m.filled d (count * w.bytes) (fun k => m (a + k)),
        log ++ addresses d (count * w.bytes)⟩) := by
  have hpiece {i : Nat} (hi : i < count) : i * w.bytes + w.bytes ≤ count * w.bytes := by
    rw [← Nat.succ_mul]
    exact Nat.mul_le_mul_right _ hi
  -- the bytes that are behind are filled, and what is ahead has not been touched
  refine Places.steps_assigns (fun i hi => ?_) fun i hi => ?_
  · exact Expr.result?_offsetBy (result?_filled hx hxd ((Nat.le_add_right ..).trans (hpiece hi)) hd)
  · have hle := hpiece hi
    have haddress : (Expr.offsetBy ptr y (i * w.bytes)).result?
        (p.env .univ (m.filled d (i * w.bytes) fun k => m (a + k))) =
          some ⟨ptr, a + BitVec.ofNat ptr.bits (i * w.bytes)⟩ :=
      Expr.result?_offsetBy (result?_filled hy hyd ((Nat.le_add_right ..).trans hle) ha)
    refine ⟨_, (Places.result?_mem haddress).trans
      (congrArg _ (Bytes.load?_eq_some (Set.subset_univ _))), rfl, fun j hj => ?_⟩
    refine (extractLsb'_word hj).trans ?_
    rw [BitVec.add_assoc, ← BitVec.ofNat_add]
    exact Bytes.filled_source h (by omega) (add_mem_span (by omega))

/-- The addresses of both objects are held, one after the other. -/
theorem Places.Roomy.steps {before before' : List Stmt} {dst' src' : Expr}
    (hp : p.Roomy m (us ++ vs) dst src size d a) (hdst : dst.HeldIn ptr loc us before dst')
    (hsrc : src.HeldIn ptr loc vs before' src') :
    ∃ m' kept, (∀ body rest,
        Steps (p.world .univ) body (before ++ (before' ++ rest), ⟨m, []⟩) (rest, ⟨m', kept⟩)) ∧
      (∀ z ∈ kept, z ∈ p.slots (us ++ vs)) ∧ (∀ z ∉ p.slots (us ++ vs), m' z = m z) ∧
      dst'.result? (p.env .univ m') = some ⟨ptr, d⟩ ∧
      src'.result? (p.env .univ m') = some ⟨ptr, a⟩ := by
  obtain ⟨hplaced, hplaced'⟩ := List.forall_mem_append.1 hp.placed
  have hd := hp.dst_value
  have ha := hp.src_value
  rw [Places.slots_append] at hd ha ⊢
  -- the address of the destination is kept first, and the slots of the source are apart from its
  -- own
  obtain ⟨m₁, kept, hrun, hsame, hkept, hd₁⟩ := hdst.steps hplaced (disjoint_slots hp.apart) hd
  have ha₁ : src.result? (p.env (p.slots vs ∪ ∅)ᶜ m₁) = some ⟨ptr, a⟩ := by
    refine Places.result?_mono (fun z hz => ?_) ha
    rw [Set.union_empty]
    exact ⟨fun h => hz (.inr h), hsame z fun h => hz (.inl h)⟩
  obtain ⟨m₂, kept', hrun', hsame', hkept', ha₂⟩ := hsrc.steps hplaced' (Set.disjoint_empty _) ha₁
  refine ⟨m₂, _, fun body rest => (hrun body _ []).trans (hrun' body rest _), fun z hz => ?_,
    fun z hz => ?_, ?_, ?_⟩
  · rcases List.mem_append.1 hz with hz | hz
    · exact .inl (hkept z hz)
    · exact .inr (hkept' z hz)
  · exact (hsame' z fun h => hz (.inr h)).trans (hsame z fun h => hz (.inl h))
  · exact Places.result?_mono (fun z hz => ⟨trivial, hsame' z hz⟩) hd₁
  · exact Places.result?_mono (fun _ _ => ⟨trivial, rfl⟩) ha₂

/-- The code moves the bytes of the source to the destination. Each byte of the destination is
written once, in order, and no other byte but those of the temporaries is. -/
theorem Copies.steps (h : Copies ptr loc dst src size tmps code x)
    (hp : p.Roomy m tmps dst src size d a) :
    ∃ m' kept, (∀ body rest,
        Steps (p.world .univ) body (code ++ rest, ⟨m, []⟩) (rest, ⟨m', kept ++ addresses d size⟩)) ∧
      (∀ z ∈ kept, z ∈ p.slots tmps) ∧
      (∀ k < size, m' (d + BitVec.ofNat _ k) = m (a + BitVec.ofNat _ k)) ∧
      (∀ z ∉ span d size, z ∉ p.slots tmps → m' z = m z) ∧
      x.result? (p.env .univ m') = some ⟨ptr, d⟩ := by
  obtain ⟨hdst, hsrc, rfl⟩ := h
  obtain ⟨m₁, kept, hrun, hkept, hsame, hd, ha⟩ := hp.steps hdst hsrc
  have hfree := hp.tmps_dst
  rw [Places.slots_append] at hfree
  obtain ⟨hus, hvs⟩ := Set.disjoint_union_left.1 hfree
  have hx := hdst.disjoint_holder hp.dst_holder hus
  have hy := hsrc.disjoint_holder hp.src_holder hvs
  refine ⟨m₁.filled d _ fun k => m₁ (a + k), kept, fun body rest => ?_, hkept, fun k hk => ?_,
    fun z hz hz' => ?_, Places.result?_filled hdst.isStable hx le_rfl hd⟩
  · simp only [List.append_assoc]
    exact (hrun body _).trans
      (Places.steps_pieces hdst.isStable hsrc.isStable hd ha hp.ranges hx hy)
  · rw [Bytes.filled_add hk]
    exact hsame _ fun h => Set.disjoint_left.1 hp.tmps_src h (add_mem_span hk)
  · rw [Bytes.filled_of_notMem hz, hsame z hz']

end

end Ir

namespace Lower

variable {s : LowerState} {type void : TypeId} {size : Nat} {ptr : Width} {loc : Option Location}

/-- Pointers have a width in every profile. -/
theorem exists_pointerWidth (h : s.types.profile ∈ WidthProfile.all) :
    ∃ ptr, s.types.pointerWidth = .ok ptr := by
  obtain ⟨ptr, hptr⟩ := pointerWidth_ok h
  rw [pointerWidth_eq, ask_apply] at hptr
  obtain ⟨ptr', hptr', -⟩ := Backend386.bind_eq_ok_iff.1 hptr
  exact ⟨ptr', hptr'⟩

/-- The pieces are copied in order, each by one assignment. -/
theorem forM_pieces (hptr : s.types.pointerWidth = .ok ptr) (offsets : List Nat) (w : Width)
    (dst src : Ir.Expr) :
    (offsets.forM fun k => do
      let target ← offsetAddress dst k
      let source ← offsetAddress src k
      store loc target (.mem w source) : Lower Unit) s =
      .ok ((), s.pushes (offsets.map fun k =>
        ⟨.assign (.offsetBy ptr dst k) (.mem w (.offsetBy ptr src k)), loc⟩)) := by
  refine forM_push fun k _ s' hs' => ?_
  have hptr' : s'.types.pointerWidth = .ok ptr := hs' ▸ hptr
  rw [bind_ok (offsetAddress_ok hptr'), bind_ok (offsetAddress_ok hptr')]
  rfl

/-- The code for a copy is there, whatever has a size. -/
theorem copyAggregate_ok (hm : s.types.Measured) (hvoid : s.types.lookup? .void = some void)
    (hptr : s.types.pointerWidth = .ok ptr) (hsize : s.types.sizeOf type = .ok size)
    (loc : Option Location) (dst src : Ir.Expr) :
    ∃ x s' tmps code, copyAggregate loc type dst src s = .ok (x, s') ∧
      s'.function.body.toList = s.function.body.toList ++ code ∧
      Ir.Copies ptr loc dst src size tmps code x ∧
      tmps.Nodup ∧ ∀ v ∈ tmps, s.entities.size ≤ v.index ∧ v.index < s'.entities.size := by
  obtain ⟨dst', s₁, us, before, hrun, hdst, hext, -, hbody, hle, hnodup, hnew⟩ :=
    stable_ok hvoid hptr loc dst
  have hptr₁ := hext.lasts TypeTable.pointerWidth hptr
  obtain ⟨src', s₂, vs, before', hrun', hsrc, hext', -, hbody', hle', hnodup', hnew'⟩ :=
    stable_ok (hext.lookup? hvoid) hptr₁ loc src
  have hext₂ := hext.trans hext'
  -- the size is a whole number of pieces
  obtain ⟨alignment, halignment, count, rfl⟩ := hm.chunk_dvd hsize
  have hasksize : ask (·.sizeOf type) s₂ = .ok ((chunkWidth alignment).bytes * count, s₂) :=
    ask_ok (hext₂.lasts (·.sizeOf type) hsize)
  have haskalignment : ask (·.alignmentOf type) s₂ = .ok (alignment, s₂) :=
    ask_ok (hext₂.lasts (·.alignmentOf type) halignment)
  generalize hw : chunkWidth alignment = w at *
  refine ⟨dst', s₂.pushes (Places.assigns loc (fun i => .offsetBy ptr dst' (i * w.bytes))
    (fun i => .mem w (.offsetBy ptr src' (i * w.bytes))) count), us ++ vs, _, ?_, ?_,
    .pieces hdst hsrc (Nat.mul_comm count w.bytes), ?_, fun v hv => ?_⟩
  · rw [copyAggregate, bind_ok hrun, bind_ok hrun', bind_ok hasksize, bind_ok haskalignment,
      hw, bind_ok (forM_pieces (hext'.lasts TypeTable.pointerWidth hptr₁) ..), Nat.mul_comm,
      chunkOffsets_mul, List.map_map]
    rfl
  · rw [LowerState.pushes_body, hbody', hbody]
    simp only [List.append_assoc]
  -- the temporaries of the destination are numbered before those of the source
  · refine List.nodup_append.2 ⟨hnodup, hnodup', fun u hu v hv => ?_⟩
    rintro rfl
    exact absurd (hnew u hu).2 (Nat.not_lt.2 (hnew' u hv).1)
  · rw [LowerState.pushes_entities]
    rcases List.mem_append.1 hv with hv | hv
    · exact ⟨(hnew v hv).1, Nat.lt_of_lt_of_le (hnew v hv).2 hle'⟩
    · exact ⟨hle.trans (hnew' v hv).1, (hnew' v hv).2⟩

/-- **Copies move exactly the object.** The types are those of a table that passed the check, and
what was looked up since, under any profile. Whatever has a size is copied by code that evaluates
each address that is computed once, in front of the copy, and holds it in a new temporary. In memory
of which the source and the destination are the same part or have no byte in common, and where no
variable that holds one of the addresses is in the destination, running the code

* gives each byte of the destination the value that the byte of the source had;
* writes each byte of the destination once, and apart from the temporaries nothing else;
* leaves a memory in which the result has the address of the destination as its value. -/
theorem copyAggregate_copies {profile : WidthProfile} {definitions : List TypeDefinition}
    {t : TypeTable} {ds : Diagnostics} (hprofile : profile ∈ WidthProfile.all)
    (hcheck : checkedTypes profile definitions = .ok (t, ds)) (hquiet : ds.hasErrors = false)
    (hs : ReflTransGen Interns t s.types) (hsize : s.types.sizeOf type = .ok size)
    (loc : Option Location) (dst src : Ir.Expr) :
    ∃ ptr x s' tmps code, s.types.pointerWidth = .ok ptr ∧
      copyAggregate loc type dst src s = .ok (x, s') ∧
      s'.function.body.toList = s.function.body.toList ++ code ∧
      Ir.Copies ptr loc dst src size tmps code x ∧
      (tmps.Nodup ∧ ∀ v ∈ tmps, s.entities.size ≤ v.index ∧ v.index < s'.entities.size) ∧
      ∀ (p : Places ptr) (m : Bytes ptr) (d a : BitVec ptr.bits),
        p.Roomy m tmps dst src size d a → (size ≤ 2 ^ ptr.bits → (addresses d size).Nodup) ∧
          ∃ m' kept, (∀ body rest, Ir.Steps (p.world .univ) body (code ++ rest, ⟨m, []⟩)
              (rest, ⟨m', kept ++ addresses d size⟩)) ∧
            (∀ z ∈ kept, z ∈ p.slots tmps) ∧
            (∀ k < size, m' (d + BitVec.ofNat _ k) = m (a + BitVec.ofNat _ k)) ∧
            (∀ z ∉ span d size, z ∉ p.slots tmps → m' z = m z) ∧
            x.result? (p.env .univ m') = some ⟨ptr, d⟩ := by
  -- everything that the copy needs of the table is kept by the types that are registered later
  have hreachable := checkedTypes_reachable hcheck
  have hm := (checkedTypes_measured hprofile hcheck hquiet).of_interns hs
  obtain ⟨void, hvoid⟩ := (hreachable.canonical.of_interns hs).void
  have hsame : s.types.profile = profile :=
    (TypeTable.extends_of_interns hs).profile.trans hreachable.wellFormed.2
  obtain ⟨ptr, hptr⟩ := exists_pointerWidth (hsame ▸ hprofile)
  obtain ⟨x, s', tmps, code, hrun, hbody, hcopies, hnew⟩ :=
    copyAggregate_ok hm hvoid hptr hsize loc dst src
  exact ⟨ptr, x, s', tmps, code, hptr, hrun, hbody, hcopies, hnew, fun p m d a hp =>
    ⟨Ir.nodup_addresses, hcopies.steps hp⟩⟩

/-- The address of `nodes[1]`, as it is computed. -/
def secondNodeAddress : Ir.Expr :=
  .offsetBy .w32 (.addr .w32 ⟨0⟩) 8

/-- The nodes stand at 8168, and `head` at 8164. What is new stands at 8160. -/
def nodePlaces : Places .w32 where
  entity v := some (if v.index = 0 then 8168 else if v.index = 1 then 8164 else 8160)
  literal _ := none

/-- `head` holds 4096, where 7 stands. -/
def nodeBytes : Bytes .w32 := fun a =>
  if a = 8165 then 16 else if a = 4096 then 7 else 0

/-- The node that `head` points to is copied to `nodes[1]`, through one temporary. -/
theorem copyAggregate_copies_node :
    ∃ x s' code, copyAggregate none ⟨9⟩ secondNodeAddress (.var .w32 ⟨1⟩) Source.nodeState =
        .ok (x, s') ∧ s'.function.body.toList = code ∧
      ∃ m' kept, (∀ body rest, Ir.Steps (nodePlaces.world .univ) body
          (code ++ rest, ⟨nodeBytes, []⟩) (rest, ⟨m', kept ++ addresses 8176 8⟩)) ∧
        (∀ z ∈ kept, z ∈ span 8160 4) ∧ m' 8176 = 7 ∧
        x.result? (nodePlaces.env .univ m') = some ⟨.w32, 8176⟩ := by
  -- both addresses are asked for at run time: one is computed and so it is kept, the other one is a
  -- name
  let checked : TypeTable := ⟨.ilp32, Source.nodeTypes.entries.take 12⟩
  have hcheck : checkedTypes .ilp32 TypeTable.linkedList = .ok (checked, []) := rfl
  have harray : checked.intern (.array (.struct "node") (some 3)) = .ok (Source.nodeTypes, ⟨12⟩) :=
    rfl
  have hsize : Source.nodeTypes.sizeOf ⟨9⟩ = .ok 8 := by decide
  have hpointer : Source.nodeTypes.pointerWidth = .ok .w32 := by decide
  obtain ⟨ptr, x, s', tmps, code, hptr, hrun, hbody, hcopies, ⟨-, hnew⟩, hcopy⟩ :=
    copyAggregate_copies (s := Source.nodeState) (by decide) hcheck rfl (.single ⟨_, _, harray⟩)
      hsize none secondNodeAddress (.var .w32 ⟨1⟩)
  obtain rfl := Except.ok.inj (hpointer.symm.trans hptr)
  obtain ⟨v, rfl⟩ : ∃ v, tmps = [v] := by
    cases hcopies with
    | pieces hdst hsrc _ =>
      cases hdst with
      | named h => exact absurd h (by decide)
      | kept _ v =>
        cases hsrc with
        | named => exact ⟨v, rfl⟩
        | kept h => exact absurd h (by decide)
  have hv : nodePlaces.entity v = some 8160 := by
    have hle : 2 ≤ v.index := (hnew v (List.mem_singleton_self v)).1
    have h0 : v.index ≠ 0 := by omega
    have h1 : v.index ≠ 1 := by omega
    simp [nodePlaces, h0, h1]
  have hslots : nodePlaces.slots [v] = span 8160 4 := by
    rw [Places.slots_singleton, Places.holder_var hv]
    rfl
  have hhead : nodePlaces.holder (.var .w32 ⟨1⟩) = span 8164 4 := Places.holder_var rfl
  -- nothing overlaps, as all of it stands at fixed addresses
  have hroomy : nodePlaces.Roomy nodeBytes [v] secondNodeAddress (.var .w32 ⟨1⟩) 8 8176 4096 := by
    refine ⟨(Ir.Expr.result?_offsetBy (Places.result?_addr rfl)).trans rfl, ?_, .inr ?_,
      Set.empty_disjoint _, ?_, List.forall_mem_singleton.2 ⟨_, hv⟩, List.pairwise_singleton ..,
      ?_, ?_⟩
    · rw [hslots, Places.result?_var rfl, Bytes.load?_eq_some]
      · rfl
      · exact Set.subset_compl_iff_disjoint_right.2 (Ir.disjoint_span (by decide) (by decide))
    · exact Ir.disjoint_span (by decide) (by decide)
    · rw [hhead]
      exact Ir.disjoint_span (by decide) (by decide)
    · rw [hslots]
      exact Ir.disjoint_span (by decide) (by decide)
    · rw [hslots]
      exact Ir.disjoint_span (by decide) (by decide)
  obtain ⟨-, m', kept, hsteps, hkept, hbytes, -, hvalue⟩ := hcopy _ _ _ _ hroomy
  rw [hslots] at hkept
  exact ⟨x, s', code, hrun, hbody, m', kept, hsteps, hkept, (hbytes 0 (by decide)).trans rfl,
    hvalue⟩

end Lower

end Backend386
